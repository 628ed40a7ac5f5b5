import Os161.Spec.VnodeRefs

/-! The reference that `vnode_decref` hands to `sfs_reclaim` keeps the vnode alive until
`sfs_reclaim` has looked again, and what it sees then is final: only `sfs_loadvnode` can
make a new reference to a vnode without one, and it needs the same lock. -/

namespace Os161

namespace VnodeTable

variable {s t : VnodeTable}

/-- What holds between any two steps. -/
structure Inv (s : VnodeTable) : Prop where
  inodes : (s.vnodes.map Prod.snd).Nodup
  counts : ∀ v, (s.refs v).Ok
  table : ∀ v, 0 < (s.refs v).count → v ∈ s.vnodes.map Prod.fst
  freed : ∀ v, s.freed v + s.dying.count v + (s.vnodes.map Prod.fst).count v = if v < s.made then 1 else 0
  found : ∀ v, s.biglock = some (.found v) → v ∈ s.vnodes.map Prod.fst
  missing : ∀ ino, s.biglock = some (.missing ino) → ino ∉ s.vnodes.map Prod.snd
  reclaim : ∀ v, s.biglock = some (.reclaim v) → 0 < (s.refs v).pending
  last : ∀ v, s.biglock = some (.last v) → 0 < (s.refs v).pending ∧ (s.refs v).count = 1

theorem mounted_inv : mounted.Inv where
  inodes := List.nodup_nil
  counts _ := Refs.none_ok
  table v h := absurd h (by simp [mounted, Refs.none])
  freed v := by simp [mounted]
  found v h := by cases h
  missing ino h := by cases h
  reclaim v h := by cases h
  last v h := by cases h

/-- A vnode that has left the table has no references. -/
theorem Inv.unused (h : s.Inv) {v : ℕ} (hv : v ∉ s.vnodes.map Prod.fst) : (s.refs v).count = 0 := by
  by_contra hne
  exact hv (h.table v (Nat.pos_of_ne_zero hne))

theorem Inv.right (h : s.Inv) : s.Right where
  inodes := h.inodes
  counts := h.counts
  table := h.table
  freed := h.freed
  unused v hv := by
    have hone := h.freed v
    have hle : (if v < s.made then 1 else 0) ≤ 1 := by split_ifs <;> omega
    have hout : v ∉ s.vnodes.map Prod.fst := by
      intro hin
      have hpos := List.count_pos_iff.mpr hin
      rcases hv with hv | hv
      · omega
      · have := List.count_pos_iff.mpr hv
        omega
    have hcount := h.unused hout
    have hok := (h.counts v).count
    omega
  asserts v hv hne := (h.counts v).others (h.reclaim v hv) hne
  cleanup v hv := (h.last v hv).2

/-- A step of the counts alone: the vnode is in the table, its count stays right, and the
one that is past its last test, if there is one, is another. -/
theorem Inv.setRefs (h : s.Inv) {v : ℕ} {r : Refs} (hin : v ∈ s.vnodes.map Prod.fst) (hok : r.Ok)
    (hreclaim : s.biglock = some (.reclaim v) → 0 < r.pending) (hlast : s.biglock ≠ some (.last v)) : (s.setRefs v r).Inv := by
  have hother (w : ℕ) (hw : w ≠ v) : (s.setRefs v r).refs w = s.refs w := Function.update_of_ne hw ..
  have hself : (s.setRefs v r).refs v = r := Function.update_self ..
  refine ⟨h.inodes, ?_, ?_, h.freed, h.found, h.missing, ?_, ?_⟩
  · intro w
    by_cases hw : w = v
    · subst hw
      rw [hself]
      exact hok
    · rw [hother w hw]
      exact h.counts w
  · intro w hpos
    by_cases hw : w = v
    · subst hw
      exact hin
    · rw [hother w hw] at hpos
      exact h.table w hpos
  · intro w hw
    by_cases hwv : w = v
    · subst hwv
      rw [hself]
      exact hreclaim hw
    · rw [hother w hwv]
      exact h.reclaim w hw
  · intro w hw
    have hwv : w ≠ v := by
      rintro rfl
      exact hlast hw
    rw [hother w hwv]
    exact h.last w hw

/-- The lock is released, or taken by the next. -/
theorem Inv.setBiglock (h : s.Inv) {pc : Option VnodePc} (hfound : ∀ v, pc = some (.found v) → v ∈ s.vnodes.map Prod.fst)
    (hmissing : ∀ ino, pc = some (.missing ino) → ino ∉ s.vnodes.map Prod.snd)
    (hreclaim : ∀ v, pc = some (.reclaim v) → 0 < (s.refs v).pending)
    (hlast : ∀ v, pc = some (.last v) → 0 < (s.refs v).pending ∧ (s.refs v).count = 1) :
    ({ s with biglock := pc } : VnodeTable).Inv :=
  ⟨h.inodes, h.counts, h.table, h.freed, hfound, hmissing, hreclaim, hlast⟩

theorem Inv.release (h : s.Inv) : ({ s with biglock := none } : VnodeTable).Inv :=
  h.setBiglock (by simp) (by simp) (by simp) (by simp)

theorem Inv.held_mem (h : s.Inv) {v : ℕ} (hheld : 0 < (s.refs v).held) : v ∈ s.vnodes.map Prod.fst :=
  h.table v ((h.counts v).count_pos (.inl hheld))

/-- Nobody has a reference to a vnode past its last test. -/
theorem Inv.not_last (h : s.Inv) {v : ℕ} (hheld : 0 < (s.refs v).held) : s.biglock ≠ some (.last v) := by
  intro hv
  obtain ⟨hpending, hone⟩ := h.last v hv
  have := (h.counts v).last hpending hone
  omega

theorem Inv.make (h : s.Inv) {ino : ℕ} (hmissing : s.biglock = some (.missing ino)) :
    ({ s.setRefs s.made .new with
        vnodes := s.vnodes ++ [(s.made, ino)], biglock := none, made := s.made + 1 } : VnodeTable).Inv := by
  have hother (w : ℕ) (hw : w ≠ s.made) : (s.setRefs s.made .new).refs w = s.refs w := Function.update_of_ne hw ..
  have hself : (s.setRefs s.made .new).refs s.made = .new := Function.update_self ..
  refine ⟨?_, ?_, ?_, ?_, by simp, by simp, by simp, by simp⟩
  · rw [List.map_append, List.nodup_append]
    refine ⟨h.inodes, by simp, ?_⟩
    rintro a ha b hb rfl
    simp only [List.map_cons, List.map_nil, List.mem_singleton] at hb
    exact h.missing ino hmissing (hb ▸ ha)
  · intro w
    by_cases hw : w = s.made
    · subst hw
      simp only [hself]
      exact Refs.new_ok
    · simp only [hother w hw]
      exact h.counts w
  · intro w hpos
    rw [List.map_append]
    by_cases hw : w = s.made
    · subst hw
      simp
    · simp only [hother w hw] at hpos
      exact List.mem_append_left _ (h.table w hpos)
  · intro w
    have hw := h.freed w
    simp only [List.map_append, List.map_cons, List.map_nil, List.count_append, List.count_singleton, beq_iff_eq]
    simp only [VnodeTable.setRefs]
    grind

theorem map_fst_eraseP (l : List (ℕ × ℕ)) (v : ℕ) :
    (l.eraseP fun e => e.1 = v).map Prod.fst = (l.map Prod.fst).erase v := by
  induction l with
  | nil => rfl
  | cons e es ih =>
    by_cases he : e.1 = v
    · simp [he]
    · simp [he, ih]

theorem Inv.remove (h : s.Inv) {v : ℕ} (hlast : s.biglock = some (.last v)) :
    ({ s.setRefs v .none with
        vnodes := s.vnodes.eraseP fun e => e.1 = v, biglock := none, dying := v :: s.dying } : VnodeTable).Inv := by
  have hother (w : ℕ) (hw : w ≠ v) : (s.setRefs v .none).refs w = s.refs w := Function.update_of_ne hw ..
  have hself : (s.setRefs v .none).refs v = .none := Function.update_self ..
  obtain ⟨hpending, hone⟩ := h.last v hlast
  have hin : v ∈ s.vnodes.map Prod.fst := h.table v (by omega)
  refine ⟨?_, ?_, ?_, ?_, by simp, by simp, by simp, by simp⟩
  · exact h.inodes.sublist ((List.eraseP_sublist ..).map _)
  · intro w
    by_cases hw : w = v
    · subst hw
      simp only [hself]
      exact Refs.none_ok
    · simp only [hother w hw]
      exact h.counts w
  · intro w hpos
    by_cases hw : w = v
    · subst hw
      simp only [hself] at hpos
      exact absurd hpos (by decide)
    · simp only [hother w hw] at hpos
      simp only [map_fst_eraseP]
      exact (List.mem_erase_of_ne hw).mpr (h.table w hpos)
  · intro w
    have hw := h.freed w
    have hcount := List.count_pos_iff.mpr hin
    simp only [map_fst_eraseP, List.count_erase, List.count_cons, beq_iff_eq]
    simp only [VnodeTable.setRefs]
    grind

theorem Inv.kfree (h : s.Inv) {v : ℕ} (hv : v ∈ s.dying) :
    ({ s with dying := s.dying.erase v, freed := Function.update s.freed v (s.freed v + 1) } : VnodeTable).Inv := by
  refine ⟨h.inodes, h.counts, h.table, ?_, h.found, h.missing, h.reclaim, h.last⟩
  intro w
  have hw := h.freed w
  have hcount := List.count_pos_iff.mpr hv
  simp only [List.count_erase, beq_iff_eq, Function.update_apply]
  grind

theorem Inv.step {e : VnodeEv} (h : s.Inv) (ht : vnodeStep s e = some t) : t.Inv := by
  cases e with
  | loadvnode ino =>
    simp only [vnodeStep] at ht
    split_ifs at ht
    split at ht
    case h_1 v w hfind =>
      cases ht
      refine h.setBiglock ?_ (by simp) (by simp) (by simp)
      rintro u hu
      cases hu
      exact List.mem_map_of_mem (List.mem_of_find?_eq_some hfind)
    case h_2 hfind =>
      cases ht
      refine h.setBiglock (by simp) ?_ (by simp) (by simp)
      rintro i hi
      cases hi
      intro hmem
      obtain ⟨e, he, rfl⟩ := List.mem_map.mp hmem
      have := List.find?_eq_none.mp hfind e he
      simp at this
  | loadIncref =>
    simp only [vnodeStep] at ht
    split at ht
    case h_1 v hv =>
      cases ht
      exact (h.setRefs (h.found v hv) (h.counts v).incref (by simp [hv]) (by simp [hv])).release
    case h_2 => cases ht
  | loadMake okay =>
    simp only [vnodeStep] at ht
    split at ht
    case h_1 ino hino =>
      split_ifs at ht
      · cases ht
        exact h.make hino
      · cases ht
        exact h.release
    case h_2 => cases ht
  | incref v =>
    simp only [vnodeStep] at ht
    split_ifs at ht with hheld
    cases ht
    exact h.setRefs (h.held_mem hheld) (h.counts v).incref (h.reclaim v) (h.not_last hheld)
  | decref v =>
    simp only [vnodeStep] at ht
    split_ifs at ht with hheld
    cases ht
    refine h.setRefs (h.held_mem hheld) ((h.counts v).decref hheld) ?_ (h.not_last hheld)
    intro hv
    have hpending := h.reclaim v hv
    unfold Refs.decref
    split_ifs
    · exact hpending
    · exact Nat.succ_pos _
  | reclaim v =>
    simp only [vnodeStep] at ht
    split_ifs at ht with hfree
    cases ht
    refine h.setBiglock (by simp) (by simp) ?_ (by simp)
    rintro w hw
    cases hw
    exact hfree.2
  | reclaimTest =>
    simp only [vnodeStep] at ht
    split at ht
    case h_1 v hv =>
      have hpending := h.reclaim v hv
      split_ifs at ht with hone
      · cases ht
        have hin := h.table v ((h.counts v).count_pos (.inr hpending))
        exact h.release.setRefs hin ((h.counts v).busy hpending) (by simp) (by simp)
      · cases ht
        rw [not_not] at hone
        refine h.setBiglock (by simp) (by simp) (by simp) ?_
        rintro w hw
        cases hw
        exact ⟨hpending, hone⟩
    case h_2 => cases ht
  | reclaimRemove =>
    simp only [vnodeStep] at ht
    split at ht
    case h_1 v hv =>
      cases ht
      exact h.remove hv
    case h_2 => cases ht
  | kfree v =>
    simp only [vnodeStep] at ht
    split_ifs at ht with hv
    cases ht
    exact h.kfree hv

end VnodeTable

end Os161
