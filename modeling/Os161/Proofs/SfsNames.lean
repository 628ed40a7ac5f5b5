import Os161.Proofs.Freemap

/-! The directory and the link counts over whole runs of the directory operations. -/

namespace Os161

open Op

variable {s t : Sfs}

theorem Sfs.Inv.findname (h : s.Inv False [] 0) (hl : s.vol.loaded 1) (name : CStr) :
    (sfsDirFindname 1 name).wp False
      (fun f t => t = s ∧ (∀ i k, f.hit = some (i, k) ↔ s.vol.Entry name.chars i k) ∧
        f.hit.map Prod.fst = s.vol.names name.chars)
      (fun _ _ => False) s := by
  apply sfsDirFindname_wp h hl
  intro f hf
  refine ⟨rfl, fun i k => hf.hit_iff h.dir, ?_⟩
  cases hhit : f.hit with
  | none => rw [hf.miss_iff.mp hhit, Option.map_none]
  | some x =>
    have hent := (hf.hit_iff (i := x.1) (k := x.2) h.dir).mp hhit
    rw [h.dir.names_eq_some.mpr ⟨x.2, hent⟩, Option.map_some]

theorem Sfs.Inv.dirLink (h : s.Inv False [] 0) (hl : s.vol.loaded 1) (name : CStr) {i : ℕ} (hi : s.vol.loaded i)
    (hi1 : i ≠ 1) :
    (sfsDirLink 1 name i).wp False
      (fun k t => s.vol.names name.chars = none ∧ t.vol.Entry name.chars i k ∧
        t.vol.names = Function.update s.vol.names name.chars (some i))
      (fun e t => s.LinkError t name e ∧ t.vol.names = s.vol.names) s := by
  have hin := Sfs.inode_of_loaded hi
  have hi0 := h.sound.struct.inode_ne_zero hin
  have hword := h.ino_lt hin
  apply sfsDirLink_wp h hl hi hi1
  · intro k t ht _ hlinked
    refine ⟨hlinked.names_eq_none, ?_, (hlinked.becomes h.dir ht.dir hi0 hword).names⟩
    apply (hlinked.set.dirSet hlinked.le).entry.mpr
    exact Or.inl ⟨rfl, hi0, sfdIno_mkDirentry hword _, sfdName_mkDirentry hlinked.short⟩
  · intro e t _ hkeeps herr
    exact ⟨herr, (hkeeps.vol.sameDir h.sound.struct).names⟩

/-- The directory of a volume that is in order refines its map. -/
theorem Sfs.Inv.directory (h : s.Inv False [] 0) (hterm : s.vol.Terminated) : s.Directory where
  finite := s.vol.finite_names
  terminated := hterm
  distinct name i j k l hk hl := h.dir.distinct hk hl
  aligned := h.dir.aligned
  findname hl name := h.findname hl name
  dirLink hl name i hi hi1 := h.dirLink hl name hi hi1
  dirUnlink hl name i k hent hi := sfsDirUnlink_wp h hl hent hi fun t _ _ _ hbecomes => hbecomes.names
  creat hl name excl := by
    apply sfsCreat_wp h hl
    · intro i t hex hsome ht
      exact Or.inl ⟨hex, hsome, ht.becomes.names⟩
    · intro i t hnone hnew ht
      refine Or.inr ⟨hnone, fun n hn => hnew ?_, ht.becomes.names⟩
      obtain ⟨k, hk, hi0, hi, -⟩ := Vol.exists_entry hn
      exact Or.inr (Or.inr ⟨k, hk, hi0, hi⟩)
    · intro e t ht
      exact ht.becomes.names
  link hl name i hi := by
    apply sfsLink_wp h hl hi
    · intro t hnone ht
      exact ⟨hnone, ht.becomes.names⟩
    · intro e t ht
      exact ht.becomes.names
  remove hl name := by
    apply sfsRemove_wp h hl
    · intro t hsome ht
      exact ⟨hsome, ht.becomes.names⟩
    · intro e t ht
      exact ht.becomes.names
  rename hl n1 n2 := by
    apply sfsRename_wp h hl
    · intro i t hold hnew ht
      exact ⟨i, hold, hnew, ht.becomes.names⟩
    · intro e t ht
      exact ht.becomes.names

/-! ### Link counts -/

theorem Sfs.Inv.linkcount (h : s.Inv False [] 0) {i : ℕ} (hi : s.vol.Inode i) (hi1 : i ≠ 1) :
    (s.vol.block i).sfiLinkcount = s.vol.links i := by
  have := h.dir.links i hi hi1
  simp only [Pi.zero_apply] at this
  omega

theorem Sfs.Inv.reclaim (h : s.Inv False [] 0) {i : ℕ} {v : SfsVnode} (hv : s.vnode i = some v) :
    (sfsReclaim i).wp False
      (fun _ t => v.refcount = 1 ∧ ¬ t.vol.loaded i ∧ t.vol.FreemapExact ∧
        (i ≠ 1 ∧ s.vol.links i = 0 → t.freemap i = false ∧ ¬ t.vol.Inode i) ∧
        (i = 1 ∨ s.vol.links i ≠ 0 → t.vol.block = s.vol.block ∧ t.freemap = s.freemap))
      (fun e t => e = .ebusy ∧ 1 < v.refcount ∧ t.vol = s.vol) s := by
  have hl : s.vol.loaded i := by simp [Sfs.vol, hv]
  have hin := Sfs.inode_of_loaded hl
  apply sfsReclaim_wp h hl
  · intro w t hw hone ht hr
    have hgone : ¬ t.vol.loaded i := fun hlt => ((hr.loaded i).mp hlt).2 rfl
    obtain rfl : v = w := Option.some.inj (hv.symm.trans hw)
    refine ⟨hone, hgone, ht.freemapExact, ?_, fun hkept => hr.kept ?_⟩
    · rintro ⟨hi1, hlinks⟩
      refine ⟨hr.erased ((h.linkcount hin hi1).trans hlinks), ?_⟩
      rintro (hroot | hlt | ⟨k, hk, -, hslot⟩)
      · exact hi1 hroot
      · exact hgone hlt
      · rw [hr.dir.nslots] at hk
        rw [hr.dir.slot k hk] at hslot
        have := Vol.links_pos hk hslot
        omega
    · by_cases hi1 : i = 1
      · have := h.dir.rootLinks
        rw [hi1]
        omega
      · rw [h.linkcount hin hi1]
        exact hkept.resolve_left hi1
  · intro w t hw hmany _ hvol
    obtain rfl : v = w := Option.some.inj (hv.symm.trans hw)
    exact ⟨rfl, hmany, hvol⟩

theorem Sfs.Inv.linkcounts (h : s.Inv False [] 0) : s.Linkcounts where
  right i hi hi1 := h.linkcount hi hi1
  small i hi hi1 := by
    have := h.dir.links_le h.sound.struct i
    rw [h.linkcount hi hi1]
    omega
  lookonce hl name := sfsLookonce_wp h hl (fun _ _ _ _ _ _ _ => trivial) fun _ _ _ _ => trivial
  creat hl name excl := sfsCreat_wp h hl (fun _ _ _ _ _ => trivial) (fun _ _ _ _ _ => trivial) fun _ _ _ => trivial
  link hl name i hi := sfsLink_wp h hl hi (fun _ _ _ => trivial) fun _ _ _ => trivial
  remove hl name := sfsRemove_wp h hl (fun _ _ _ => trivial) fun _ _ _ => trivial
  rename hl n1 n2 := sfsRename_wp h hl (fun _ _ _ _ _ => trivial) fun _ _ _ => trivial
  decref i hi := vnodeDecref_wp h hi fun _ _ _ _ => trivial
  reclaim i v hv := h.reclaim hv

/-! ### Runs -/

/-- The volume stays in order in a run without writes. -/
theorem Sfs.Inv.run {I : Sfs → Prop} (hI : ∀ s e t, I s → e.isWrite = false → s.Stable False t e → I t) (h : s.Inv False [] 0)
    (hs : I s) {evs : List SfsEv} (hev : ∀ e ∈ evs, e.isWrite = false) :
    AllStates sfsStep (fun t => t.Inv False [] 0 ∧ I t) s evs := by
  induction evs generalizing s with
  | nil => exact ⟨h, hs⟩
  | cons e es ih =>
    refine ⟨⟨h, hs⟩, fun t ht => ?_⟩
    have hnw := hev e List.mem_cons_self
    have hstable := sfsStep_stable h (fun hw => absurd hw (by simp [hnw])) ht
    exact ih hstable.inv (hI s e t hs hnw hstable) fun e he => hev e (List.mem_cons_of_mem _ he)

/-- In every run of directory operations that starts with an empty directory, the
directory refines a finite map from names to inode numbers. -/
theorem sfs_directory_run (s : Sfs) (hs : s.Consistent) (hempty : ∀ k < s.vol.nslots, sfdIno (s.vol.slot k) = 0)
    (evs : List SfsEv) (hev : ∀ e ∈ evs, e.isWrite = false) : AllStates sfsStep Sfs.Directory s evs := by
  have hterm : s.vol.Terminated := fun k hk h0 => absurd (hempty k hk) h0
  have hrun := (hs.inv False.elim).run (I := fun t => t.vol.Terminated) (fun s e t hI he ht => ht.terminated he hI) hterm hev
  exact hrun.mono fun t ht => ht.1.directory ht.2

/-- A run that makes a file, gives it a second name, renames it, and removes both. -/
def namesRun : List SfsEv :=
  [.getroot, .creat 1 nameA true, .link 1 nameB 4, .rename 1 nameA nameC, .remove 1 nameB, .remove 1 nameC, .decref 4,
    .reclaim 4]

theorem namesRun_runs : (exec sfsStep (Sfs.oneFile 16 3 0 (by decide)) namesRun).isSome = true := by
  decide +kernel

theorem sfs_directory_run_names : (exec sfsStep (Sfs.oneFile 16 3 0 (by decide)) namesRun).isSome = true ∧
    AllStates sfsStep Sfs.Directory (Sfs.oneFile 16 3 0 (by decide)) namesRun :=
  ⟨namesRun_runs, sfs_directory_run _ (Sfs.oneFile.consistent ⟨by decide, by decide, by decide, Or.inl rfl⟩)
    (fun k hk => absurd hk (by rw [Sfs.oneFile.nslots_eq (by decide)]; omega)) namesRun (by decide)⟩

/-- In every run of directory operations and vnode releases, the link counts are right. -/
theorem sfs_linkcount_run (s : Sfs) (hs : s.Consistent) (evs : List SfsEv) (hev : ∀ e ∈ evs, e.isWrite = false) :
    AllStates sfsStep Sfs.Linkcounts s evs := by
  have hrun := (hs.inv False.elim).run (I := fun _ => True) (fun _ _ _ _ _ _ => trivial) trivial hev
  exact hrun.mono fun t ht => ht.1.linkcounts

theorem sfs_linkcount_run_names : (exec sfsStep (Sfs.oneFile 16 3 0 (by decide)) namesRun).isSome = true ∧
    AllStates sfsStep Sfs.Linkcounts (Sfs.oneFile 16 3 0 (by decide)) namesRun :=
  ⟨namesRun_runs, sfs_linkcount_run _ (Sfs.oneFile.consistent ⟨by decide, by decide, by decide, Or.inl rfl⟩)
    namesRun (by decide)⟩

end Os161
