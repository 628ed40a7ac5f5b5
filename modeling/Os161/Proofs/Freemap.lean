import Os161.Lib.Run
import Os161.Proofs.OneFile
import Os161.Proofs.SfsWrite

/-! The freemap over whole runs of SFS operations, and a volume that is so large
that the device offset of a block wraps. -/

namespace Os161

open Op

variable {s t : Sfs} {i : ℕ} {D : Prop}

/-! ### The invariant and consistency -/

theorem Sfs.Consistent.inv (h : s.Consistent) (hdisk : D → s.OnDisk) : s.Inv D [] 0 where
  sound := {
    mounted := ⟨h.nodup, h.clean, h.held, h.disk, h.quiet, hdisk⟩
    struct := {
      covered := h.covered
      room := h.room
      owned := by
        refine ⟨fun b => ?_, h.freemap.unique, (by simp), List.nodup_nil⟩
        have hcov := h.covered
        have hroom := h.room
        simp only [List.not_mem_nil, or_false]
        refine ⟨fun hb => (h.freemap.exact b hb.1).mp hb.2, ?_⟩
        rintro ⟨r, hr⟩
        have hlt : b < sfsFreemapbits s.nblocks := by
          cases r with
          | super =>
            have hb : b = 0 := hr
            omega
          | freemap k =>
            have hb : k < sfsFreemapblocks s.nblocks ∧ b = 2 + k := hr
            omega
          | pastEnd => exact hr.2
          | inode i =>
            have hb : b = i := hr.2
            have := (h.bounds i hr.1).1
            omega
          | indirect i =>
            have hb : b = s.vol.ind i := hr.2.2
            have := (h.bounds i hr.1).2.1
            omega
          | pointer i fb =>
            have hb : b = s.vol.map i fb := hr.2.2.2
            have := (h.bounds i hr.1).2.2 fb hr.2.1
            omega
        exact ⟨hlt, (h.freemap.exact b hlt).mpr ⟨r, hr⟩⟩
      inodeBound := fun i hi => (h.bounds i hi).1
      indBound := fun i hi => (h.bounds i hi).2.1
      mapBound := fun i hi => (h.bounds i hi).2.2
      pending := (by simp)
      dirSize := h.dirSize } }
  dir := {
    rootType := h.rootType
    rootLinks := h.rootLinks
    aligned := h.aligned
    fileType := h.fileType
    noRoot := h.noRoot
    links := fun i hi h1 => by rw [h.links i hi h1, Pi.zero_apply, add_zero]
    names := h.names }

theorem Sfs.Inv.freemapExact (h : s.Inv D [] 0) : s.vol.FreemapExact where
  exact b hb := by
    have := h.sound.struct.owned.exact b
    simp only [List.not_mem_nil, or_false] at this
    rw [← this]
    exact ⟨fun hu => ⟨hb, hu⟩, fun hu => hu.2⟩
  unique := h.sound.struct.owned.unique

/-! ### One operation -/

theorem getVnode_any {Q : SfsVnode → Sfs → Prop} {E : Errno → Sfs → Prop}
    (hQ : ∀ v, s.vnode i = some v → v.i = s.vol.block i → s.vol.loaded i → Q v s) :
    (getVnode i).wp True Q E s := by
  by_cases hl : s.vol.loaded i
  · exact getVnode_wp hl fun v hv _ hb => hQ v hv hb hl
  · have hnone : s.vnode i = none := by simpa [Sfs.vol] using hl
    unfold getVnode
    simp only [wp_bind, wp_get, hnone, wp_panic]

/-- The only directory is the root. -/
theorem vop_any (h : s.Inv D [] 0) {onDir onFile : SfsM Unit} {Q : Unit → Sfs → Prop} {E : Errno → Sfs → Prop}
    (hdir : i = 1 → s.vol.loaded 1 → onDir.wp True Q E s)
    (hfile : i ≠ 1 → s.vol.loaded i → onFile.wp True Q E s) : (vop i onDir onFile).wp True Q E s := by
  unfold vop
  rw [wp_bind]
  refine getVnode_any fun v _ hv hl => ?_
  rw [wp_ite]
  refine ⟨fun htype => ?_, fun htype => ?_⟩
  · have hi1 : i = 1 := by
      by_contra hi1
      rw [hv, h.dir.fileType i (Sfs.inode_of_loaded hl) hi1] at htype
      exact absurd htype (by decide)
    exact hdir hi1 (hi1 ▸ hl)
  · refine hfile (fun hi1 => htype ?_) hl
    rw [hv, hi1]
    exact h.dir.rootType

theorem decrefDecide_any (h : s.Inv D [] 0) {Q : Unit → Sfs → Prop} {E : Errno → Sfs → Prop}
    (hQ : ∀ t, s.Makes D t s.vol.names → Q () t) : (decrefDecide i).wp True Q E s := by
  unfold decrefDecide
  rw [wp_bind]
  refine getVnode_any fun v hv _ _ => ?_
  simp only [wp_bind, wp_kassert_true, wp_ite, wp_modify, wp_pure]
  have hvol : (s.setVnode i fun w => { w with refcount := w.refcount - 1 }).vol = s.vol :=
    Sfs.vol_setVnode (fun _ => rfl) fun _ => rfl
  refine fun _ => ⟨fun hmany => hQ _ ⟨⟨h.dropRef hv hmany, rfl⟩, ?_⟩, fun _ => hQ s ((Sfs.Keeps.refl s).makes h h)⟩
  rw [hvol]
  exact (Vol.SameDir.refl _).becomes

/-- What every operation does: the volume stays in order, and if it is not a write, so
do the entries of the directory. -/
structure Sfs.Stable (D : Prop) (s t : Sfs) (e : SfsEv) : Prop extends s.Settled D t where
  terminated : e.isWrite = false → s.vol.Terminated → t.vol.Terminated

theorem Sfs.Makes.stable {m : List UInt8 → Option ℕ} {e : SfsEv} (h : s.Makes D t m) : s.Stable D t e :=
  ⟨h.toSettled, fun _ => h.becomes.terminated⟩

/-- Every operation leaves the volume in order, if it returns at all. -/
theorem sfsCall_any (h : s.Inv D [] 0) (e : SfsEv) (hsize : e.isWrite = true → s.nblocks ≤ 8388608) :
    (sfsCall e).wp True (fun _ t => s.Stable D t e) (fun _ t => s.Stable D t e) s := by
  have hself : s.Stable D s e := ((Sfs.Keeps.refl s).makes h h).stable
  have hsame {α : Type} (_ : α) (t : Sfs) (ht : s.Makes D t s.vol.names) : s.Stable D t e := ht.stable
  unfold sfsCall
  cases e with
  | getroot => exact sfsGetroot_wp h (hsame ()) hsame
  | creat dir name excl =>
    refine vop_any h (fun hd hl => ?_) fun _ _ => hself
    subst hd
    rw [wp_bind]
    exact sfsCreat_wp h hl (fun _ _ _ _ ht => ht.stable) (fun _ _ _ _ ht => ht.stable) hsame
  | link dir name file =>
    refine vop_any h (fun hd hl => ?_) fun _ _ => hself
    subst hd
    by_cases hf : s.vol.loaded file
    · exact sfsLink_wp h hl hf (fun _ _ ht => ht.stable) hsame
    · unfold sfsLink
      rw [wp_bind]
      exact getVnode_any fun _ _ _ hf' => absurd hf' hf
  | remove dir name =>
    refine vop_any h (fun hd hl => ?_) fun _ _ => hself
    subst hd
    exact sfsRemove_wp h hl (fun _ _ ht => ht.stable) hsame
  | rename dir n1 n2 =>
    refine vop_any h (fun hd hl => ?_) fun _ _ => hself
    subst hd
    exact sfsRename_wp h hl (fun _ _ _ _ ht => ht.stable) hsame
  | lookup dir name =>
    refine vop_any h (fun hd hl => ?_) fun _ _ => hself
    subst hd
    rw [wp_bind]
    exact sfsLookup_wp h hl hsame hsame
  | write ino u =>
    cases hrw : u.rw with
    | read =>
      simp only [hrw]
      trivial
    | write =>
      simp only [hrw]
      refine vop_any h (fun _ _ => hself) fun h1 hl => ?_
      rw [wp_bind]
      refine (sfsWrite_any h (hsize rfl) hl h1).mono (fun _ t ht => ?_) fun _ t ht => ?_
      · exact ⟨⟨ht.inv, ht.nblocks⟩, fun he => absurd he (by simp [SfsEv.isWrite])⟩
      · exact ⟨⟨ht.inv, ht.nblocks⟩, fun he => absurd he (by simp [SfsEv.isWrite])⟩
  | truncate ino len =>
    refine vop_any h (fun _ _ => hself) fun h1 hl => ?_
    refine sfsItrunc_wp h.sound hl h1 len fun t ht _ htrunc => ?_
    exact ⟨⟨h.trunc h1 ht htrunc, htrunc.nblocks⟩, fun _ => (htrunc.sameDir h.sound.struct h1).terminated⟩
  | decref ino => exact decrefDecide_any h (hsame ())
  | reclaim ino =>
    by_cases hl : s.vol.loaded ino
    · refine sfsReclaim_wp h hl (fun _ t _ _ ht hr => ?_) fun _ t _ _ ht hvol => ?_
      · exact ⟨⟨ht, hr.nblocks⟩, fun _ => hr.dir.terminated⟩
      · exact ⟨⟨ht, congrArg Vol.nblocks hvol⟩, fun _ => by rw [hvol]; exact id⟩
    · unfold sfsReclaim
      rw [wp_bind]
      exact getVnode_any fun _ _ _ hl' => absurd hl' hl

theorem sfsStep_eq_after (s : Sfs) (e : SfsEv) : sfsStep s e = (sfsCall e).after s := by
  unfold sfsStep after
  cases sfsCall e s <;> rfl

theorem sfsStep_stable (h : s.Inv D [] 0) {e : SfsEv} (hsize : e.isWrite = true → s.nblocks ≤ 8388608)
    (hstep : sfsStep s e = some t) : s.Stable D t e :=
  (sfsCall_any h e hsize).after (sfsStep_eq_after s e ▸ hstep)

/-- Between the operations of a run on a volume of at most 2^23 blocks the freemap
is exact, and no block is referenced twice. -/
theorem freemap_run (s : Sfs) (hs : s.Consistent) (hsize : s.nblocks ≤ 8388608) (evs : List SfsEv) :
    AllStates sfsStep (fun t => t.vol.FreemapExact) s evs := by
  have hinv : AllStates sfsStep (fun t => t.Inv False [] 0 ∧ t.nblocks ≤ 8388608) s evs := by
    refine allStates_of_step (fun s e t h hstep => ?_) ⟨hs.inv False.elim, hsize⟩ evs
    have ht := sfsStep_stable h.1 (fun _ => h.2) hstep
    exact ⟨ht.inv, ht.nblocks.trans_le h.2⟩
  exact hinv.mono fun t ht => ht.1.freemapExact

def nameA : CStr := ⟨[97], by decide⟩

def nameB : CStr := ⟨[98], by decide⟩

def nameC : CStr := ⟨[99], by decide⟩

/-- A run that opens the root, makes a file, writes, truncates and removes. -/
def smallRun : List SfsEv :=
  [.getroot, .creat 1 nameA true, .write 3 (uioKinit [1, 2, 3] 600 .write), .rename 1 nameA nameB, .truncate 3 0,
    .remove 1 nameB, .reclaim 3]

theorem freemap_run_small : (exec sfsStep (Sfs.oneFile 16 3 0 (by decide)) smallRun).isSome = true ∧
    AllStates sfsStep (fun t => t.vol.FreemapExact) (Sfs.oneFile 16 3 0 (by decide)) smallRun :=
  ⟨by decide +kernel, freemap_run _ (Sfs.oneFile.consistent ⟨by decide, by decide, by decide, Or.inl rfl⟩)
    (by decide) smallRun⟩

/-! ### A larger volume -/

/-- A whole block of ones for the start of the file. -/
def wholeBlock : SfsEv := .write 3000 (uioKinit (List.replicate 512 255) 0 .write)

/-- On a volume of 2^23 + 4096 blocks a file has its first block at 2^23 + 1. The
offset of that block wraps to the one of the root inode, and the write puts the
block number 2^32 - 1 into all its pointers. -/
theorem freemap_overwritten : (Sfs.oneFile 8392704 3000 8388609 (by decide)).Consistent ∧
    ¬ AllStates sfsStep (fun t => t.vol.FreemapExact) (Sfs.oneFile 8392704 3000 8388609 (by decide)) [wholeBlock] := by
  refine ⟨Sfs.oneFile.consistent ⟨by decide, by decide, by decide, Or.inr (by decide)⟩, fun hall => ?_⟩
  have hrun : ((sfsStep (Sfs.oneFile 8392704 3000 8388609 (by decide)) wholeBlock).map fun t =>
      ((t.dev.sector 1).sfiDirect 0, (t.dev.sector 1).sfiDirect 1, (t.vnode 1).isSome)) =
        some (4294967295, 4294967295, false) := by decide +kernel
  obtain ⟨t, ht, hpointers⟩ := Option.map_eq_some_iff.mp hrun
  simp only [Prod.mk.injEq] at hpointers
  have hblock : t.vol.block 1 = t.dev.sector 1 := Sfs.block_of_not_loaded (by simp [Sfs.vol, hpointers.2.2])
  have href (fb : ℕ) (hfb : fb < 15) (h : (t.dev.sector 1).sfiDirect fb = 4294967295) :
      t.vol.Refs (.pointer 1 fb) 4294967295 := by
    refine ⟨t.vol.inode_root, by omega, by decide, ?_⟩
    rw [Vol.map, if_pos hfb, hblock, h]
  have hsame := (hall.2 t ht).unique _ _ _ (href 0 (by decide) hpointers.1) (href 1 (by decide) hpointers.2.1)
  simp at hsame

end Os161
