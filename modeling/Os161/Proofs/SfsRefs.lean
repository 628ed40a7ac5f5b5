import Os161.Proofs.SfsBlocks
import Os161.Proofs.VfsRefs

/-! References that the operations of SFS hand back. The work on blocks, inodes and
entries leaves the table of vnodes and its counts alone; what is left is to see what
becomes of the vnode that is loaded. -/

namespace Os161

open Op

variable {α : Type} {s t : Sfs}

/-! Operations that leave the table alone. -/

def SfsVnode.entry (v : SfsVnode) : ℕ × ℕ := (v.ino, v.refcount)

/-- The same vnodes with the same counts; the disk may have ended operations. -/
structure Sfs.SameRefs (s t : Sfs) : Prop where
  table : t.vnodes.map SfsVnode.entry = s.vnodes.map SfsVnode.entry
  outcomes : t.dev.outcomes <:+ s.dev.outcomes

instance : IsPreorder Sfs Sfs.SameRefs where
  refl _ := ⟨rfl, List.suffix_rfl⟩
  trans _ _ _ h h' := ⟨h'.table.trans h.table, h'.outcomes.trans h.outcomes⟩

/-- Only the outcomes of the disk's operations matter to those that follow. -/
def Lhd.Later (r r' : Lhd × Uio) : Prop := r'.1.outcomes <:+ r.1.outcomes

instance : IsPreorder (Lhd × Uio) Lhd.Later where
  refl _ := List.suffix_rfl
  trans _ _ _ h h' := h'.trans h

theorem Lhd.operate_later (d : Lhd) (sect : ℕ) (rw : UioRw) (buf : Block) :
    (d.operate sect rw buf).2.outcomes <:+ d.outcomes := by
  unfold operate
  split_ifs
  · exact List.suffix_rfl
  · split
    case h_1 os hos =>
      rw [hos]
      exact List.suffix_cons _ _
    case h_2 =>
      cases rw
      · exact List.tail_suffix _
      · exact List.tail_suffix _

theorem later_onUio (x : Op Uio Errno α) : (onUio x : Op (Lhd × Uio) Errno α).Keeps Lhd.Later := by
  intro r
  unfold onUio
  rw [wp_zoom]
  unfold Op.wp
  cases x r.2
  · exact List.suffix_rfl
  · exact List.suffix_rfl
  · trivial

theorem later_lhdSector (sect : ℕ) : (lhdSector sect).Keeps Lhd.Later := by
  rintro ⟨d, u⟩
  simp only [lhdSector, wp_bind, wp_get]
  cases hrw : u.rw with
  | read =>
    simp only [wp_bind, wp_pure, wp_get, wp_set, hrw]
    have hlater := Lhd.operate_later d sect .read (Bytes.ofList [])
    generalize d.operate sect .read (Bytes.ofList []) = r at hlater
    obtain ⟨result, d'⟩ := r
    cases result with
    | error e => exact hlater
    | ok data =>
      rw [wp_bind]
      apply (later_onUio _).wp
      · intro _ t ht
        exact List.IsSuffix.trans ht hlater
      · intro _ t ht
        exact List.IsSuffix.trans ht hlater
  | write =>
    simp only [wp_bind, wp_get]
    apply (later_onUio _).wp
    · rintro buf ⟨d', u'⟩ hd
      have hlater := (Lhd.operate_later d' sect u'.rw (Bytes.ofList buf)).trans hd
      generalize d'.operate sect u'.rw (Bytes.ofList buf) = r at hlater
      obtain ⟨result, d''⟩ := r
      cases result with
      | error e => exact hlater
      | ok data =>
        cases u'.rw with
        | write => exact hlater
        | read =>
          simp only [wp_bind, wp_set]
          apply (later_onUio _).wp
          · intro _ t ht
            exact List.IsSuffix.trans ht hlater
          · intro _ t ht
            exact List.IsSuffix.trans ht hlater
    · intro _ t ht
      exact ht

theorem later_lhdIo : lhdIo.Keeps Lhd.Later := by
  apply keeps_get.bind
  rintro ⟨d, u⟩
  apply Keeps.ite (keeps_fail _)
  apply Keeps.ite (keeps_fail _)
  apply keeps_foldlM
  intro _ i
  exact later_lhdSector _

theorem later_sfsTry {again : Op (Lhd × Uio) Errno Unit} (h : again.Keeps Lhd.Later) : (sfsTry again).Keeps Lhd.Later := by
  apply later_lhdIo.attempt.bind
  intro result
  split
  · exact keeps_pure _
  · exact keeps_panic
  · exact h
  · exact keeps_fail _

theorem later_sfsRetry (tries : ℕ) : (sfsRetry tries).Keeps Lhd.Later := by
  induction tries with
  | zero => exact later_sfsTry (keeps_fail _)
  | succ tries ih => exact later_sfsTry ih

theorem sfsBlock_later (rw : UioRw) (block : ℕ) (data : Block) (d : Lhd) :
    (sfsBlock rw block data).wp True (fun _ d' => d'.outcomes <:+ d.outcomes) (fun _ d' => d'.outcomes <:+ d.outcomes) d := by
  have hlater := later_sfsRetry 10 (d, uioKinit data.toList (block * 512) rw)
  unfold Op.wp sfsBlock sfsRwblock
  unfold Op.wp at hlater
  cases hr : sfsRetry 10 (d, uioKinit data.toList (block * 512) rw) with
  | ok a r =>
    rw [hr] at hlater
    exact hlater
  | err e r =>
    rw [hr] at hlater
    exact hlater
  | panic => trivial

theorem keeps_onDev {x : Op Lhd Errno α}
    (hx : ∀ d, x.wp True (fun _ d' => d'.outcomes <:+ d.outcomes) (fun _ d' => d'.outcomes <:+ d.outcomes) d) :
    (onDev x).Keeps Sfs.SameRefs := by
  intro s
  unfold onDev
  rw [wp_zoom]
  apply (hx s.dev).mono
  · intro _ d hd
    exact ⟨rfl, hd⟩
  · intro _ d hd
    exact ⟨rfl, hd⟩

theorem keeps_readblock (block : ℕ) (data : Block) : (onDev (sfsReadblock block data)).Keeps Sfs.SameRefs :=
  keeps_onDev (sfsBlock_later .read block data)

theorem keeps_writeblock (block : ℕ) (data : Block) : (onDev (sfsWriteblock block data)).Keeps Sfs.SameRefs := by
  apply keeps_onDev
  intro d
  unfold sfsWriteblock
  rw [wp_bind]
  exact sfsBlock_later .write block data d

theorem keeps_getVnode (ino : ℕ) : (getVnode ino).Keeps Sfs.SameRefs := by
  apply keeps_get.bind
  intro s
  split
  · exact keeps_pure _
  · exact keeps_panic

theorem entries_setVnode (s : Sfs) (ino : ℕ) {f : SfsVnode → SfsVnode} (hf : ∀ v, (f v).entry = v.entry) :
    (s.setVnode ino f).vnodes.map SfsVnode.entry = s.vnodes.map SfsVnode.entry := by
  simp only [Sfs.setVnode, List.map_map]
  apply List.map_congr_left
  intro v _
  simp only [Function.comp_apply]
  split_ifs
  · exact hf v
  · rfl

theorem keeps_setVnode (ino : ℕ) {f : SfsVnode → SfsVnode} (hf : ∀ v, (f v).entry = v.entry) :
    (Op.modify fun s => s.setVnode ino f : SfsM Unit).Keeps Sfs.SameRefs :=
  keeps_modify fun s => ⟨entries_setVnode s ino hf, List.suffix_rfl⟩

theorem keeps_dirtyInode (ino : ℕ) (f : Block → Block) : (dirtyInode ino f).Keeps Sfs.SameRefs :=
  keeps_setVnode ino fun _ => rfl

theorem keeps_bitmapAlloc : bitmapAlloc.Keeps Sfs.SameRefs := by
  intro s
  unfold bitmapAlloc
  rw [wp_bind, wp_get]
  split
  · exact ⟨rfl, List.suffix_rfl⟩
  · exact ⟨rfl, List.suffix_rfl⟩

theorem keeps_bitmapUnmark (index : ℕ) : (bitmapUnmark index).Keeps Sfs.SameRefs := by
  intro s
  unfold bitmapUnmark
  simp only [wp_bind, wp_get, wp_kassert_true, wp_set]
  intro _ _
  exact ⟨rfl, List.suffix_rfl⟩

theorem keeps_freemapdirty : (Op.modify fun s => { s with freemapdirty := true } : SfsM Unit).Keeps Sfs.SameRefs :=
  keeps_modify fun _ => ⟨rfl, List.suffix_rfl⟩

theorem keeps_sfsBalloc : sfsBalloc.Keeps Sfs.SameRefs := by
  apply keeps_bitmapAlloc.bind
  intro diskblock
  apply keeps_freemapdirty.bind
  intro _
  apply keeps_get.bind
  intro s
  apply (keeps_kassert _).bind
  intro _
  apply (keeps_writeblock _ _).attempt.bind
  intro result
  split
  · exact keeps_pure _
  · exact (keeps_bitmapUnmark _).bind fun _ => keeps_fail _

theorem keeps_sfsBfree (diskblock : ℕ) : (sfsBfree diskblock).Keeps Sfs.SameRefs :=
  (keeps_bitmapUnmark diskblock).bind fun _ => keeps_freemapdirty

theorem keeps_sfsBused (diskblock : ℕ) : (sfsBused diskblock).Keeps Sfs.SameRefs := by
  apply keeps_get.bind
  intro s
  exact (keeps_kassert _).bind fun _ => keeps_pure _

theorem keeps_checkMapped (block : ℕ) : (checkMapped block).Keeps Sfs.SameRefs := by
  apply Keeps.ite (keeps_pure _)
  exact (keeps_sfsBused block).bind fun _ => keeps_kassert _

theorem keeps_sfsBmapDirect (ino fileblock : ℕ) (doalloc : Bool) : (sfsBmapDirect ino fileblock doalloc).Keeps Sfs.SameRefs := by
  apply (keeps_getVnode ino).bind
  intro sv
  apply Keeps.ite
  · apply keeps_sfsBalloc.bind
    intro block
    apply (keeps_dirtyInode ino _).bind
    intro _
    exact (keeps_checkMapped block).bind fun _ => keeps_pure _
  · exact (keeps_checkMapped _).bind fun _ => keeps_pure _

theorem keeps_sfsIdblock (ino idblock : ℕ) : (sfsIdblock ino idblock).Keeps Sfs.SameRefs := by
  apply Keeps.ite
  · apply keeps_sfsBalloc.bind
    intro block
    exact (keeps_dirtyInode ino _).bind fun _ => keeps_pure _
  · exact (keeps_readblock _ _).bind fun _ => keeps_pure _

theorem keeps_sfsBmapIndirect (ino idoff : ℕ) (doalloc : Bool) : (sfsBmapIndirect ino idoff doalloc).Keeps Sfs.SameRefs := by
  apply (keeps_getVnode ino).bind
  intro sv
  apply Keeps.ite (keeps_pure _)
  apply (keeps_sfsIdblock ino _).bind
  intro r
  apply Keeps.ite
  · apply keeps_sfsBalloc.bind
    intro block
    apply (keeps_writeblock _ _).bind
    intro _
    exact (keeps_checkMapped block).bind fun _ => keeps_pure _
  · exact (keeps_checkMapped _).bind fun _ => keeps_pure _

theorem keeps_sfsBmap (ino fileblock : ℕ) (doalloc : Bool) : (sfsBmap ino fileblock doalloc).Keeps Sfs.SameRefs := by
  apply Keeps.ite (keeps_sfsBmapDirect ino fileblock doalloc)
  apply Keeps.ite (keeps_fail _)
  exact keeps_sfsBmapIndirect ino _ doalloc

theorem keeps_sfsMetaio (ino actualpos : ℕ) (data : List UInt8) (rw : UioRw) :
    (sfsMetaio ino actualpos data rw).Keeps Sfs.SameRefs := by
  apply (keeps_sfsBmap ino _ _).bind
  intro diskblock
  apply Keeps.ite
  · exact (keeps_kassert _).bind fun _ => keeps_pure _
  · apply (keeps_readblock _ _).bind
    intro metaiobuf
    cases rw with
    | read => exact keeps_pure _
    | write =>
      apply (keeps_writeblock _ _).bind
      intro _
      apply (keeps_getVnode ino).bind
      intro sv
      apply Keeps.ite
      · exact (keeps_dirtyInode ino _).bind fun _ => keeps_pure _
      · exact keeps_pure _

theorem keeps_sfsWritedir (sv slot : ℕ) (sd : List UInt8) : (sfsWritedir sv slot sd).Keeps Sfs.SameRefs :=
  (keeps_sfsMetaio sv _ sd .write).bind fun _ => keeps_pure _

theorem keeps_sfsDirNentries (sv : ℕ) : (sfsDirNentries sv).Keeps Sfs.SameRefs := by
  apply (keeps_getVnode sv).bind
  intro v
  apply (keeps_kassert _).bind
  intro _
  exact (keeps_kassert _).bind fun _ => keeps_pure _

theorem keeps_sfsDirFindname (sv : ℕ) (name : CStr) : (sfsDirFindname sv name).Keeps Sfs.SameRefs := by
  apply (keeps_sfsDirNentries sv).bind
  intro nentries
  apply keeps_foldlM
  intro f i
  apply (keeps_sfsMetaio sv _ _ .read).bind
  intro tsd
  apply Keeps.ite (keeps_pure _)
  apply Keeps.ite
  · exact (keeps_kassert _).bind fun _ => keeps_pure _
  · exact keeps_pure _

theorem keeps_sfsDirLink (sv : ℕ) (name : CStr) (ino : ℕ) : (sfsDirLink sv name ino).Keeps Sfs.SameRefs := by
  apply (keeps_sfsDirFindname sv name).bind
  intro f
  split
  · exact keeps_fail _
  · apply Keeps.ite (keeps_fail _)
    split
    · exact (keeps_sfsWritedir sv _ _).bind fun _ => keeps_pure _
    · apply (keeps_sfsDirNentries sv).bind
      intro slot
      exact (keeps_sfsWritedir sv slot _).bind fun _ => keeps_pure _

theorem keeps_truncEntry (blocklen : ℕ) (t : TruncState) (j : ℕ) : (truncEntry blocklen t j).Keeps Sfs.SameRefs := by
  apply Keeps.ite
  · exact (keeps_sfsBfree _).bind fun _ => keeps_pure _
  · exact keeps_pure _

theorem keeps_truncIndirect (ino idblock blocklen : ℕ) : (truncIndirect ino idblock blocklen).Keeps Sfs.SameRefs := by
  apply (keeps_readblock _ _).bind
  intro idbuf
  apply (keeps_foldlM (keeps_truncEntry blocklen) _ _).bind
  intro t
  apply Keeps.ite
  · exact (keeps_sfsBfree _).bind fun _ => keeps_dirtyInode ino _
  · apply Keeps.ite
    · exact keeps_writeblock _ _
    · exact keeps_pure _

theorem keeps_sfsItrunc (ino : ℕ) (len : ℤ) : (sfsItrunc ino len).Keeps Sfs.SameRefs := by
  have hdirect (i : ℕ) : (truncDirect ino (u32 ((len + 511).tdiv 512)) i).Keeps Sfs.SameRefs := by
    apply (keeps_getVnode ino).bind
    intro sv
    apply Keeps.ite
    · exact (keeps_sfsBfree _).bind fun _ => keeps_dirtyInode ino _
    · exact keeps_pure _
  apply (keeps_foldlM (fun _ => hdirect) _ _).bind
  intro _
  apply (keeps_getVnode ino).bind
  intro sv
  apply Keeps.ite
  · exact (keeps_truncIndirect ino _ _).bind fun _ => keeps_dirtyInode ino _
  · exact keeps_dirtyInode ino _

theorem keeps_sfsSyncInode (ino : ℕ) : (sfsSyncInode ino).Keeps Sfs.SameRefs := by
  apply (keeps_getVnode ino).bind
  intro sv
  apply Keeps.ite
  · exact (keeps_writeblock _ _).bind fun _ => keeps_setVnode ino fun _ => rfl
  · exact keeps_pure _

/-! Without media errors the disk returns none. -/

def Sfs.Quiet (s : Sfs) : Prop := .media ∉ s.dev.outcomes

theorem Sfs.SameRefs.quiet (h : s.SameRefs t) (hs : s.Quiet) : t.Quiet := fun hmem => hs (h.outcomes.subset hmem)

/-- An operation that returns no error at all. -/
theorem sure_of_keeps {x : SfsM α} (hx : x.Keeps Sfs.SameRefs)
    (hno : ∀ s : Sfs, s.Quiet → x.wp True (fun _ _ => True) (fun _ _ => False) s) : x.Sure Sfs.Quiet := by
  intro s hs
  apply ((hx s).and (hno s hs)).mono
  · rintro _ t ⟨ht, -⟩
    exact ht.quiet hs
  · rintro _ t ⟨-, hno⟩
    exact hno

theorem sure_readblock {block : ℕ} (hb : block < 4294967296) (data : Block) :
    (onDev (sfsReadblock block data)).Sure Sfs.Quiet := by
  apply sure_of_keeps (keeps_readblock block data)
  intro s hs
  unfold onDev
  rw [wp_zoom]
  rcases Nat.lt_or_ge block s.dev.dBlocks with hin | hout
  · have hgood : s.dev.outcomes.head? ≠ some .media := fun hm => hs (List.mem_of_mem_head? hm)
    unfold Op.wp
    rw [sfsReadblock_eq hin hgood]
    trivial
  · unfold Op.wp sfsReadblock
    rw [sfsBlock_out hb hout]
    trivial

theorem sure_writeblock {block : ℕ} (hb : block < 4294967296) (data : Block) :
    (onDev (sfsWriteblock block data)).Sure Sfs.Quiet := by
  apply sure_of_keeps (keeps_writeblock block data)
  intro s hs
  unfold onDev
  rw [wp_zoom]
  rcases Nat.lt_or_ge block s.dev.dBlocks with hin | hout
  · unfold Op.wp
    rw [sfsWriteblock_eq hin]
    trivial
  · unfold sfsWriteblock
    rw [wp_bind]
    unfold Op.wp
    rw [sfsBlock_out hb hout]
    trivial

theorem sure_getVnode (ino : ℕ) : (getVnode ino).Sure Sfs.Quiet := by
  apply sure_get.bind
  intro s
  split
  · exact sure_pure _
  · exact sure_panic

theorem sure_sfsBfree (diskblock : ℕ) : (sfsBfree diskblock).Sure Sfs.Quiet := by
  apply sure_of_keeps (keeps_sfsBfree diskblock)
  intro s _
  simp only [sfsBfree, bitmapUnmark, wp_bind, wp_get, wp_kassert_true, wp_set, wp_modify]
  intro _ _
  trivial

theorem sure_dirtyInode (ino : ℕ) (f : Block → Block) : (dirtyInode ino f).Sure Sfs.Quiet :=
  sure_modify fun _ hs => hs

theorem sure_truncIndirect (ino : ℕ) {idblock : ℕ} (hid : idblock < 4294967296) (blocklen : ℕ) :
    (truncIndirect ino idblock blocklen).Sure Sfs.Quiet := by
  have hentry (t : TruncState) (j : ℕ) : (truncEntry blocklen t j).Sure Sfs.Quiet := by
    apply Sure.ite
    · exact (sure_sfsBfree _).bind fun _ => sure_pure _
    · exact sure_pure _
  apply (sure_readblock hid _).bind
  intro idbuf
  apply (sure_foldlM hentry _ _).bind
  intro t
  apply Sure.ite
  · exact (sure_sfsBfree _).bind fun _ => sure_dirtyInode ino _
  · apply Sure.ite
    · exact sure_writeblock hid _
    · exact sure_pure _

theorem sure_sfsItrunc (ino : ℕ) (len : ℤ) : (sfsItrunc ino len).Sure Sfs.Quiet := by
  have hdirect (i : ℕ) : (truncDirect ino (u32 ((len + 511).tdiv 512)) i).Sure Sfs.Quiet := by
    apply (sure_getVnode ino).bind
    intro sv
    apply Sure.ite
    · exact (sure_sfsBfree _).bind fun _ => sure_dirtyInode ino _
    · exact sure_pure _
  apply (sure_foldlM (fun _ => hdirect) _ _).bind
  intro _
  apply (sure_getVnode ino).bind
  intro sv
  apply Sure.ite
  · exact (sure_truncIndirect ino (Bytes.num_lt ..) _).bind fun _ => sure_dirtyInode ino _
  · exact sure_dirtyInode ino _

theorem sure_sfsSyncInode {ino : ℕ} (hino : ino < 4294967296) : (sfsSyncInode ino).Sure Sfs.Quiet := by
  intro s hs
  simp only [sfsSyncInode, getVnode, wp_bind, wp_get]
  cases hv : s.vnode ino with
  | none => trivial
  | some sv =>
    have hsv : sv.ino < 4294967296 := by
      have : sv.ino = ino := by simpa using List.find?_some hv
      rwa [this]
    rw [wp_pure, wp_ite]
    constructor
    · intro _
      have hwrite := (sure_writeblock hsv sv.i).bind
        fun _ => sure_modify (f := fun s => s.setVnode ino fun v => { v with dirty := false }) fun _ hs => hs
      exact hwrite s hs
    · intro _
      exact hs

/-! The counts are those of the table. -/

theorem refs_eq (s : Sfs) (ino : ℕ) : s.refs ino =
    ((s.vnodes.map SfsVnode.entry).find? (fun e => e.1 = ino)).elim 0 fun e => (e.2 : ℤ) := by
  simp only [Sfs.refs, Sfs.vnode, List.find?_map]
  rw [show (fun e : ℕ × ℕ => decide (e.1 = ino)) ∘ SfsVnode.entry = fun v : SfsVnode => decide (v.ino = ino) from rfl]
  cases s.vnodes.find? (fun v => decide (v.ino = ino)) <;> rfl

theorem refs_of_table (h : t.vnodes.map SfsVnode.entry = s.vnodes.map SfsVnode.entry) : t.refs = s.refs := by
  funext ino
  rw [refs_eq, refs_eq, h]

theorem Sfs.SameRefs.refs (h : s.SameRefs t) : t.refs = s.refs := refs_of_table h.table

theorem vnode_setVnode (s : Sfs) (ino i : ℕ) {f : SfsVnode → SfsVnode} (hf : ∀ v, (f v).ino = v.ino) :
    (s.setVnode ino f).vnode i = (s.vnode i).map fun v => if i = ino then f v else v := by
  simp only [Sfs.vnode, Sfs.setVnode, List.find?_map]
  have hino (v : SfsVnode) : (if v.ino = ino then f v else v).ino = v.ino := by
    split_ifs
    · exact hf v
    · rfl
  rw [show (fun v : SfsVnode => decide (v.ino = i)) ∘ (fun v => if v.ino = ino then f v else v) =
    fun v => decide (v.ino = i) from funext fun v => by simp only [Function.comp_apply, hino]]
  cases hfind : s.vnodes.find? (fun v => decide (v.ino = i)) with
  | none => rfl
  | some v =>
    have : v.ino = i := by simpa using List.find?_some hfind
    simp [this]

theorem vnode_incref {v : SfsVnode} {ino : ℕ} (hv : s.vnode ino = some v) :
    (s.setVnode ino fun v => { v with refcount := v.refcount + 1 }).vnode ino =
      some { v with refcount := v.refcount + 1 } := by
  have hvnode := vnode_setVnode s ino ino (f := fun v => { v with refcount := v.refcount + 1 }) fun _ => rfl
  rw [hvnode, hv]
  simp

/-- One more reference to a vnode in the table. -/
theorem refs_incref {v : SfsVnode} {ino : ℕ} (hv : s.vnode ino = some v) :
    (s.setVnode ino fun v => { v with refcount := v.refcount + 1 }).refs = s.refs + oneRef ino := by
  funext i
  have hvnode := vnode_setVnode s ino i (f := fun v => { v with refcount := v.refcount + 1 }) fun _ => rfl
  simp only [Sfs.refs, Pi.add_apply]
  rw [hvnode]
  by_cases hi : i = ino
  · subst hi
    rw [hv]
    simp [oneRef]
  · cases s.vnode i <;> simp [oneRef, hi]

/-- A vnode that is new in the table. -/
theorem refs_append {ino : ℕ} (hnone : s.vnode ino = none)
    (ht : t.vnodes.map SfsVnode.entry = s.vnodes.map SfsVnode.entry ++ [(ino, 1)]) : t.refs = s.refs + oneRef ino := by
  funext i
  have hrefs := refs_eq s ino
  simp only [Sfs.refs, hnone] at hrefs
  rw [Pi.add_apply, refs_eq t, refs_eq s, ht, List.find?_append]
  by_cases hi : i = ino
  · subst hi
    have hfind : (s.vnodes.map SfsVnode.entry).find? (fun e => e.1 = i) = none := by
      have := List.find?_eq_none.mp hnone
      simp only [List.find?_eq_none, List.mem_map, forall_exists_index, and_imp]
      rintro e v hv rfl
      exact this v hv
    simp [hfind, oneRef]
  · cases (s.vnodes.map SfsVnode.entry).find? (fun e => e.1 = i) <;> simp [oneRef, hi, Ne.symm hi]

/-! `sfs_loadvnode` -/

theorem sfsBused_any (block : ℕ) : (sfsBused block).wp True (fun b t => t = s ∧ (b = true → s.inUse block))
    (fun _ _ => False) s := by
  simp only [sfsBused, wp_bind, wp_get, wp_kassert_true, wp_pure]
  intro hlt
  exact ⟨trivial, fun hb => ⟨hlt, hb⟩⟩

theorem sfsSearch_any (ino : ℕ) (l : List SfsVnode) : (sfsSearch ino l).wp True
    (fun found t => t = s ∧ (∀ v ∈ l.takeWhile (fun v => v.ino ≠ ino), s.inUse v.ino) ∧
      (found = true → s.inUse ino) ∧ (found = true ↔ ∃ v ∈ l, v.ino = ino)) (fun _ _ => False) s := by
  induction l with
  | nil => simp [sfsSearch]
  | cons v vs ih =>
    rw [sfsSearch, wp_bind]
    apply (sfsBused_any v.ino).mono
    · rintro used t ⟨rfl, huse⟩
      rw [wp_bind, wp_kassert_true]
      intro hused
      rw [wp_ite]
      constructor
      · rintro rfl
        simp [huse hused]
      · intro hne
        apply ih.mono
        · rintro found t ⟨rfl, htake, hin, hfound⟩
          refine ⟨rfl, ?_, hin, ?_⟩
          · intro w hw
            rw [List.takeWhile_cons_of_pos (by simpa using hne), List.mem_cons] at hw
            rcases hw with rfl | hw
            · exact huse hused
            · exact htake w hw
          · simp [hfound, hne]
        · intro _ _ hno
          exact hno
    · intro _ _ hno
      exact hno

theorem kmallocM_any : kmallocM.wp True (fun _ t => t = { s with kmem := s.kmem.tail } ∧ s.kmem.head? ≠ some false)
    (fun _ t => t = { s with kmem := s.kmem.tail }) s := by
  unfold kmallocM
  rw [wp_bind, wp_get]
  cases hk : s.kmem with
  | nil =>
    refine ⟨?_, by simp⟩
    cases s
    simp_all
  | cons okay rest =>
    rw [wp_bind, wp_set, wp_ite]
    constructor
    · rintro rfl
      exact ⟨rfl, by simp⟩
    · intro _
      rfl

theorem take_two {l : List Bool} (hfirst : l.head? ≠ some false) (hsecond : l.tail.head? ≠ some false) :
    ∀ okay ∈ l.take 2, okay = true := by
  rcases l with _ | ⟨a, _ | ⟨b, l⟩⟩ <;> simp_all

/-- What `sfs_loadvnode` found when it returns. -/
structure Sfs.Loaded (s : Sfs) (ino forcetype : ℕ) (t : Sfs) : Prop where
  passed : ∀ v ∈ s.vnodes.takeWhile (fun v => v.ino ≠ ino), s.inUse v.ino
  inUse : s.inUse ino
  vnode : (∃ v, forcetype = 0 ∧ s.vnode ino = some v ∧ t = s.setVnode ino fun v => { v with refcount := v.refcount + 1 }) ∨
    (s.vnode ino = none ∧ (∀ okay ∈ s.kmem.take 2, okay = true) ∧ ∃ sv, sv.ino = ino ∧ sv.refcount = 1 ∧
      t.vnodes = s.vnodes ++ [sv] ∧ t.dev.outcomes <:+ s.dev.outcomes ∧
      (forcetype = 0 → ino < 4294967296 → ino < s.dev.dBlocks ∧ ¬ List.replicate 11 .media <+: s.dev.outcomes ∧
        sv.i = s.dev.sector ino ∧ (sv.i.sfiType = sfsTypeFile ∨ sv.i.sfiType = sfsTypeDir)))

theorem readblock_any (block : ℕ) (data : Block) :
    (onDev (sfsReadblock block data)).wp True
      (fun b t => t.vnodes = s.vnodes ∧ t.kmem = s.kmem ∧ t.dev.outcomes <:+ s.dev.outcomes ∧
        (block < 4294967296 → block < s.dev.dBlocks ∧ ¬ List.replicate 11 .media <+: s.dev.outcomes ∧ b = s.dev.sector block))
      (fun _ t => s.SameRefs t) s := by
  have hlater := sfsBlock_later .read block data s.dev
  unfold onDev
  rw [wp_zoom]
  by_cases hb : block < 4294967296
  · rcases Nat.lt_or_ge block s.dev.dBlocks with hin | hout
    · obtain ⟨-, os, he⟩ | ⟨hgood, os, he⟩ := sfsReadblock_media hin data
      · unfold Op.wp sfsReadblock at *
        rw [he] at hlater ⊢
        exact ⟨rfl, hlater⟩
      · unfold Op.wp sfsReadblock at *
        rw [he] at hlater ⊢
        exact ⟨rfl, rfl, hlater, fun _ => ⟨hin, hgood, rfl⟩⟩
    · unfold Op.wp sfsReadblock
      rw [sfsBlock_out hb hout]
      trivial
  · apply hlater.mono
    · intro _ d hd
      exact ⟨rfl, rfl, hd, fun h => absurd h hb⟩
    · intro _ d hd
      exact ⟨rfl, hd⟩

theorem vnode_eq_none {ino : ℕ} (h : ¬ ∃ v ∈ s.vnodes, v.ino = ino) : s.vnode ino = none := by
  unfold Sfs.vnode
  rw [List.find?_eq_none]
  simp only [not_exists, not_and] at h
  intro v hv
  simpa using h v hv

theorem vnode_eq_some {ino : ℕ} (h : ∃ v ∈ s.vnodes, v.ino = ino) : ∃ v, s.vnode ino = some v := by
  obtain ⟨v, hv, hvi⟩ := h
  rw [← Option.isSome_iff_exists]
  unfold Sfs.vnode
  rw [List.find?_isSome]
  exact ⟨v, hv, by simpa using hvi⟩

theorem sfsLoadvnode_any (ino forcetype : ℕ) :
    (sfsLoadvnode ino forcetype).wp True (fun _ t => s.Loaded ino forcetype t) (fun _ t => s.SameRefs t) s := by
  simp only [sfsLoadvnode, wp_bind, wp_get]
  apply (sfsSearch_any ino s.vnodes).mono
  · rintro found t ⟨rfl, hpassed, huse, hfound⟩
    rw [wp_ite]
    constructor
    · intro hyes
      simp only [wp_bind, wp_kassert_true, wp_modify]
      intro hforce
      obtain ⟨v, hv⟩ := vnode_eq_some (hfound.mp hyes)
      exact ⟨hpassed, huse hyes, .inl ⟨v, hforce, hv, rfl⟩⟩
    · intro hno
      have hnone : t.vnode ino = none := vnode_eq_none (mt hfound.mpr hno)
      rw [wp_bind]
      apply kmallocM_any.mono
      · rintro _ u ⟨rfl, hfirst⟩
        rw [wp_bind]
        apply (sfsBused_any ino).mono
        · rintro used u ⟨rfl, huse⟩
          rw [wp_bind, wp_kassert_true]
          intro hused
          rw [wp_bind]
          apply (readblock_any ino Bytes.zero).mono
          · rintro i u ⟨hvnodes, hkmem, hos, hread⟩
            simp only [wp_bind, wp_kassert_true]
            intro hforce htype
            apply kmallocM_any.mono
            · rintro _ v ⟨rfl, hsecond⟩
              rw [hkmem] at hsecond
              refine ⟨hpassed, huse hused, .inr ⟨hnone, take_two hfirst hsecond, _, ?_, ?_, congrArg (· ++ _) hvnodes, hos, ?_⟩⟩
              · split_ifs <;> rfl
              · split_ifs <;> rfl
              · rintro rfl hino
                obtain ⟨hin, hgood, hi⟩ := hread hino
                exact ⟨hin, hgood, hi, htype⟩
            · rintro _ v rfl
              exact ⟨congrArg (List.map SfsVnode.entry) hvnodes, hos⟩
          · intro _ u hu
            exact ⟨hu.table, hu.outcomes⟩
        · intro _ _ hno
          exact hno.elim
      · rintro _ u rfl
        exact ⟨rfl, List.suffix_rfl⟩
  · intro _ _ hno
    exact hno.elim

theorem Sfs.Loaded.refs {ino forcetype : ℕ} (h : s.Loaded ino forcetype t) : t.refs = s.refs + oneRef ino := by
  obtain ⟨v, -, hv, rfl⟩ | ⟨hnone, -, sv, rfl, hone, hvnodes, -⟩ := h.vnode
  · exact refs_incref hv
  · apply refs_append hnone
    rw [hvnodes, List.map_append, List.map_singleton, SfsVnode.entry, hone]

theorem adds_sfsLoadvnode (ino forcetype : ℕ) : (sfsLoadvnode ino forcetype).Adds Sfs.refs (fun _ => oneRef ino) 0 := by
  intro s
  apply (sfsLoadvnode_any ino forcetype).mono
  · intro _ t ht
    exact ht.refs
  · intro _ t ht
    rw [ht.refs, add_zero]

theorem handsBack_of_adds {x : SfsM α} {ok : α → ℕ → ℤ} (hx : x.Adds Sfs.refs ok 0) (s : Sfs) : SfsHandsBack x ok s := by
  apply (hx s).mono
  · intro _ t ht
    exact ht
  · intro _ t ht
    rw [ht, add_zero]

theorem adds_of_keeps {x : SfsM α} (hx : x.Keeps Sfs.SameRefs) : x.Adds Sfs.refs 0 0 := by
  intro s
  apply (hx s).mono
  · intro _ t ht
    rw [ht.refs]
    exact (add_zero _).symm
  · intro _ t ht
    rw [ht.refs, add_zero]

theorem adds_getVnode (ino : ℕ) {err : ℕ → ℤ} : (getVnode ino).Adds Sfs.refs 0 err := by
  apply adds_get_bind
  intro s
  cases s.vnode ino with
  | none => trivial
  | some v => exact (add_zero _).symm

/-! The four operations. -/

theorem adds_sfsLookonce (sv : ℕ) (name : CStr) : (sfsLookonce sv name).Adds Sfs.refs (fun r => oneRef r.1) 0 := by
  apply (adds_of_keeps (keeps_sfsDirFindname sv name)).bind
  intro f
  split
  · exact adds_fail (sub_zero _)
  · rename_i ino slot _
    apply ((adds_sfsLoadvnode ino 0).congr (fun _ => rfl) (sub_zero _)).bind
    intro _
    apply (adds_getVnode ino).bind
    intro v
    apply (adds_kassert _).bind
    intro _
    apply adds_pure
    simp

theorem adds_sfsLookup (dir : ℕ) (name : CStr) : (sfsLookup dir name).Adds Sfs.refs oneRef 0 := by
  apply (adds_getVnode dir).bind
  intro v
  apply Adds.ite
  · intro _
    exact adds_fail (sub_zero _)
  · intro _
    apply ((adds_sfsLookonce dir name).congr (fun _ => rfl) (sub_zero _)).bind
    intro r
    apply adds_pure
    simp

theorem adds_sfsLookparent (dir : ℕ) (path : CStr) (buflen : ℕ) :
    (sfsLookparent dir path buflen).Adds Sfs.refs (fun r => oneRef r.1) 0 := by
  intro s
  simp only [sfsLookparent, getVnode, wp_bind, wp_get]
  cases hv : s.vnode dir with
  | none => trivial
  | some v =>
    rw [wp_pure, wp_ite]
    constructor
    · intro _
      exact (add_zero _).symm
    · intro _
      rw [wp_ite]
      constructor
      · intro _
        exact (add_zero _).symm
      · intro _
        exact refs_incref hv

theorem sfsBalloc_lt : sfsBalloc.wp True (fun block _ => block < 4294967296) (fun _ _ => True) s := by
  simp only [sfsBalloc, bitmapAlloc, wp_bind, wp_get]
  split
  case h_1 => trivial
  case h_2 index hfind =>
    have hlt : index < 4294967296 := by
      have := (bitmapFind_some hfind).1
      have hbits : sfsFreemapbits s.nblocks ≤ (s.nblocks + 4095) % 4294967296 := Nat.div_mul_le_self ..
      omega
    simp only [wp_bind, wp_set, wp_pure, wp_modify, wp_kassert_true, wp_attempt]
    intro _
    apply (keeps_writeblock index Bytes.zero).wp
    · intro _ t _
      exact hlt
    · intro e t _
      refine (wp_bind _ _).mpr ?_
      apply (keeps_bitmapUnmark index).wp
      · intro _ _ _
        trivial
      · intro _ _ _
        trivial

/-- A new object has a vnode that was not in the table. -/
theorem sfsMakeobj_any {type : ℕ} (htype : type ≠ 0) : (sfsMakeobj type).wp True
    (fun ino t => ino < 4294967296 ∧ s.vnode ino = none ∧
      t.vnodes.map SfsVnode.entry = s.vnodes.map SfsVnode.entry ++ [(ino, 1)] ∧ t.dev.outcomes <:+ s.dev.outcomes)
    (fun _ t => s.SameRefs t) s := by
  simp only [sfsMakeobj, wp_bind, wp_attempt]
  apply ((keeps_sfsBalloc s).and sfsBalloc_lt).mono
  · rintro ino t ⟨ht, hino⟩
    apply (sfsLoadvnode_any ino type).mono
    · intro _ u hu
      obtain ⟨v, hforce, -⟩ | ⟨hnone, -, sv, rfl, hone, hvnodes, hos, -⟩ := hu.vnode
      · exact absurd hforce htype
      · refine ⟨hino, ?_, ?_, hos.trans ht.outcomes⟩
        · apply vnode_eq_none
          rintro ⟨v, hv, hvi⟩
          have hmem : v.entry ∈ t.vnodes.map SfsVnode.entry := ht.table ▸ List.mem_map_of_mem hv
          obtain ⟨w, hw, hwv⟩ := List.mem_map.mp hmem
          have := List.find?_eq_none.mp hnone w hw
          rw [SfsVnode.entry, SfsVnode.entry, Prod.mk.injEq] at hwv
          simp [hwv.1, hvi] at this
        · rw [hvnodes, List.map_append, List.map_singleton, ht.table, SfsVnode.entry, hone]
    · intro e u hu
      have hsame : s.SameRefs u := trans_of Sfs.SameRefs ht hu
      apply (keeps_sfsBfree ino).wp
      · intro _ v hv
        exact trans_of Sfs.SameRefs hsame hv
      · intro _ v hv
        exact trans_of Sfs.SameRefs hsame hv
  · rintro _ t ⟨ht, -⟩
    exact ht

/-- The last reference to a vnode that is new in the table is dropped without an error
from the disk. -/
theorem vnodeDecref_new {ino : ℕ} {l : List (ℕ × ℕ)} (hino : ino < 4294967296) (hl : ∀ e ∈ l, e.1 ≠ ino)
    (hs : s.Quiet) (htable : s.vnodes.map SfsVnode.entry = l ++ [(ino, 1)]) :
    (vnodeDecref ino).wp True (fun _ t => t.vnodes.map SfsVnode.entry = l) (fun _ _ => False) s := by
  have hfound {t : Sfs} (ht : t.vnodes.map SfsVnode.entry = l ++ [(ino, 1)]) {v : SfsVnode} (hv : t.vnode ino = some v) :
      v.refcount = 1 := by
    have hmem : v.entry ∈ l ++ [(ino, 1)] := ht ▸ List.mem_map_of_mem (List.mem_of_find?_eq_some hv)
    have hvi : v.ino = ino := by simpa using List.find?_some hv
    rw [List.mem_append, List.mem_singleton] at hmem
    rcases hmem with hmem | hmem
    · exact absurd hvi (hl _ hmem)
    · exact (Prod.mk.inj hmem).2
  have herase {t : Sfs} (ht : t.vnodes.map SfsVnode.entry = l ++ [(ino, 1)]) :
      (t.vnodes.eraseP fun v => v.ino = ino).map SfsVnode.entry = l := by
    have hmap : (t.vnodes.map SfsVnode.entry).eraseP (fun e => decide (e.1 = ino)) =
        (t.vnodes.eraseP fun v => decide (v.ino = ino)).map SfsVnode.entry := List.eraseP_map
    rw [ht, List.eraseP_append_right] at hmap
    · rw [← hmap]
      simp
    · intro e he
      simpa using hl e he
  -- the steps before the vnode leaves the table keep the table and return no error
  have hstep {x : SfsM Unit} (hx : x.Keeps Sfs.SameRefs) (hsure : x.Sure Sfs.Quiet) {t : Sfs}
      (ht : t.vnodes.map SfsVnode.entry = l ++ [(ino, 1)] ∧ t.Quiet) :
      x.wp True (fun _ u => u.vnodes.map SfsVnode.entry = l ++ [(ino, 1)] ∧ u.Quiet) (fun _ _ => False) t := by
    apply ((hx t).and (hsure t ht.2)).mono
    · rintro _ u ⟨hu, hq⟩
      exact ⟨hu.table.trans ht.1, hq⟩
    · rintro _ _ ⟨-, hno⟩
      exact hno
  have htail {t : Sfs} (ht : t.vnodes.map SfsVnode.entry = l ++ [(ino, 1)] ∧ t.Quiet) : (do
      sfsSyncInode ino
      let sv ← getVnode ino
      if sv.i.sfiLinkcount = 0 then sfsBfree ino
      Op.modify fun s => { s with vnodes := s.vnodes.eraseP fun v => v.ino = ino } : SfsM Unit).wp True
        (fun _ u => u.vnodes.map SfsVnode.entry = l) (fun _ u => u.vnodes.map SfsVnode.entry = l) t := by
    rw [wp_bind]
    apply (hstep (keeps_sfsSyncInode ino) (sure_sfsSyncInode hino) ht).mono
    · intro _ u hu
      simp only [getVnode, wp_bind, wp_get]
      cases u.vnode ino with
      | none => trivial
      | some sv =>
        rw [wp_pure, wp_ite]
        constructor
        · intro _
          rw [wp_bind]
          apply (hstep (keeps_sfsBfree ino) (sure_sfsBfree ino) hu).mono
          · intro _ v hv
            exact herase hv.1
          · intro _ _ hno
            exact hno.elim
        · intro _
          exact herase hu.1
    · intro _ _ hno
      exact hno.elim
  simp only [vnodeDecref, getVnode, wp_bind, wp_get]
  cases hv : s.vnode ino with
  | none => trivial
  | some v =>
    have hone := hfound htable hv
    rw [wp_pure, wp_kassert_true]
    intro _
    rw [if_neg (by omega), wp_bind, wp_attempt]
    simp only [sfsReclaim, getVnode, wp_bind, wp_get, hv, wp_pure]
    rw [if_neg (by omega), wp_ite]
    constructor
    · intro _
      rw [wp_bind]
      apply (hstep (keeps_sfsItrunc ino 0) (sure_sfsItrunc ino 0) ⟨htable, hs⟩).mono
      · intro _ u hu
        exact htail hu
      · intro _ _ hno
        exact hno.elim
    · intro _
      exact htail ⟨htable, hs⟩

theorem sfsCreat_handsBack (hs : s.Quiet) (dir : ℕ) (name : CStr) (excl : Bool) :
    SfsHandsBack (sfsCreat dir name excl) oneRef s := by
  unfold SfsHandsBack sfsCreat
  rw [wp_bind]
  apply (keeps_sfsDirFindname dir name).wp
  · intro f t ht
    split
    · rw [wp_ite]
      constructor
      · intro _
        exact ht.refs
      · intro _
        rw [wp_bind]
        apply (adds_sfsLoadvnode _ 0 t).mono
        · intro _ u hu
          exact hu.trans (congrArg (· + _) ht.refs)
        · intro _ u hu
          exact (hu.trans (add_zero _)).trans ht.refs
    · rw [wp_bind]
      apply (sfsMakeobj_any (by decide)).mono
      · rintro newguy u ⟨hlt, hnone, htable, hos⟩
        have hrefs : u.refs = s.refs + oneRef newguy := (refs_append hnone htable).trans (congrArg (· + _) ht.refs)
        rw [wp_bind, wp_attempt]
        apply (keeps_sfsDirLink dir name newguy).wp
        · intro _ v hv
          have hlink (w : Sfs) (hw : v.SameRefs w) : w.refs = s.refs + oneRef newguy :=
            (hw.refs.trans hv.refs).trans hrefs
          exact hlink _ ⟨entries_setVnode v newguy fun _ => rfl, List.suffix_rfl⟩
        · intro e v hv
          refine (wp_bind _ _).mpr ?_
          have hquiet : v.Quiet := hv.quiet fun hm => ht.quiet hs (hos.subset hm)
          apply (vnodeDecref_new hlt _ hquiet (hv.table.trans htable)).mono
          · intro _ w hw
            exact (refs_of_table hw).trans ht.refs
          · intro _ _ hno
            exact hno.elim
          · intro e he hei
            obtain ⟨w, hw, rfl⟩ := List.mem_map.mp he
            have := List.find?_eq_none.mp hnone w hw
            simp [SfsVnode.entry] at hei
            simp [hei] at this
      · intro _ u hu
        exact hu.refs.trans ht.refs
  · intro _ t ht
    exact ht.refs

/-! `sfs_getroot` returns `EINVAL` with the vnode that it has loaded. -/

theorem sfsBused_inUse {block : ℕ} (h : s.inUse block) :
    (sfsBused block).wp False (fun b t => t = s ∧ b = true) (fun _ _ => False) s := by
  simp only [sfsBused, wp_bind, wp_get, wp_kassert, wp_pure]
  exact ⟨h.1, trivial, h.2⟩

theorem sfsSearch_inUse {ino : ℕ} (hino : s.inUse ino) {l : List SfsVnode}
    (hl : ∀ v ∈ l.takeWhile (fun v => v.ino ≠ ino), s.inUse v.ino) :
    (sfsSearch ino l).wp False (fun found t => t = s ∧ (found = true ↔ ∃ v ∈ l, v.ino = ino)) (fun _ _ => False) s := by
  induction l with
  | nil => simp [sfsSearch]
  | cons v vs ih =>
    have hv : s.inUse v.ino := by
      by_cases hvi : v.ino = ino
      · rwa [hvi]
      · apply hl
        rw [List.takeWhile_cons_of_pos (by simpa using hvi)]
        exact List.mem_cons_self
    rw [sfsSearch, wp_bind]
    apply (sfsBused_inUse hv).mono
    · rintro used t ⟨rfl, rfl⟩
      rw [wp_bind, wp_kassert, wp_ite]
      refine ⟨rfl, ?_, ?_⟩
      · rintro rfl
        simp
      · intro hne
        apply (ih ?_).mono
        · rintro found t ⟨rfl, hfound⟩
          exact ⟨rfl, by simp [hfound, hne]⟩
        · intro _ _ hno
          exact hno
        · intro w hw
          apply hl
          rw [List.takeWhile_cons_of_pos (by simpa using hne)]
          exact List.mem_cons_of_mem v hw
    · intro _ _ hno
      exact hno

theorem kmallocM_okay (h : s.kmem.head? ≠ some false) :
    kmallocM.wp False (fun _ t => t = { s with kmem := s.kmem.tail }) (fun _ _ => False) s := by
  unfold kmallocM
  rw [wp_bind, wp_get]
  cases hk : s.kmem with
  | nil =>
    cases s
    simp_all
  | cons okay rest =>
    rw [hk] at h
    have hokay : okay = true := by simpa using h
    rw [wp_bind, wp_set, if_pos hokay]
    rfl

theorem readblock_good {block : ℕ} (hin : block < s.dev.dBlocks) (hgood : ¬ List.replicate 11 .media <+: s.dev.outcomes)
    (data : Block) : (onDev (sfsReadblock block data)).wp False
      (fun b t => ∃ os, t = { s with dev := { s.dev with outcomes := os } } ∧ b = s.dev.sector block) (fun _ _ => False) s := by
  obtain ⟨hbad, -⟩ | ⟨-, os, hread⟩ := sfsReadblock_media hin data
  · exact absurd hbad hgood
  · rw [onDev, wp_zoom]
    unfold Op.wp
    rw [hread]
    exact ⟨os, rfl, rfl⟩

variable {ino : ℕ}

theorem sfsLoadvnode_notDir (h : s.NotDir ino) : (sfsLoadvnode ino 0).wp False
    (fun _ t => t.refs = s.refs + oneRef ino ∧ ∃ sv, t.vnode ino = some sv ∧ sv.i.sfiType ≠ sfsTypeDir)
    (fun _ _ => False) s := by
  obtain ⟨hpassed, huse, hroot⟩ := h
  simp only [sfsLoadvnode, wp_bind, wp_get]
  apply (sfsSearch_inUse huse hpassed).mono
  · rintro found t ⟨rfl, hfound⟩
    cases hv : t.vnode ino with
    | some sv =>
      rw [hv] at hroot
      have hyes : found = true := by
        apply hfound.mpr
        exact ⟨sv, List.mem_of_find?_eq_some hv, by simpa using List.find?_some hv⟩
      rw [if_pos hyes]
      simp only [wp_bind, wp_kassert, wp_modify]
      exact ⟨trivial, refs_incref hv, _, vnode_incref hv, hroot⟩
    | none =>
      rw [hv] at hroot
      obtain ⟨hkmem, hin, hgood, htype⟩ := hroot
      have hno : ¬ found = true := by
        rw [hfound]
        rintro ⟨v, hmem, hvi⟩
        have := List.find?_eq_none.mp hv v hmem
        simp [hvi] at this
      have hfirst : t.kmem.head? ≠ some false := by
        rcases hk : t.kmem with _ | ⟨a, l⟩ <;> simp_all
      have hsecond : t.kmem.tail.head? ≠ some false := by
        rcases hk : t.kmem with _ | ⟨a, _ | ⟨b, l⟩⟩ <;> simp_all
      rw [if_neg hno, wp_bind]
      apply (kmallocM_okay hfirst).mono
      · rintro _ u rfl
        rw [wp_bind]
        apply (sfsBused_inUse (s := { t with kmem := t.kmem.tail }) huse).mono
        · rintro used u ⟨rfl, rfl⟩
          rw [wp_bind, wp_kassert]
          refine ⟨rfl, ?_⟩
          rw [wp_bind]
          apply (readblock_good (s := { t with kmem := t.kmem.tail }) hin hgood Bytes.zero).mono
          · rintro i u ⟨os, rfl, rfl⟩
            simp only [wp_bind, wp_kassert]
            refine ⟨.inl trivial, .inl htype, ?_⟩
            apply (kmallocM_okay hsecond).mono
            · rintro _ v rfl
              refine ⟨refs_append hv List.map_append, ⟨ino, t.dev.sector ino, false, 1⟩, ?_, ?_⟩
              · unfold Sfs.vnode at hv ⊢
                refine (List.find?_append).trans ?_
                rw [hv]
                simp
              · simp only [htype]
                decide
            · intro _ _ hno
              exact hno
          · intro _ _ hno
            exact hno
        · intro _ _ hno
          exact hno
      · intro _ _ hno
        exact hno
  · intro _ _ hno
    exact hno

/-- A vnode that is loaded and not a directory is one that was to be had. -/
theorem Sfs.Loaded.notDir {sv : SfsVnode} (h : s.Loaded ino 0 t) (hino : ino < 4294967296) (hsv : t.vnode ino = some sv)
    (htype : sv.i.sfiType ≠ sfsTypeDir) : s.NotDir ino := by
  refine ⟨h.passed, h.inUse, ?_⟩
  obtain ⟨v, -, hv, rfl⟩ | ⟨hnone, hkmem, new, hnew, -, hvnodes, -, hdisk⟩ := h.vnode
  · rw [vnode_incref hv] at hsv
    obtain rfl := Option.some_inj.mp hsv
    rw [hv]
    exact htype
  · obtain ⟨hin, hgood, hi, htypes⟩ := hdisk rfl hino
    have hfind : t.vnode ino = some new := by
      unfold Sfs.vnode at hnone ⊢
      rw [hvnodes, List.find?_append, hnone]
      simp [hnew]
    rw [hfind] at hsv
    obtain rfl := Option.some_inj.mp hsv
    rw [hnone]
    refine ⟨hkmem, hin, hgood, ?_⟩
    rw [← hi]
    exact htypes.resolve_right htype

theorem oneRef_ne_zero (v : ℕ) : oneRef v ≠ 0 := by
  intro h
  have := congrFun h v
  simp [oneRef] at this

/-- `sfs_getroot`, for any inode number in the place of the root's. -/
def loadDir (ino : ℕ) : SfsM Unit := do
  sfsLoadvnode ino 0
  let sv ← getVnode ino
  if sv.i.sfiType = sfsTypeDir then pure () else Op.fail .einval

theorem loadDir_notDir (h : s.NotDir ino) :
    (loadDir ino).wp False (fun _ _ => False) (fun e t => e = .einval ∧ t.refs = s.refs + oneRef ino) s := by
  rw [loadDir, wp_bind]
  apply (sfsLoadvnode_notDir h).mono
  · rintro _ t ⟨ht, sv, hsv, htype⟩
    simp only [getVnode, wp_bind, wp_get, hsv, wp_pure, if_neg htype, wp_fail]
    exact ⟨trivial, ht⟩
  · intro _ _ hno
    exact hno.elim

theorem loadDir_handsBack (hino : ino < 4294967296) :
    SfsHandsBack (loadDir ino) (fun _ => oneRef ino) s ↔ ¬ s.NotDir ino := by
  unfold SfsHandsBack
  constructor
  · intro h hnot
    obtain ⟨_, _, -, hno⟩ | ⟨e, t, hload, -, ht⟩ | ⟨-, hno⟩ := (loadDir_notDir hnot).cases
    · exact hno
    · rw [wp_of_err hload, ht] at h
      exact oneRef_ne_zero ino (add_eq_left.mp h)
    · exact hno
  · intro hnot
    rw [loadDir, wp_bind]
    apply (sfsLoadvnode_any ino 0).mono
    · intro _ t ht
      simp only [getVnode, wp_bind, wp_get]
      cases hsv : t.vnode ino with
      | none => trivial
      | some sv =>
        rw [wp_pure, wp_ite]
        constructor
        · intro _
          exact ht.refs
        · intro htype
          exact absurd (ht.notDir hino hsv htype) hnot
    · intro _ t ht
      exact ht.refs

/-- A file system with one vnode and no names. -/
def oneVnode : FsOps Unit where
  vnFs _ := some 0
  getvolname _ := none
  getroot _ := do
    Op.modify fun s => { s with refcount := Function.update s.refcount 0 (s.refcount 0 + 1) }
    pure 0
  sync _ := pure ()
  unmount _ := pure ()
  reclaim v := Op.modify fun s => { s with refcount := Function.update s.refcount v 0 }
  eachopen _ _ := pure ()
  gettype _ := pure 0
  truncate _ _ := Op.fail .eisdir
  namefile _ := Op.fail .enosys
  creat _ _ _ _ := Op.fail .enosys
  symlink _ _ _ := Op.fail .enosys
  readlink _ := Op.fail .enosys
  mkdir _ _ _ := Op.fail .enosys
  link _ _ _ := Op.fail .enosys
  remove _ _ := Op.fail .enosys
  rmdir _ _ := Op.fail .enosys
  rename _ _ _ _ := Op.fail .enosys
  lookup _ _ := Op.fail .enoent
  lookparent _ _ _ := Op.fail .enoent
  uiomove _ := pure ()

theorem oneVnode_handsBack : oneVnode.HandsBack where
  getroot _ s := by
    funext v
    by_cases hv : v = 0
    · subst hv
      simp [FsState.refs, oneRef]
    · simp [FsState.refs, oneRef, hv]
  lookup _ _ := adds_fail rfl
  lookparent _ _ _ := adds_fail rfl
  creat _ _ _ _ := adds_fail rfl
  gettype _ := adds_pure rfl
  eachopen _ _ := adds_pure rfl
  truncate _ _ := adds_fail rfl
  link _ _ _ := adds_fail rfl
  remove _ _ := adds_fail rfl
  rename _ _ _ _ := adds_fail rfl
  reclaim v s hs := by
    funext w
    by_cases hw : w = v
    · subst hw
      simp [FsState.refs, oneRef, hs]
    · simp [FsState.refs, oneRef, hw]

/-- A volume whose inode 1 is a regular file. -/
def rootIsFile : Sfs where
  nblocks := 16
  freemap _ := true
  freemapdirty := false
  vnodes := []
  dev := ⟨16, Lhd.word_sixteen, fun _ => Bytes.zero.setSfiType sfsTypeFile, []⟩
  kmem := []

theorem rootIsFile_notDir : rootIsFile.NotDir 1 :=
  ⟨fun _ hv => absurd hv List.not_mem_nil, ⟨by decide, rfl⟩, fun _ hokay => absurd hokay List.not_mem_nil, by decide,
    by decide, by decide⟩

end Os161
