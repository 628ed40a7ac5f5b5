import Os161.Proofs.Mounted
import Os161.Spec.SyncErrors

/-! Each block that `sfs_sync` has to write is written once, and a write that fails is
lost without an error. So `sfs_sync` always returns 0, and the disk has the volume
afterwards exactly if no write was lost that would have changed something. -/

namespace Os161

open Op

/-! ### Writes in turn -/

/-- `sfs_writeblock` as a step of the disk. -/
def Lhd.put (d : Lhd) (w : ℕ × Block) : Lhd :=
  if d.outcomes.head? = some .media then { d with outcomes := d.outcomes.tail }
  else { d with sector := Function.update d.sector w.1 w.2, outcomes := d.outcomes.tail }

namespace Lhd

variable {d : Lhd} {b : ℕ} {w : ℕ × Block} {l : List (ℕ × Block)}

@[simp] theorem put_outcomes : (d.put w).outcomes = d.outcomes.tail := by
  unfold put
  split_ifs <;> rfl

@[simp] theorem put_dBlocks : (d.put w).dBlocks = d.dBlocks := by
  unfold put
  split_ifs <;> rfl

theorem put_sector_of_ne (h : b ≠ w.1) : (d.put w).sector b = d.sector b := by
  unfold put
  split_ifs
  · rfl
  · exact Function.update_of_ne h ..

theorem put_sector_self : (d.put w).sector w.1 = w.2 ↔ (d.outcomes.head? = some .media → d.sector w.1 = w.2) := by
  unfold put
  split_ifs with hmedia
  · simp [hmedia]
  · simp [hmedia]

@[simp] theorem puts_dBlocks : (l.foldl put d).dBlocks = d.dBlocks := by
  induction l generalizing d with
  | nil => rfl
  | cons w l ih =>
    rw [List.foldl_cons, ih, put_dBlocks]

theorem puts_sector_of_notMem (h : b ∉ l.map Prod.fst) : (l.foldl put d).sector b = d.sector b := by
  induction l generalizing d with
  | nil => rfl
  | cons w l ih =>
    rw [List.map_cons, List.mem_cons, not_or] at h
    rw [List.foldl_cons, ih h.2, put_sector_of_ne h.1]

/-- All of them are on the disk afterwards, if no two are for the same block. -/
theorem puts_stored_iff (h : (l.map Prod.fst).Nodup) :
    (∀ w ∈ l, (l.foldl put d).sector w.1 = w.2) ↔
      ∀ (m : ℕ) (w : ℕ × Block), l[m]? = some w → d.outcomes[m]? = some .media → d.sector w.1 = w.2 := by
  induction l generalizing d with
  | nil => simp
  | cons w l ih =>
    rw [List.map_cons, List.nodup_cons] at h
    have hrest := ih (d := d.put w) h.2
    have hother (v : ℕ × Block) (hv : v ∈ l) : v.1 ≠ w.1 := by
      rintro heq
      exact h.1 (heq ▸ List.mem_map_of_mem hv)
    rw [List.foldl_cons, List.forall_mem_cons, puts_sector_of_notMem h.1, put_sector_self, hrest]
    simp only [put_outcomes]
    constructor
    · rintro ⟨hfirst, hlater⟩ m v hm hmedia
      cases m with
      | zero =>
        obtain rfl := Option.some_inj.mp hm
        exact hfirst (by rwa [List.head?_eq_getElem?])
      | succ m =>
        rw [List.getElem?_cons_succ] at hm
        have hv := hlater m v hm (by rwa [List.getElem?_tail])
        rwa [put_sector_of_ne (hother v (List.mem_of_getElem? hm))] at hv
    · intro hall
      refine ⟨fun hmedia => hall 0 w rfl (by rwa [← List.head?_eq_getElem?]), ?_⟩
      intro m v hm hmedia
      rw [put_sector_of_ne (hother v (List.mem_of_getElem? hm))]
      exact hall (m + 1) v (by rwa [List.getElem?_cons_succ]) (by rwa [List.getElem?_tail] at hmedia)

end Lhd

variable {s t : Sfs} {c : Prop}

theorem writeblock_put {b : ℕ} {x : Block} {Q : Unit → Sfs → Prop} {E : Errno → Sfs → Prop} (hb : b < s.dev.dBlocks) :
    (onDev (sfsWriteblock b x)).wp c Q E s ↔ Q () { s with dev := s.dev.put (b, x) } := by
  rw [onDev, wp_zoom]
  unfold Op.wp
  rw [sfsWriteblock_eq hb]
  rfl

/-! ### The vnodes -/

def SfsVnode.cleaned (v : SfsVnode) : SfsVnode := { v with dirty := false }

/-- The writes for a list of vnodes. -/
def inodeWrites (l : List SfsVnode) : List (ℕ × Block) := (l.filter SfsVnode.dirty).map fun v => (v.ino, v.i)

/-- The state when the vnodes `done`, which come before `rest`, are synced. -/
def Sfs.afterVnodes (s : Sfs) (done rest : List SfsVnode) : Sfs :=
  { s with vnodes := done.map SfsVnode.cleaned ++ rest, dev := (inodeWrites done).foldl Lhd.put s.dev }

theorem find_between {done rest : List SfsVnode} {v : SfsVnode} (hnodup : ((done ++ v :: rest).map SfsVnode.ino).Nodup) :
    (done.map SfsVnode.cleaned ++ v :: rest).find? (fun w => w.ino = v.ino) = some v := by
  rw [List.map_append, List.map_cons, List.nodup_append] at hnodup
  have hnone : (done.map SfsVnode.cleaned).find? (fun w => decide (w.ino = v.ino)) = none := by
    rw [List.find?_eq_none]
    intro w hw
    obtain ⟨w', hw', rfl⟩ := List.mem_map.mp hw
    have hne : w'.ino ≠ v.ino := hnodup.2.2 w'.ino (List.mem_map_of_mem hw') v.ino List.mem_cons_self
    simp [SfsVnode.cleaned, hne]
  rw [List.find?_append, hnone]
  simp

theorem clean_between {done rest : List SfsVnode} {v : SfsVnode} (hnodup : ((done ++ v :: rest).map SfsVnode.ino).Nodup) :
    (done.map SfsVnode.cleaned ++ v :: rest).map (fun w => if w.ino = v.ino then w.cleaned else w) =
      (done ++ [v]).map SfsVnode.cleaned ++ rest := by
  rw [List.map_append, List.map_cons, List.nodup_append, List.nodup_cons] at hnodup
  have hrest : rest.map (fun w => if w.ino = v.ino then w.cleaned else w) = rest := by
    rw [List.map_congr_left, List.map_id]
    intro w hw
    have hne : w.ino ≠ v.ino := fun heq => hnodup.2.1.1 (heq ▸ List.mem_map_of_mem hw)
    rw [if_neg hne, id]
  have hdone : (done.map SfsVnode.cleaned).map (fun w => if w.ino = v.ino then w.cleaned else w) = done.map SfsVnode.cleaned := by
    rw [List.map_map]
    apply List.map_congr_left
    intro w _
    simp only [Function.comp_apply]
    split_ifs <;> rfl
  rw [List.map_append, hdone, List.map_cons, hrest, if_pos rfl, List.map_append, List.map_singleton, List.append_assoc,
    List.singleton_append]

theorem inodeWrites_append (done : List SfsVnode) (v : SfsVnode) : inodeWrites (done ++ [v]) =
    if v.dirty = true then inodeWrites done ++ [(v.ino, v.i)] else inodeWrites done := by
  unfold inodeWrites
  rw [List.filter_append]
  split_ifs with hd
  · simp [hd]
  · simp [hd]

theorem Sfs.afterVnodes_dirty {done rest : List SfsVnode} {v : SfsVnode} (hnodup : ((done ++ v :: rest).map SfsVnode.ino).Nodup)
    (hd : v.dirty = true) : s.afterVnodes (done ++ [v]) rest =
      ({ s.afterVnodes done (v :: rest) with dev := (s.afterVnodes done (v :: rest)).dev.put (v.ino, v.i) }).setVnode v.ino
        fun w => { w with dirty := false } := by
  unfold Sfs.afterVnodes Sfs.setVnode
  rw [inodeWrites_append, if_pos hd, List.foldl_append, ← clean_between hnodup]
  rfl

theorem Sfs.afterVnodes_clean {done rest : List SfsVnode} {v : SfsVnode} (hd : v.dirty = false) :
    s.afterVnodes (done ++ [v]) rest = s.afterVnodes done (v :: rest) := by
  have hsame : v.cleaned = v := by
    cases v
    simp_all [SfsVnode.cleaned]
  unfold Sfs.afterVnodes
  rw [inodeWrites_append, if_neg (by simp [hd]), List.map_append, List.map_singleton, hsame, List.append_assoc,
    List.singleton_append]

theorem sfsSyncInode_put {done rest : List SfsVnode} {v : SfsVnode} {Q : Unit → Sfs → Prop} {E : Errno → Sfs → Prop}
    (hv : s.vnodes = done ++ v :: rest) (hs : s.InPlace) (hQ : Q () (s.afterVnodes (done ++ [v]) rest)) :
    (sfsSyncInode v.ino).wp c Q E (s.afterVnodes done (v :: rest)) := by
  have hnodup := hs.nodup
  rw [hv] at hnodup
  have hfind : (s.afterVnodes done (v :: rest)).vnode v.ino = some v := find_between hnodup
  have hplace := hs.place v (by rw [hv]; exact List.mem_append_right _ List.mem_cons_self)
  have hdisk := hs.disk
  unfold sfsSyncInode getVnode
  simp only [wp_bind, wp_get, hfind, wp_pure]
  rw [wp_ite]
  constructor
  · intro hd
    rw [wp_bind, writeblock_put (by simp only [Sfs.afterVnodes, Lhd.puts_dBlocks]; omega), wp_modify,
      ← Sfs.afterVnodes_dirty hnodup hd]
    exact hQ
  · intro hd
    rw [Sfs.afterVnodes_clean (by simpa using hd)] at hQ
    exact hQ

theorem sfsSyncVnodes_put {Q : Unit → Sfs → Prop} {E : Errno → Sfs → Prop} (hs : s.InPlace)
    (hQ : Q () (s.afterVnodes s.vnodes [])) : sfsSyncVnodes.wp c Q E s := by
  unfold sfsSyncVnodes
  rw [wp_bind, wp_get]
  apply wp_foldlM (fun rest (_ : Unit) t => ∃ done, s.vnodes = done ++ rest ∧ t = s.afterVnodes done rest)
  · rintro v rest _ t ⟨done, hdone, rfl⟩
    rw [wp_bind, wp_attempt]
    apply sfsSyncInode_put hdone hs
    exact ⟨done ++ [v], by rw [hdone, List.append_assoc, List.singleton_append], rfl⟩
  · rintro _ t ⟨done, hdone, rfl⟩
    rw [List.append_nil] at hdone
    rw [hdone] at hQ
    exact hQ
  · exact ⟨[], rfl, rfl⟩

/-! ### The freemap and the superblock -/

theorem writes_put {l : List (ℕ × Block)} (hl : ∀ w ∈ l, w.1 < s.dev.dBlocks) {Q : Unit → Sfs → Prop}
    {E : Errno → Sfs → Prop} : (l.foldlM (fun _ w => onDev (sfsWriteblock w.1 w.2)) ()).wp c Q E s ↔
      Q () { s with dev := l.foldl Lhd.put s.dev } := by
  induction l generalizing s with
  | nil => rfl
  | cons w l ih =>
    rw [List.forall_mem_cons] at hl
    rw [List.foldlM_cons, wp_bind, writeblock_put hl.1, ih (by simpa using hl.2)]
    rfl

def Sfs.freemapWrites (s : Sfs) : List (ℕ × Block) :=
  if s.freemapdirty = true then (List.range (sfsFreemapblocks s.nblocks)).map fun j => (2 + j, s.freemapBlock j) else []

theorem Sfs.pending_eq (s : Sfs) : s.pending = inodeWrites s.vnodes ++ s.freemapWrites := rfl

theorem mem_freemapWrites {w : ℕ × Block} : w ∈ s.freemapWrites ↔
    s.freemapdirty = true ∧ ∃ j < sfsFreemapblocks s.nblocks, w = (2 + j, s.freemapBlock j) := by
  unfold Sfs.freemapWrites
  split_ifs with hd
  · simp [hd, eq_comm]
  · simp [hd]

theorem mem_inodeWrites {l : List SfsVnode} {w : ℕ × Block} : w ∈ inodeWrites l ↔
    ∃ v ∈ l, v.dirty = true ∧ w = (v.ino, v.i) := by
  unfold inodeWrites
  rw [List.mem_map]
  constructor
  · rintro ⟨v, hv, rfl⟩
    rw [List.mem_filter] at hv
    exact ⟨v, hv.1, hv.2, rfl⟩
  · rintro ⟨v, hv, hd, rfl⟩
    exact ⟨v, List.mem_filter.mpr ⟨hv, hd⟩, rfl⟩

theorem sfsSyncFreemap_put {Q : Unit → Sfs → Prop} {E : Errno → Sfs → Prop} (hroom : 2 + sfsFreemapblocks s.nblocks ≤ s.dev.dBlocks)
    (hQ : Q () { s with freemapdirty := false, dev := s.freemapWrites.foldl Lhd.put s.dev }) :
    sfsSyncFreemap.wp c Q E s := by
  unfold sfsSyncFreemap
  rw [wp_bind, wp_get, wp_ite]
  constructor
  · intro hd
    have hwrites : s.freemapWrites = (List.range (sfsFreemapblocks s.nblocks)).map fun j => (2 + j, s.freemapBlock j) := if_pos hd
    rw [wp_bind, sfsFreemapioWrite, wp_bind, wp_get]
    have hfold := writes_put (c := c) (E := E) (Q := fun _ t => Q () { t with freemapdirty := false })
      (l := s.freemapWrites) (s := s) (by
        intro w hw
        obtain ⟨-, j, hj, rfl⟩ := mem_freemapWrites.mp hw
        simp only
        omega)
    rw [hwrites, List.foldlM_map] at hfold
    rw [hwrites] at hQ
    exact hfold.mpr hQ
  · intro hd
    have hclean : s.freemapdirty = false := by simpa using hd
    have hwrites : s.freemapWrites = [] := if_neg hd
    rw [hwrites, ← hclean] at hQ
    exact hQ

/-- The superblock is written last. -/
def SfsSuper.superWrites (s : SfsSuper) : List (ℕ × Block) := if s.superdirty = true then [(0, s.sb)] else []

theorem sfsSyncSuperblock_put {s : SfsSuper} {Q : Unit → SfsSuper → Prop} {E : Errno → SfsSuper → Prop} (hdisk : 0 < s.fs.dev.dBlocks)
    (hQ : Q () ⟨{ s.fs with dev := s.superWrites.foldl Lhd.put s.fs.dev }, s.sb, false⟩) : sfsSyncSuperblock.wp c Q E s := by
  unfold sfsSyncSuperblock
  rw [wp_bind, wp_get, wp_ite]
  constructor
  · intro hd
    have hwrites : s.superWrites = [(0, s.sb)] := if_pos hd
    rw [hwrites] at hQ
    rw [wp_bind, onVolume, wp_zoom, writeblock_put hdisk]
    exact hQ
  · intro hd
    have hclean : s.superdirty = false := by simpa using hd
    have hwrites : s.superWrites = [] := if_neg hd
    rw [hwrites, ← hclean] at hQ
    exact hQ

/-- The state when `sfs_sync` returns, and it always does. -/
def SfsSuper.synced (s : SfsSuper) : SfsSuper where
  fs := { s.fs with
    vnodes := s.fs.vnodes.map SfsVnode.cleaned
    freemapdirty := false
    dev := s.superWrites.foldl Lhd.put (s.fs.pending.foldl Lhd.put s.fs.dev) }
  sb := s.sb
  superdirty := false

theorem sfsSyncAll_put {s : SfsSuper} {Q : Unit → SfsSuper → Prop} {E : Errno → SfsSuper → Prop} (hs : s.fs.InPlace)
    (hQ : Q () s.synced) : sfsSyncAll.wp c Q E s := by
  have hroom := hs.room
  have hdisk := hs.disk
  unfold sfsSyncAll onVolume
  rw [wp_bind, wp_zoom]
  apply sfsSyncVnodes_put hs
  rw [wp_bind, wp_zoom]
  apply sfsSyncFreemap_put (by simp only [Sfs.afterVnodes, Lhd.puts_dBlocks]; omega)
  apply sfsSyncSuperblock_put (by simp only [Sfs.afterVnodes, Lhd.puts_dBlocks]; omega)
  unfold SfsSuper.synced at hQ
  rw [Sfs.pending_eq, List.foldl_append, ← List.append_nil (s.fs.vnodes.map SfsVnode.cleaned)] at hQ
  exact hQ

/-! ### What is on the disk -/

theorem Sfs.InPlace.pending_nodup (h : s.InPlace) : (s.pending.map Prod.fst).Nodup := by
  rw [Sfs.pending_eq, List.map_append, List.nodup_append]
  refine ⟨?_, ?_, ?_⟩
  · have hsub : (inodeWrites s.vnodes).map Prod.fst = (s.vnodes.filter SfsVnode.dirty).map SfsVnode.ino := by
      rw [inodeWrites, List.map_map]
      rfl
    rw [hsub]
    exact h.nodup.sublist (List.filter_sublist.map _)
  · unfold Sfs.freemapWrites
    split_ifs
    · rw [List.map_map]
      apply List.nodup_range.map
      intro a b hab
      simpa using hab
    · exact List.nodup_nil
  · intro a ha b hb
    obtain ⟨w, hw, rfl⟩ := List.mem_map.mp ha
    obtain ⟨w', hw', rfl⟩ := List.mem_map.mp hb
    obtain ⟨v, hv, -, rfl⟩ := mem_inodeWrites.mp hw
    obtain ⟨-, j, hj, rfl⟩ := mem_freemapWrites.mp hw'
    have hplace := h.place v hv
    simp only
    omega

/-- No block is written that has nothing to write. -/
theorem Sfs.InPlace.notMem_of_clean {v : SfsVnode} (h : s.InPlace) (hv : v ∈ s.vnodes) (hd : v.dirty = false) :
    v.ino ∉ s.pending.map Prod.fst := by
  intro hmem
  obtain ⟨w, hw, heq⟩ := List.mem_map.mp hmem
  rw [Sfs.pending_eq, List.mem_append] at hw
  rcases hw with hw | hw
  · obtain ⟨v', hv', hd', rfl⟩ := mem_inodeWrites.mp hw
    have hsame := List.inj_on_of_nodup_map h.nodup hv' hv heq
    rw [hsame, hd] at hd'
    exact Bool.noConfusion hd'
  · obtain ⟨-, j, hj, rfl⟩ := mem_freemapWrites.mp hw
    have hplace := h.place v hv
    simp only at heq
    omega

theorem Sfs.InPlace.notMem_freemap (h : s.InPlace) (hd : s.freemapdirty = false) {j : ℕ} (hj : j < sfsFreemapblocks s.nblocks) :
    2 + j ∉ s.pending.map Prod.fst := by
  intro hmem
  obtain ⟨w, hw, heq⟩ := List.mem_map.mp hmem
  rw [Sfs.pending_eq, List.mem_append] at hw
  rcases hw with hw | hw
  · obtain ⟨v, hv, -, rfl⟩ := mem_inodeWrites.mp hw
    have hplace := h.place v hv
    simp only at heq
    omega
  · obtain ⟨hd', -⟩ := mem_freemapWrites.mp hw
    rw [hd] at hd'
    exact Bool.noConfusion hd'

theorem SfsSuper.synced_sector (s : SfsSuper) {b : ℕ} (hb : b ≠ 0) :
    s.synced.fs.dev.sector b = (s.fs.pending.foldl Lhd.put s.fs.dev).sector b := by
  apply Lhd.puts_sector_of_notMem
  unfold SfsSuper.superWrites
  split_ifs
  · simpa using hb
  · simp

theorem SfsSuper.savedAs_iff {s : SfsSuper} (hs : s.fs.InPlace) : s.fs.SavedAs s.synced.fs ↔ s.fs.LosesNothing := by
  unfold Sfs.LosesNothing
  rw [← Lhd.puts_stored_iff hs.pending_nodup]
  constructor
  · intro h w hw
    rw [Sfs.pending_eq, List.mem_append] at hw
    rcases hw with hw | hw
    · obtain ⟨v, hv, -, rfl⟩ := mem_inodeWrites.mp hw
      have hplace := hs.place v hv
      rw [← s.synced_sector (by simp only; omega)]
      exact h.inodes v.cleaned (List.mem_map_of_mem hv)
    · obtain ⟨-, j, hj, rfl⟩ := mem_freemapWrites.mp hw
      rw [← s.synced_sector (by simp only; omega)]
      exact h.blocks j hj
  · intro h
    refine ⟨rfl, rfl, rfl, ?_, ?_⟩
    · intro w hw
      obtain ⟨v, hv, rfl⟩ := List.mem_map.mp hw
      have hplace := hs.place v hv
      rw [s.synced_sector (show v.cleaned.ino ≠ 0 by simp only [SfsVnode.cleaned]; omega)]
      cases hd : v.dirty with
      | false =>
        have hout := Lhd.puts_sector_of_notMem (d := s.fs.dev) (hs.notMem_of_clean hv hd)
        exact hout.trans (hs.clean v hv hd)
      | true => exact h (v.ino, v.i) (List.mem_append_left _ (mem_inodeWrites.mpr ⟨v, hv, hd, rfl⟩))
    · intro j hj
      rw [s.synced_sector (by omega)]
      cases hd : s.fs.freemapdirty with
      | false =>
        have hout := Lhd.puts_sector_of_notMem (d := s.fs.dev) (hs.notMem_freemap hd hj)
        exact hout.trans (hs.mirror hd j hj)
      | true => exact h (2 + j, s.fs.freemapBlock j) (List.mem_append_right _ (mem_freemapWrites.mpr ⟨hd, j, hj, rfl⟩))

/-- A volume with a dirty freemap and a new file, whose inode is not on the disk yet. -/
def newFile (outcomes : List LhdStat) : SfsSuper where
  fs := {
    nblocks := 16
    freemap := fun _ => false
    freemapdirty := true
    vnodes := [⟨3, (Bytes.zero : Block).setSfiType sfsTypeFile, true, 1⟩]
    dev := ⟨16, Lhd.word_sixteen, fun _ => Bytes.zero, outcomes⟩
    kmem := [] }
  sb := Bytes.zero
  superdirty := true

theorem newFile_inPlace (os : List LhdStat) : (newFile os).fs.InPlace where
  room := (by decide : 2 + sfsFreemapblocks 16 ≤ 16)
  disk := le_rfl
  nodup := List.nodup_singleton 3
  place v hv := by
    obtain rfl := List.mem_singleton.mp hv
    exact ⟨(by decide : 3 < 16), .inr (by decide : 2 + sfsFreemapblocks 16 ≤ 3)⟩
  clean v hv hd := by
    obtain rfl := List.mem_singleton.mp hv
    exact Bool.noConfusion hd
  mirror hd := Bool.noConfusion hd

end Os161
