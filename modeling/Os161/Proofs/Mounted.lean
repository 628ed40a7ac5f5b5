import Os161.Proofs.Lhd
import Os161.Proofs.Volume
import Os161.Spec.SfsSync

/-! The state of a mounted volume whose device I/O succeeds, and what the primitive
writes of SFS do to the volume: to the inode in memory of a loaded vnode, or to a
block of the disk that is no inode in memory. -/

namespace Os161

open Op

variable {s : Sfs} {i b : ℕ} {x : Block} {c D : Prop} {α : Type}

/-- The loaded inodes with the reference counts of their vnodes. -/
def Sfs.table (s : Sfs) : List (ℕ × ℕ) := s.vnodes.map fun v => (v.ino, v.refcount)

/-- The vnode table has no inode twice, a vnode that is not dirty agrees with the
disk, the volume lies on the disk, and no I/O error is to come. With `D` the superblock
and the freemap are followed to the disk as well. -/
structure Sfs.Mounted (D : Prop) (s : Sfs) : Prop where
  nodup : (s.vnodes.map SfsVnode.ino).Nodup
  clean : ∀ v ∈ s.vnodes, v.dirty = false → s.dev.sector v.ino = v.i
  held : ∀ v ∈ s.vnodes, 0 < v.refcount
  disk : s.nblocks ≤ s.dev.dBlocks
  quiet : s.dev.outcomes = []
  mirror : D → s.OnDisk

/-! ### The vnode table -/

theorem Sfs.vnode_ino {v : SfsVnode} (h : s.vnode i = some v) : v.ino = i := by
  simpa using List.find?_some h

theorem Sfs.vnode_mem {v : SfsVnode} (h : s.vnode i = some v) : v ∈ s.vnodes := List.mem_of_find?_eq_some h

theorem Sfs.block_of_vnode {v : SfsVnode} (h : s.vnode i = some v) : s.vol.block i = v.i := by
  simp only [vol, Sfs.block, h]

theorem Sfs.block_of_not_loaded (h : ¬ s.vol.loaded i) : s.vol.block i = s.dev.sector i := by
  have hnone : s.vnode i = none := by simpa [vol] using h
  simp only [vol, Sfs.block, hnone]

theorem Sfs.loaded_iff : s.vol.loaded i ↔ ∃ v ∈ s.vnodes, v.ino = i := by
  simp [vol, vnode]

theorem Sfs.loaded_iff_table : s.vol.loaded i ↔ ∃ r, (i, r) ∈ s.table := by
  rw [loaded_iff]
  constructor
  · rintro ⟨v, hv, rfl⟩
    exact ⟨v.refcount, List.mem_map_of_mem hv⟩
  · rintro ⟨r, hr⟩
    obtain ⟨v, hv, he⟩ := List.mem_map.mp hr
    exact ⟨v, hv, (Prod.mk.inj he).1⟩

theorem Sfs.loaded_congr {t : Sfs} (h : t.table = s.table) : t.vol.loaded = s.vol.loaded := by
  funext i
  rw [eq_iff_iff, loaded_iff_table, loaded_iff_table, h]

theorem Sfs.Mounted.vnode_of_mem (h : s.Mounted D) {v : SfsVnode} (hv : v ∈ s.vnodes) :
    s.vnode v.ino = some v := by
  have hl : s.vol.loaded v.ino := loaded_iff.mpr ⟨v, hv, rfl⟩
  obtain ⟨w, hw⟩ := Option.isSome_iff_exists.mp hl
  rw [hw, List.inj_on_of_nodup_map h.nodup (Sfs.vnode_mem hw) hv (Sfs.vnode_ino hw)]

theorem getVnode_wp {Q : SfsVnode → Sfs → Prop} {E : Errno → Sfs → Prop} (hl : s.vol.loaded i)
    (hQ : ∀ v, s.vnode i = some v → v.ino = i → v.i = s.vol.block i → Q v s) :
    (getVnode i).wp c Q E s := by
  obtain ⟨v, hv⟩ := Option.isSome_iff_exists.mp hl
  unfold getVnode
  simp only [wp_bind, wp_get, hv, wp_pure]
  exact hQ v hv (Sfs.vnode_ino hv) (Sfs.block_of_vnode hv).symm

/-- Another vnode, or this one changed. -/
theorem Sfs.vnode_setVnode {f : SfsVnode → SfsVnode} (hf : ∀ v, (f v).ino = v.ino) (j : ℕ) :
    (s.setVnode i f).vnode j = if j = i then (s.vnode i).map f else s.vnode j := by
  have hino (v : SfsVnode) : (if v.ino = i then f v else v).ino = v.ino := by
    split_ifs
    · exact hf v
    · rfl
  have hcomp : (fun v : SfsVnode => decide (v.ino = j)) ∘ (fun v => if v.ino = i then f v else v) =
      fun v => decide (v.ino = j) := by
    funext v
    simp only [Function.comp, hino]
  have hfind : (s.setVnode i f).vnode j = (s.vnode j).map fun v => if v.ino = i then f v else v := by
    rw [vnode, setVnode, List.find?_map, hcomp, vnode]
  rw [hfind]
  by_cases hji : j = i
  · subst hji
    rw [if_pos rfl]
    cases hv : s.vnode j with
    | none => rfl
    | some v => simp [vnode_ino hv]
  · rw [if_neg hji]
    cases hv : s.vnode j with
    | none => rfl
    | some v => simp [vnode_ino hv, hji]

theorem Sfs.table_setVnode {f : SfsVnode → SfsVnode} (hf : ∀ v, (f v).ino = v.ino)
    (hr : ∀ v, (f v).refcount = v.refcount) : (s.setVnode i f).table = s.table := by
  rw [table, setVnode, List.map_map]
  apply List.map_congr_left
  intro v _
  simp only [Function.comp]
  split_ifs
  · rw [hf, hr]
  · rfl

theorem Sfs.mem_setVnode {f : SfsVnode → SfsVnode} {w : SfsVnode} (h : w ∈ (s.setVnode i f).vnodes) :
    ∃ v ∈ s.vnodes, w = if v.ino = i then f v else v := by
  obtain ⟨v, hv, he⟩ := List.mem_map.mp h
  exact ⟨v, hv, he.symm⟩

/-- The table stays sound when a vnode that is written back or dirty changes. -/
theorem Sfs.Mounted.setVnode (h : s.Mounted D) {f : SfsVnode → SfsVnode} (hf : ∀ v, (f v).ino = v.ino)
    (hclean : ∀ v ∈ s.vnodes, v.ino = i → (f v).dirty = false → s.dev.sector i = (f v).i)
    (hheld : ∀ v ∈ s.vnodes, v.ino = i → 0 < (f v).refcount) : (s.setVnode i f).Mounted D where
  nodup := by
    have : (s.setVnode i f).vnodes.map SfsVnode.ino = s.vnodes.map SfsVnode.ino := by
      rw [Sfs.setVnode, List.map_map]
      apply List.map_congr_left
      intro v _
      simp only [Function.comp]
      split_ifs
      · exact hf v
      · rfl
    rw [this]
    exact h.nodup
  clean w hw hd := by
    obtain ⟨v, hv, rfl⟩ := Sfs.mem_setVnode hw
    split_ifs at hd ⊢ with hvi
    · rw [hf v, hvi]
      exact hclean v hv hvi hd
    · exact h.clean v hv hd
  held w hw := by
    obtain ⟨v, hv, rfl⟩ := Sfs.mem_setVnode hw
    split_ifs with hvi
    · exact hheld v hv hvi
    · exact h.held v hv
  disk := h.disk
  quiet := h.quiet
  mirror := h.mirror

/-! ### A write to an inode in memory -/

/-- The state after `dirtyInode`. -/
def Sfs.dirtied (s : Sfs) (i : ℕ) (g : Block → Block) : Sfs :=
  s.setVnode i fun v => { v with i := g v.i, dirty := true }

theorem Sfs.vol_dirtied (g : Block → Block) (hl : s.vol.loaded i) :
    s.vol.Wrote (s.dirtied i g).vol i (g (s.vol.block i)) where
  nblocks := rfl
  loaded := loaded_congr (table_setVnode (fun _ => rfl) fun _ => rfl)
  block := by
    obtain ⟨v, hv⟩ := Option.isSome_iff_exists.mp hl
    have hvnode := vnode_setVnode (s := s) (i := i) (f := fun v => { v with i := g v.i, dirty := true })
      (fun _ => rfl)
    funext j
    by_cases hji : j = i
    · subst hji
      rw [Function.update_self, block_of_vnode hv]
      apply block_of_vnode (v := { v with i := g v.i, dirty := true })
      rw [dirtied, hvnode, if_pos rfl, hv]
      rfl
    · rw [Function.update_of_ne hji]
      simp only [vol, Sfs.block, dirtied, hvnode, if_neg hji]
      rfl

theorem Sfs.table_dirtied (g : Block → Block) : (s.dirtied i g).table = s.table :=
  table_setVnode (fun _ => rfl) fun _ => rfl

theorem Sfs.Mounted.dirtied (h : s.Mounted D) (g : Block → Block) : (s.dirtied i g).Mounted D :=
  h.setVnode (fun _ => rfl) (fun _ _ _ hd => Bool.noConfusion hd) fun v hv _ => h.held v hv

theorem dirtyInode_wp {g : Block → Block} {Q : Unit → Sfs → Prop} {E : Errno → Sfs → Prop} :
    (dirtyInode i g).wp c Q E s ↔ Q () (s.dirtied i g) := Iff.rfl

/-! ### A write to the disk -/

/-- The state after a block was written. -/
def Sfs.poke (s : Sfs) (b : ℕ) (x : Block) : Sfs :=
  { s with dev := { s.dev with sector := Function.update s.dev.sector b x } }

theorem Sfs.vol_poke (x : Block) (hl : ¬ s.vol.loaded b) : s.vol.Wrote (s.poke b x).vol b x where
  nblocks := rfl
  loaded := rfl
  block := by
    funext j
    by_cases hj : j = b
    · rw [hj, Function.update_self, Sfs.block_of_not_loaded (s := s.poke b x) hl]
      exact Function.update_self ..
    · rw [Function.update_of_ne hj]
      simp only [vol, Sfs.block, poke, Function.update_of_ne hj]
      rfl

theorem Sfs.OnDisk.poke (h : s.OnDisk) (x : Block) (hb : s.vol.Clear b) : (s.poke b x).OnDisk := by
  obtain ⟨hmagic, hn, hmap⟩ := h
  have h0 : (s.poke b x).dev.sector 0 = s.dev.sector 0 := Function.update_of_ne hb.1.symm ..
  refine ⟨h0 ▸ hmagic, h0 ▸ hn, fun hd k hk => ?_⟩
  have hk' : (s.poke b x).dev.sector (2 + k / 4096) = s.dev.sector (2 + k / 4096) := by
    apply Function.update_of_ne
    refine (hb.2 (k / 4096) ?_).symm
    have : k < sfsFreemapbits s.nblocks := hk
    change k / 4096 < sfsFreemapbits s.nblocks / 4096
    rw [sfsFreemapbits] at this ⊢
    omega
  rw [hk']
  exact hmap hd k hk

theorem Sfs.Mounted.poke (h : s.Mounted D) (x : Block) (hl : ¬ s.vol.loaded b) (hb : s.vol.Clear b) :
    (s.poke b x).Mounted D where
  nodup := h.nodup
  clean v hv hd := by
    have hne : v.ino ≠ b := fun he => hl (Sfs.loaded_iff.mpr ⟨v, hv, he⟩)
    have hsector : (s.poke b x).dev.sector v.ino = s.dev.sector v.ino := Function.update_of_ne hne ..
    rw [hsector]
    exact h.clean v hv hd
  held := h.held
  disk := h.disk
  quiet := h.quiet
  mirror hD := (h.mirror hD).poke x hb

/-- The freemap changes, and is dirty afterwards. -/
theorem Sfs.Mounted.remap (h : s.Mounted D) (freemap : ℕ → Bool) :
    ({ s with freemap := freemap, freemapdirty := true } : Sfs).Mounted D where
  nodup := h.nodup
  clean := h.clean
  held := h.held
  disk := h.disk
  quiet := h.quiet
  mirror hD := ⟨(h.mirror hD).1, (h.mirror hD).2.1, fun hd => Bool.noConfusion hd⟩

theorem writeblock_poke (hb : b < s.dev.dBlocks) (hquiet : s.dev.outcomes = []) {Q : Unit → Sfs → Prop}
    {E : Errno → Sfs → Prop} : (onDev (sfsWriteblock b x)).wp c Q E s ↔ Q () (s.poke b x) := by
  unfold onDev
  rw [wp_zoom, Op.wp, sfsWriteblock_eq hb, if_neg (by rw [hquiet]; simp)]
  simp only [hquiet, List.tail_nil, Sfs.poke]

theorem Sfs.Mounted.writeblock_wp (h : s.Mounted D) (hb : b < s.nblocks) {Q : Unit → Sfs → Prop}
    {E : Errno → Sfs → Prop} : (onDev (sfsWriteblock b x)).wp c Q E s ↔ Q () (s.poke b x) :=
  writeblock_poke (hb.trans_le h.disk) h.quiet

theorem Sfs.Mounted.readblock_wp (h : s.Mounted D) (hb : b < s.nblocks) {Q : Block → Sfs → Prop}
    {E : Errno → Sfs → Prop} : (onDev (sfsReadblock b x)).wp c Q E s ↔ Q (s.dev.sector b) s := by
  unfold onDev
  rw [wp_zoom, Op.wp, sfsReadblock_eq (by have := h.disk; omega) (by rw [h.quiet]; simp)]
  simp only [h.quiet, List.tail_nil]
  rw [← h.quiet]

end Os161
