import Os161.Proofs.SfsDir

/-! Vnodes of a mounted volume: they are loaded, made for new files, written back,
and reclaimed when the last reference goes. -/

namespace Os161

open Op

variable {s t : Sfs} {P : List ℕ} {δ : ℕ → ℤ} {i j : ℕ} {c D : Prop}

/-! ### The volume when the table changes -/

/-- Nothing of the volume depends on the reference counts and the dirty flags. -/
theorem Sfs.vol_setVnode {f : SfsVnode → SfsVnode} (hf : ∀ v, (f v).ino = v.ino) (hi : ∀ v, (f v).i = v.i) :
    (s.setVnode i f).vol = s.vol := by
  have hblock : (s.setVnode i f).block = s.block := by
    funext j
    rw [Sfs.block, Sfs.block, vnode_setVnode hf]
    by_cases hji : j = i
    · subst hji
      rw [if_pos rfl]
      cases s.vnode j with
      | none => rfl
      | some v => exact hi v
    · rw [if_neg hji]
      rfl
  have hloaded (j : ℕ) : ((s.setVnode i f).vnode j).isSome = (s.vnode j).isSome := by
    rw [vnode_setVnode hf]
    by_cases hji : j = i
    · subst hji
      rw [if_pos rfl, Option.isSome_map]
    · rw [if_neg hji]
  unfold vol
  simp only [hblock, hloaded]
  rfl

theorem Sfs.Inv.setVnode (h : s.Inv D P δ) {f : SfsVnode → SfsVnode} (hf : ∀ v, (f v).ino = v.ino)
    (hi : ∀ v, (f v).i = v.i)
    (hclean : ∀ v ∈ s.vnodes, v.ino = i → (f v).dirty = false → s.dev.sector i = v.i)
    (hheld : ∀ v ∈ s.vnodes, v.ino = i → 0 < (f v).refcount) : (s.setVnode i f).Inv D P δ := by
  refine ⟨⟨h.sound.mounted.setVnode hf (fun v hv hvi hd => ?_) hheld, ?_⟩, ?_⟩
  · rw [hi]
    exact hclean v hv hvi hd
  · rw [Sfs.vol_setVnode hf hi]
    exact h.sound.struct
  · rw [Sfs.vol_setVnode hf hi]
    exact h.dir

/-- A reference count changes. -/
theorem Sfs.Inv.refcount (h : s.Inv D P δ) {g : ℕ → ℕ} (hg : ∀ v ∈ s.vnodes, v.ino = i → 0 < g v.refcount) :
    (s.setVnode i fun v => { v with refcount := g v.refcount }).Inv D P δ :=
  h.setVnode (fun _ => rfl) (fun _ => rfl) (fun v hv hvi hd => hvi ▸ h.sound.mounted.clean v hv hd) hg

/-- One of several references is dropped. -/
theorem Sfs.Inv.dropRef (h : s.Inv D P δ) {v : SfsVnode} (hv : s.vnode i = some v) (hmany : 1 < v.refcount) :
    (s.setVnode i fun v => { v with refcount := v.refcount - 1 }).Inv D P δ := by
  refine h.refcount (g := (· - 1)) fun w hw hwi => ?_
  have hwv : s.vnode i = some w := hwi ▸ h.sound.mounted.vnode_of_mem hw
  rw [hv, Option.some.injEq] at hwv
  subst hwv
  exact Nat.sub_pos_of_lt hmany

/-- The state with one more vnode. -/
def Sfs.added (s : Sfs) (sv : SfsVnode) : Sfs := { s with vnodes := s.vnodes ++ [sv] }

theorem Sfs.vnode_added {sv : SfsVnode} (hl : ¬ s.vol.loaded sv.ino) (j : ℕ) :
    (s.added sv).vnode j = if j = sv.ino then some sv else s.vnode j := by
  rw [vnode, added, List.find?_append]
  by_cases hj : j = sv.ino
  · subst hj
    have hnone : s.vnode sv.ino = none := by simpa [vol] using hl
    rw [if_pos rfl]
    rw [vnode] at hnone
    simp [hnone]
  · rw [if_neg hj]
    simp [Ne.symm hj, vnode]

theorem Sfs.loaded_added {sv : SfsVnode} : (s.added sv).vol.loaded j ↔ s.vol.loaded j ∨ j = sv.ino := by
  rw [loaded_iff, loaded_iff, added]
  simp only [List.mem_append, List.mem_singleton]
  constructor
  · rintro ⟨v, hv | rfl, hj⟩
    · exact Or.inl ⟨v, hv, hj⟩
    · exact Or.inr hj.symm
  · rintro (⟨v, hv, hj⟩ | hj)
    · exact ⟨v, Or.inl hv, hj⟩
    · exact ⟨sv, Or.inr rfl, hj.symm⟩

theorem Sfs.block_added {sv : SfsVnode} (hl : ¬ s.vol.loaded sv.ino) :
    (s.added sv).vol.block = Function.update s.vol.block sv.ino sv.i := by
  funext j
  simp only [vol, Sfs.block, vnode_added hl]
  by_cases hj : j = sv.ino
  · rw [if_pos hj, hj, Function.update_self]
  · rw [if_neg hj, Function.update_of_ne hj]
    rfl

theorem Sfs.Mounted.added (h : s.Mounted D) {sv : SfsVnode} (hl : ¬ s.vol.loaded sv.ino)
    (hclean : sv.dirty = false → s.dev.sector sv.ino = sv.i) (hheld : 0 < sv.refcount) :
    (s.added sv).Mounted D where
  nodup := by
    rw [Sfs.added, List.map_append, List.map_singleton, List.nodup_append]
    refine ⟨h.nodup, List.nodup_singleton _, fun a ha b hb hab => hl ?_⟩
    obtain ⟨v, hv, rfl⟩ := List.mem_map.mp ha
    rw [List.mem_singleton] at hb
    exact Sfs.loaded_iff.mpr ⟨v, hv, hab.trans hb⟩
  clean v hv hd := by
    rcases List.mem_append.mp hv with hv | hv
    · exact h.clean v hv hd
    · rw [List.mem_singleton.mp hv] at hd ⊢
      exact hclean hd
  held v hv := by
    rcases List.mem_append.mp hv with hv | hv
    · exact h.held v hv
    · rw [List.mem_singleton.mp hv]
      exact hheld
  disk := h.disk
  quiet := h.quiet
  mirror := h.mirror

/-- The state without the vnode of an inode. -/
def Sfs.removed (s : Sfs) (i : ℕ) : Sfs := { s with vnodes := s.vnodes.eraseP fun v => v.ino = i }

theorem eraseP_ino {l : List SfsVnode} (h : (l.map SfsVnode.ino).Nodup) :
    (l.eraseP fun v => v.ino = i) = l.filter fun v => v.ino ≠ i := by
  induction l with
  | nil => rfl
  | cons v l ih =>
    rw [List.map_cons, List.nodup_cons] at h
    by_cases hv : v.ino = i
    · have hrest : l.filter (fun v => v.ino ≠ i) = l := by
        apply List.filter_eq_self.mpr
        intro w hw
        simpa using fun hwi : w.ino = i => h.1 (List.mem_map.mpr ⟨w, hw, hwi.trans hv.symm⟩)
      rw [List.eraseP_cons_of_pos (by simpa using hv), List.filter_cons_of_neg (by simpa using hv), hrest]
    · rw [List.eraseP_cons_of_neg (by simpa using hv), List.filter_cons_of_pos (by simpa using hv), ih h.2]

theorem Sfs.Mounted.mem_removed (h : s.Mounted D) {v : SfsVnode} :
    v ∈ (s.removed i).vnodes ↔ v ∈ s.vnodes ∧ v.ino ≠ i := by
  rw [Sfs.removed, eraseP_ino h.nodup, List.mem_filter, decide_eq_true_eq]

theorem Sfs.Mounted.removed (h : s.Mounted D) (i : ℕ) : (s.removed i).Mounted D where
  nodup := h.nodup.sublist ((List.eraseP_sublist).map _)
  clean v hv := h.clean v (h.mem_removed.mp hv).1
  held v hv := h.held v (h.mem_removed.mp hv).1
  disk := h.disk
  quiet := h.quiet
  mirror := h.mirror

theorem Sfs.Mounted.loaded_removed (h : s.Mounted D) :
    (s.removed i).vol.loaded j ↔ s.vol.loaded j ∧ j ≠ i := by
  rw [Sfs.loaded_iff, Sfs.loaded_iff]
  constructor
  · rintro ⟨v, hv, rfl⟩
    exact ⟨⟨v, (h.mem_removed.mp hv).1, rfl⟩, (h.mem_removed.mp hv).2⟩
  · rintro ⟨⟨v, hv, rfl⟩, hne⟩
    exact ⟨v, h.mem_removed.mpr ⟨hv, hne⟩, rfl⟩

/-- A vnode that was written back leaves nothing behind. -/
theorem Sfs.Mounted.block_removed (h : s.Mounted D) (hclean : s.dev.sector i = s.vol.block i) :
    (s.removed i).vol.block = s.vol.block := by
  funext j
  by_cases hl : (s.removed i).vol.loaded j
  · obtain ⟨v, hv, hj⟩ := Sfs.loaded_iff.mp hl
    have hold := h.vnode_of_mem (h.mem_removed.mp hv).1
    have hnew := (h.removed i).vnode_of_mem hv
    rw [hj] at hold hnew
    rw [Sfs.block_of_vnode hnew, Sfs.block_of_vnode hold]
  · rw [Sfs.block_of_not_loaded hl]
    by_cases hji : j = i
    · rw [hji, ← hclean]
      rfl
    · have hl' : ¬ s.vol.loaded j := fun hl' => hl (h.loaded_removed.mpr ⟨hl', hji⟩)
      rw [Sfs.block_of_not_loaded hl']
      rfl

/-! ### The inodes when the table changes -/

theorem Vol.slot_of_block_eq {V V' : Vol} (hb : V'.block = V.block) (k : ℕ) : V'.slot k = V.slot k := by
  have hmap : V'.map 1 (k / 8) = V.map 1 (k / 8) := by rw [Vol.map, Vol.map, Vol.ind, Vol.ind, hb]
  apply Vol.slot_congr
  rw [Vol.data, Vol.data, hmap, hb]

theorem Vol.sameDir_of_block_eq {V V' : Vol} (hb : V'.block = V.block) : V.SameDir V' :=
  ⟨by rw [Vol.nslots, Vol.nslots, hb], fun k _ => Vol.slot_of_block_eq hb k⟩

theorem Vol.inode_of_block_eq {V V' : Vol} (hb : V'.block = V.block) (j : ℕ) :
    V'.Inode j ↔ j = 1 ∨ V'.loaded j ∨ ∃ k < V.nslots, j ≠ 0 ∧ sfdIno (V.slot k) = j := by
  have hn : V'.nslots = V.nslots := by rw [Vol.nslots, Vol.nslots, hb]
  unfold Vol.Inode
  simp only [hn, Vol.slot_of_block_eq hb]

/-- An inode that the directory names, or the root, gets a vnode. -/
theorem Vol.inode_load {V V' : Vol} (hb : V'.block = V.block) (hi : V.Inode i)
    (hl : ∀ j, V'.loaded j ↔ V.loaded j ∨ j = i) (j : ℕ) : V'.Inode j ↔ V.Inode j := by
  rw [Vol.inode_of_block_eq hb, hl]
  constructor
  · rintro (h | (h | rfl) | h)
    · exact Or.inl h
    · exact Or.inr (Or.inl h)
    · exact hi
    · exact Or.inr (Or.inr h)
  · rintro (h | h | h)
    · exact Or.inl h
    · exact Or.inr (Or.inl (Or.inl h))
    · exact Or.inr (Or.inr h)

/-- It loses its vnode again. -/
theorem Vol.inode_unload {V V' : Vol} (hb : V'.block = V.block)
    (hl : ∀ j, V'.loaded j ↔ V.loaded j ∧ j ≠ i) (hi : i = 1 ∨ 0 < V.links i) (hi0 : i ≠ 0) (j : ℕ) :
    V'.Inode j ↔ V.Inode j := by
  rw [Vol.inode_of_block_eq hb, hl]
  constructor
  · rintro (h | h | h)
    · exact Or.inl h
    · exact Or.inr (Or.inl h.1)
    · exact Or.inr (Or.inr h)
  · rintro (h | h | h)
    · exact Or.inl h
    · by_cases hji : j = i
      · subst hji
        rcases hi with h1 | hpos
        · exact Or.inl h1
        · obtain ⟨k, hk, hslot⟩ := Vol.exists_slot_of_links hpos
          exact Or.inr (Or.inr ⟨k, hk, hi0, hslot⟩)
      · exact Or.inr (Or.inl ⟨h, hji⟩)
    · exact Or.inr (Or.inr h)

/-- A file without links goes with its vnode. -/
theorem Vol.inode_drop {V V' : Vol} (hb : V'.block = V.block)
    (hl : ∀ j, V'.loaded j ↔ V.loaded j ∧ j ≠ i) (hi1 : i ≠ 1) (hlinks : V.links i = 0) (j : ℕ) :
    V'.Inode j ↔ V.Inode j ∧ j ≠ i := by
  have hno (k : ℕ) (hk : k < V.nslots) : sfdIno (V.slot k) ≠ i := fun he => by
    have := Vol.links_pos hk he
    omega
  rw [Vol.inode_of_block_eq hb, hl]
  constructor
  · rintro (rfl | h | ⟨k, hk, h0, rfl⟩)
    · exact ⟨Or.inl rfl, Ne.symm hi1⟩
    · exact ⟨Or.inr (Or.inl h.1), h.2⟩
    · exact ⟨Or.inr (Or.inr ⟨k, hk, h0, rfl⟩), hno k hk⟩
  · rintro ⟨h | h | h, hne⟩
    · exact Or.inl h
    · exact Or.inr (Or.inl ⟨h, hne⟩)
    · exact Or.inr (Or.inr h)

/-! ### `sfs_loadvnode` and `sfs_makeobj` -/

theorem Sfs.Inv.kmem (h : s.Inv D P δ) (l : List Bool) : ({ s with kmem := l } : Sfs).Inv D P δ :=
  ⟨⟨⟨h.sound.mounted.nodup, h.sound.mounted.clean, h.sound.mounted.held, h.sound.mounted.disk,
    h.sound.mounted.quiet, h.sound.mounted.mirror⟩, h.sound.struct⟩, h.dir⟩

theorem kmallocM_wp {Q : Unit → Sfs → Prop} {E : Errno → Sfs → Prop}
    (hQ : ∀ l, Q () { s with kmem := l }) (hE : ∀ l, E .enomem { s with kmem := l }) :
    kmallocM.wp c Q E s := by
  unfold kmallocM
  simp only [wp_bind, wp_get]
  cases hk : s.kmem with
  | nil =>
    have hs := hQ s.kmem
    exact hs
  | cons okay rest =>
    simp only [wp_bind, wp_set, wp_ite, wp_pure, wp_fail]
    exact ⟨fun _ => hQ rest, fun _ => hE rest⟩

theorem sfsSearch_wp (h : s.Sound D P) {l : List SfsVnode} (hl : ∀ v ∈ l, v ∈ s.vnodes)
    {Q : Bool → Sfs → Prop} {E : Errno → Sfs → Prop} (hyes : (∃ v ∈ l, v.ino = i) → Q true s)
    (hno : (∀ v ∈ l, v.ino ≠ i) → Q false s) : (sfsSearch i l).wp c Q E s := by
  induction l with
  | nil => exact hno (by simp)
  | cons v l ih =>
    have hin : s.vol.Inode v.ino := Sfs.inode_of_loaded (Sfs.loaded_iff.mpr ⟨v, hl v List.mem_cons_self, rfl⟩)
    have hused : s.freemap v.ino = true := (h.marked (r := .inode v.ino) ⟨hin, rfl⟩).2
    unfold sfsSearch
    rw [wp_bind, sfsBused_wp (h.struct.inodeBound _ hin), wp_bind, wp_kassert_of hused, wp_ite]
    refine ⟨fun hv => hyes ⟨v, List.mem_cons_self, hv⟩, fun hv => ?_⟩
    refine ih (fun w hw => hl w (List.mem_cons_of_mem v hw)) ?_ fun hall => hno fun w hw => ?_
    · rintro ⟨w, hw, hwi⟩
      exact hyes ⟨w, List.mem_cons_of_mem v hw, hwi⟩
    · rcases List.mem_cons.mp hw with rfl | hw
      · exact hv
      · exact hall w hw

/-- From `s` to `t` a vnode was found or loaded for `i`. -/
structure Sfs.Loads (s t : Sfs) (i : ℕ) : Prop where
  nblocks : t.nblocks = s.nblocks
  block : t.vol.block = s.vol.block
  inode : ∀ j, t.vol.Inode j ↔ s.vol.Inode j
  loaded : ∀ j, t.vol.loaded j ↔ s.vol.loaded j ∨ j = i

theorem Sfs.Loads.sameDir (h : s.Loads t i) : s.vol.SameDir t.vol := Vol.sameDir_of_block_eq h.block

/-- A vnode that is there gets one more reference. -/
theorem Sfs.Inv.found (h : s.Inv D P δ) (hl : s.vol.loaded i) :
    (s.setVnode i fun v => { v with refcount := v.refcount + 1 }).Inv D P δ ∧
      s.Loads (s.setVnode i fun v => { v with refcount := v.refcount + 1 }) i := by
  have hvol : (s.setVnode i fun v => { v with refcount := v.refcount + 1 }).vol = s.vol :=
    Sfs.vol_setVnode (fun _ => rfl) fun _ => rfl
  refine ⟨h.refcount fun v hv _ => Nat.succ_pos _, rfl, by rw [hvol], fun j => by rw [hvol], fun j => ?_⟩
  rw [hvol]
  exact ⟨Or.inl, fun hj => hj.elim id fun hji => hji ▸ hl⟩

/-- An inode is read from the disk into a new vnode. -/
theorem Sfs.Inv.added (h : s.Inv D P δ) (hi : s.vol.Inode i) (hnot : ¬ s.vol.loaded i) (l : List Bool) :
    (({ s with kmem := l } : Sfs).added ⟨i, s.dev.sector i, false, 1⟩).Inv D P δ ∧
      s.Loads (({ s with kmem := l } : Sfs).added ⟨i, s.dev.sector i, false, 1⟩) i := by
  have hb : (({ s with kmem := l } : Sfs).added ⟨i, s.dev.sector i, false, 1⟩).vol.block = s.vol.block := by
    rw [Sfs.block_added hnot]
    simp only
    rw [← Sfs.block_of_not_loaded hnot]
    exact Function.update_eq_self ..
  have hloaded (j : ℕ) : (({ s with kmem := l } : Sfs).added ⟨i, s.dev.sector i, false, 1⟩).vol.loaded j ↔
      s.vol.loaded j ∨ j = i := Sfs.loaded_added
  have hin := Vol.inode_load hb hi hloaded
  exact ⟨⟨⟨(h.kmem l).sound.mounted.added hnot (fun _ => rfl) Nat.one_pos, h.sound.struct.reload rfl hb rfl hin⟩,
    h.dir.reload hb fun j => (hin j).mp⟩, rfl, hb, hin, hloaded⟩

/-- The type of an inode is one that `sfs_loadvnode` knows. -/
theorem Sfs.Inv.type (h : s.Inv D P δ) (hi : s.vol.Inode i) :
    (s.vol.block i).sfiType = sfsTypeFile ∨ (s.vol.block i).sfiType = sfsTypeDir := by
  by_cases h1 : i = 1
  · exact Or.inr (h1 ▸ h.dir.rootType)
  · exact Or.inl (h.dir.fileType i hi h1)

theorem sfsLoadvnode_wp (h : s.Inv D P δ) (hi : s.vol.Inode i) {Q : Unit → Sfs → Prop}
    {E : Errno → Sfs → Prop} (hQ : ∀ t, t.Inv D P δ → s.Loads t i → Q () t)
    (hE : ∀ e t, t.Inv D P δ → s.Keeps t → E e t) : (sfsLoadvnode i 0).wp c Q E s := by
  unfold sfsLoadvnode
  simp only [wp_bind, wp_get]
  refine sfsSearch_wp h.sound (fun _ hv => hv) (fun hyes => ?_) fun hno => ?_
  · rw [if_pos rfl, wp_bind, wp_kassert_of rfl, wp_modify]
    obtain ⟨hinv, hloads⟩ := h.found (Sfs.loaded_iff.mpr hyes)
    exact hQ _ hinv hloads
  · have hnot : ¬ s.vol.loaded i := fun hl => by
      obtain ⟨v, hv, hvi⟩ := Sfs.loaded_iff.mp hl
      exact hno v hv hvi
    have hused : s.freemap i = true := (h.sound.marked (r := .inode i) ⟨hi, rfl⟩).2
    have hbound := h.sound.struct.inodeBound i hi
    have htype := h.type hi
    rw [Sfs.block_of_not_loaded hnot] at htype
    rw [if_neg (by simp), wp_bind]
    refine kmallocM_wp (fun l => ?_) fun l => hE _ _ (h.kmem l) ⟨.refl _, rfl⟩
    have h₁ := h.kmem l
    rw [wp_bind, sfsBused_wp (s := { s with kmem := l }) hbound, wp_bind, wp_kassert_of hused, wp_bind,
      h₁.sound.mounted.readblock_wp hbound]
    simp only [wp_bind, if_true]
    refine (wp_kassert_of (Or.inl rfl)).mpr ((wp_kassert_of htype).mpr ?_)
    refine kmallocM_wp (fun l' => ?_) fun l' => hE _ _ (h.kmem l') ⟨.refl _, rfl⟩
    rw [wp_modify]
    obtain ⟨hinv, hloads⟩ := h.added hi hnot l'
    exact hQ _ hinv hloads

/-- A vnode for a block that was just allocated. -/
theorem sfsLoadvnode_new_wp (h : s.Inv D (i :: P) 0) {Q : Unit → Sfs → Prop} {E : Errno → Sfs → Prop}
    (hQ : ∀ t, t.Inv D P 0 → t.nblocks = s.nblocks → (∀ j, t.vol.loaded j ↔ s.vol.loaded j ∨ j = i) →
      s.vol.SameDir t.vol → Q () t)
    (hE : ∀ e l, E e { s with kmem := l }) : (sfsLoadvnode i sfsTypeFile).wp c Q E s := by
  have hnot := h.sound.not_loaded_pending List.mem_cons_self
  obtain ⟨hbound, hzero⟩ := h.sound.struct.pending i List.mem_cons_self
  have hused : s.freemap i = true := ((h.sound.struct.owned.exact i).mpr (Or.inr List.mem_cons_self)).2
  have hsector : s.dev.sector i = Bytes.zero := by rw [← Sfs.block_of_not_loaded hnot, hzero]
  unfold sfsLoadvnode
  simp only [wp_bind, wp_get]
  refine sfsSearch_wp h.sound (fun _ hv => hv) (fun hyes => absurd (Sfs.loaded_iff.mpr hyes) hnot) fun _ => ?_
  rw [if_neg (by simp), wp_bind]
  refine kmallocM_wp (fun l => ?_) fun l => hE _ l
  have h₁ := h.kmem l
  rw [wp_bind, sfsBused_wp (s := { s with kmem := l }) hbound, wp_bind, wp_kassert_of hused, wp_bind,
    h₁.sound.mounted.readblock_wp hbound]
  simp only [wp_bind, hsector]
  have htype : ((Bytes.zero : Block).setSfiType sfsTypeFile).sfiType = sfsTypeFile :=
    Bytes.sfiType_setSfiType (by decide)
  refine (wp_kassert_of ?_).mpr ((wp_kassert_of ?_).mpr ?_)
  · rw [hsector]
    exact Or.inr Bytes.sfiType_zero
  · exact Or.inl htype
  refine kmallocM_wp (fun l' => ?_) fun l' => hE _ l'
  have h₂ := h.kmem l'
  rw [wp_modify]
  set sv : SfsVnode := ⟨i, (Bytes.zero : Block).setSfiType sfsTypeFile, true, 1⟩
  have hb : (({ s with kmem := l' } : Sfs).added sv).vol.block = Function.update s.vol.block i sv.i :=
    Sfs.block_added hnot
  have hloaded (j : ℕ) : (({ s with kmem := l' } : Sfs).added sv).vol.loaded j ↔ s.vol.loaded j ∨ j = i :=
    Sfs.loaded_added
  have hin := h.sound.struct.inode_create hb hloaded
  have hpointers := Bytes.samePointers_setNum (b := (Bytes.zero : Block)) (w := 2) (o := 4) (by omega) sfsTypeFile
  refine hQ _ ⟨⟨h₂.sound.mounted.added hnot (fun hd => Bool.noConfusion hd) Nat.one_pos, ?_⟩, ?_⟩ rfl hloaded
    (h.sound.struct.slot_create hb).2
  · refine h.sound.struct.create (fun k => ?_) ?_ rfl hb rfl hin
    · exact (hpointers.direct k).trans Bytes.sfiDirect_zero
    · exact hpointers.indirect.trans Bytes.sfiIndirect_zero
  · refine h.dir.create h.sound.struct htype ?_ hb hin
    exact Bytes.sfiLinkcount_setSfiType.trans Bytes.sfiLinkcount_zero

theorem sfsMakeobj_wp (h : s.Inv D P 0) {Q : ℕ → Sfs → Prop} {E : Errno → Sfs → Prop}
    (hQ : ∀ i t, t.Inv D P 0 → t.nblocks = s.nblocks → ¬ s.vol.Inode i →
      (∀ j, t.vol.loaded j ↔ s.vol.loaded j ∨ j = i) → s.vol.SameDir t.vol → Q i t)
    (hE : ∀ e t, t.Inv D P 0 → s.Keeps t → E e t) : (sfsMakeobj sfsTypeFile).wp c Q E s := by
  unfold sfsMakeobj
  rw [wp_bind]
  refine sfsBalloc_wp h.sound (fun i t hb => ?_) fun _ => hE _ s h (.refl s)
  have ht : t.Inv D (i :: P) 0 := ⟨hb.sound, h.dir.same h.sound.struct hb.keeps.vol⟩
  rw [wp_bind, wp_attempt]
  refine sfsLoadvnode_new_wp ht (fun u hu hn hl hdir => ?_) fun e l => ?_
  · refine hQ i u hu (hn.trans hb.keeps.vol.nblocks) (fun hi => ?_) (fun j => ?_)
      ((hb.keeps.vol.sameDir h.sound.struct).trans hdir)
    · exact (hb.sound.struct.pending_ne List.mem_cons_self ((hb.keeps.vol.inode i).mpr hi)).1 rfl
    · rw [hl j, hb.keeps.vol.loaded]
  · have hpend := ht.sound.struct.pending i List.mem_cons_self
    have hmark := (ht.sound.struct.owned.exact i).mpr (Or.inr List.mem_cons_self)
    simp only
    rw [wp_bind, sfsBfree_wp (s := { t with kmem := l }) hmark.1 hmark.2, wp_fail]
    have hu := ht.kmem l
    obtain ⟨hstruct, hsame⟩ := hu.sound.struct.giveBack (rfl : (({ t with kmem := l } : Sfs).freed i).vol.nblocks = _)
      rfl rfl rfl
    have hkeeps : t.Keeps (({ t with kmem := l } : Sfs).freed i) := ⟨hsame, rfl⟩
    exact hE e _ (h.keeps ⟨hu.sound.mounted.freed i, hstruct⟩ (hb.keeps.trans hkeeps)) (hb.keeps.trans hkeeps)

/-! ### `sfs_reclaim` -/

/-- From `s` to `t` an inode was written back. -/
structure Sfs.Flushes (s t : Sfs) (i : ℕ) : Prop where
  vol : t.vol = s.vol
  table : t.table = s.table
  sector : t.dev.sector = Function.update s.dev.sector i (s.vol.block i)
  freemapdirty : t.freemapdirty = s.freemapdirty

/-- The state after the inode of a vnode was written. -/
def Sfs.flushed (s : Sfs) (i : ℕ) : Sfs :=
  (s.poke i (s.vol.block i)).setVnode i fun v => { v with dirty := false }

theorem Sfs.Inv.flushed (h : s.Inv D P δ) (hl : s.vol.loaded i) : (s.flushed i).Inv D P δ ∧ s.Flushes (s.flushed i) i := by
  have hi := Sfs.inode_of_loaded hl
  unfold Sfs.flushed
  set s₁ := s.poke i (s.vol.block i)
  have hsector : s₁.dev.sector i = s.vol.block i := Function.update_self ..
  have hvol : s₁.vol = s.vol := by
    have hb : s₁.block = s.block := by
      funext j
      by_cases hlj : s.vol.loaded j
      · obtain ⟨w, hw⟩ := Option.isSome_iff_exists.mp hlj
        rw [Sfs.block, Sfs.block, show s₁.vnode j = some w from hw, hw]
      · have hji : j ≠ i := fun he => hlj (he ▸ hl)
        have hnone : s.vnode j = none := by simpa [Sfs.vol] using hlj
        rw [Sfs.block, Sfs.block, show s₁.vnode j = none from hnone, hnone]
        exact Function.update_of_ne hji ..
    unfold Sfs.vol
    rw [hb]
    rfl
  have hmem (w : SfsVnode) (hw : w ∈ s.vnodes) (hwi : w.ino = i) : w.i = s.vol.block i := by
    rw [← hwi, Sfs.block_of_vnode (h.sound.mounted.vnode_of_mem hw)]
  have hmounted : s₁.Mounted D := by
    refine ⟨h.sound.mounted.nodup, fun w hw hwd => ?_, h.sound.mounted.held, h.sound.mounted.disk,
      h.sound.mounted.quiet, fun hD => (h.sound.mounted.mirror hD).poke _ (h.sound.struct.clear_inode hi)⟩
    by_cases hwi : w.ino = i
    · rw [hwi, hsector, hmem w hw hwi]
    · have : s₁.dev.sector w.ino = s.dev.sector w.ino := Function.update_of_ne hwi ..
      rw [this]
      exact h.sound.mounted.clean w hw hwd
  have hinv : s₁.Inv D P δ := ⟨⟨hmounted, hvol ▸ h.sound.struct⟩, hvol ▸ h.dir⟩
  refine ⟨hinv.setVnode (fun _ => rfl) (fun _ => rfl) (fun w hw hwi _ => ?_) fun w hw _ => h.sound.mounted.held w hw,
    ?_, Sfs.table_setVnode (fun _ => rfl) fun _ => rfl, rfl, rfl⟩
  · rw [hsector, hmem w hw hwi]
  · exact (Sfs.vol_setVnode (f := fun w => { w with dirty := false }) (fun _ => rfl) fun _ => rfl).trans hvol

/-- A vnode that is not dirty is on the disk already. -/
theorem Sfs.Inv.flushes_self (h : s.Inv D P δ) {v : SfsVnode} (hv : s.vnode i = some v) (hd : v.dirty ≠ true) :
    s.Flushes s i := by
  refine ⟨rfl, rfl, ?_, rfl⟩
  have := h.sound.mounted.clean v (Sfs.vnode_mem hv) (by simpa using hd)
  rw [Sfs.vnode_ino hv, ← Sfs.block_of_vnode hv] at this
  rw [← this, Function.update_eq_self]

/-- After `sfs_sync_inode` the disk has the inode. -/
theorem sfsSyncInode_wp (h : s.Inv D P δ) (hl : s.vol.loaded i) {Q : Unit → Sfs → Prop}
    {E : Errno → Sfs → Prop}
    (hQ : ∀ t, t.Inv D P δ → s.Flushes t i → Q () t) :
    (sfsSyncInode i).wp c Q E s := by
  unfold sfsSyncInode
  rw [wp_bind]
  refine getVnode_wp hl fun v hv hvi hblock => ?_
  rw [wp_ite]
  refine ⟨fun _ => ?_, fun hd => ?_⟩
  · rw [wp_bind, hvi, h.sound.mounted.writeblock_wp (h.sound.struct.inodeBound i (Sfs.inode_of_loaded hl)), wp_modify, hblock]
    obtain ⟨hinv, hflush⟩ := h.flushed hl
    exact hQ _ hinv hflush
  · exact hQ s h (h.flushes_self hv hd)

theorem Sfs.Inv.trunc {u : Sfs} (h : s.Inv D P δ) (hi1 : i ≠ 1) {blocklen size : ℕ} (hu : u.Sound D P)
    (ht : s.vol.Trunc u.vol i blocklen size) : u.Inv D P δ :=
  ⟨hu, h.dir.trunc h.sound.struct hi1 ht⟩

/-- The vnode of a file with links, or of the root, is removed. -/
theorem Sfs.Inv.removed (h : s.Inv D P 0) (hl : s.vol.loaded i) (hclean : s.dev.sector i = s.vol.block i)
    (hlinks : (s.vol.block i).sfiLinkcount ≠ 0) : (s.removed i).Inv D P 0 := by
  have hm := h.sound.mounted
  have hi := Sfs.inode_of_loaded hl
  have hb := hm.block_removed hclean
  have hstay : i = 1 ∨ 0 < s.vol.links i := by
    by_cases hi1 : i = 1
    · exact Or.inl hi1
    · have := h.dir.links i hi hi1
      simp only [Pi.zero_apply] at this
      exact Or.inr (by omega)
  have hin := Vol.inode_unload hb (fun _ => hm.loaded_removed) hstay (h.sound.struct.inode_ne_zero hi)
  exact ⟨⟨hm.removed i, h.sound.struct.reload rfl hb rfl hin⟩, h.dir.reload hb fun j => (hin j).mp⟩

/-- A file without links and blocks is freed with its vnode. -/
theorem Sfs.Inv.erased (h : s.Inv D P 0) (hl : s.vol.loaded i) (hclean : s.dev.sector i = s.vol.block i)
    (hlinks : (s.vol.block i).sfiLinkcount = 0) (hmap : ∀ fb < 143, s.vol.map i fb = 0)
    (hind : s.vol.ind i = 0) : ((s.freed i).removed i).Inv D P 0 := by
  have hm := h.sound.mounted.freed i
  have hi := Sfs.inode_of_loaded hl
  have hi1 : i ≠ 1 := by
    rintro rfl
    have := h.dir.rootLinks
    omega
  have hzero : s.vol.links i = 0 := by
    have := h.dir.links i hi hi1
    simp only [Pi.zero_apply] at this
    omega
  have hb : ((s.freed i).removed i).vol.block = s.vol.block := hm.block_removed hclean
  have hin : ∀ j, ((s.freed i).removed i).vol.Inode j ↔ s.vol.Inode j ∧ j ≠ i :=
    Vol.inode_drop hb (fun _ => hm.loaded_removed) hi1 hzero
  exact ⟨⟨hm.removed i, h.sound.struct.drop hi hind hmap rfl hb rfl hin⟩,
    h.dir.reload hb fun j hj => ((hin j).mp hj).1⟩

/-- From `s` to `t` the vnode of `i` went, and with it the file if it has no links. -/
structure Sfs.Reclaims (s t : Sfs) (i : ℕ) : Prop where
  nblocks : t.nblocks = s.nblocks
  loaded : ∀ j, t.vol.loaded j ↔ s.vol.loaded j ∧ j ≠ i
  dir : s.vol.SameDir t.vol
  erased : (s.vol.block i).sfiLinkcount = 0 → t.freemap i = false
  kept : (s.vol.block i).sfiLinkcount ≠ 0 → t.vol.block = s.vol.block ∧ t.freemap = s.freemap

/-- The end of `sfs_reclaim`, after the inode was written back. -/
theorem reclaimEnd_wp (h : s.Inv D P 0) (hl : s.vol.loaded i)
    (hempty : (s.vol.block i).sfiLinkcount = 0 → (∀ fb < 143, s.vol.map i fb = 0) ∧ s.vol.ind i = 0)
    {Q : Unit → Sfs → Prop} {E : Errno → Sfs → Prop} (hQ : ∀ t, t.Inv D P 0 → s.Reclaims t i → Q () t) :
    (do
      sfsSyncInode i
      let sv ← getVnode i
      if sv.i.sfiLinkcount = 0 then sfsBfree i
      Op.modify fun s => { s with vnodes := s.vnodes.eraseP fun v => v.ino = i } : SfsM Unit).wp c Q E s := by
  have hi := Sfs.inode_of_loaded hl
  rw [wp_bind]
  refine sfsSyncInode_wp h hl fun t ht hflush => ?_
  rw [wp_bind]
  have hvol := hflush.vol
  have hlt : t.vol.loaded i := hvol ▸ hl
  have hclean : t.dev.sector i = t.vol.block i := by
    rw [hflush.sector, Function.update_self, hvol]
  have hn : t.nblocks = s.nblocks := congrArg Vol.nblocks hvol
  refine getVnode_wp hlt fun v _ _ hv => ?_
  rw [hv, wp_ite]
  refine ⟨fun hz => ?_, fun hz => ?_⟩
  · obtain ⟨hmap, hind⟩ := hempty (hvol ▸ hz)
    obtain ⟨hbits, hused⟩ := ht.sound.marked (r := .inode i) ⟨Sfs.inode_of_loaded hlt, rfl⟩
    rw [wp_bind, sfsBfree_wp hbits hused, wp_modify]
    have hb : ((t.freed i).removed i).vol.block = t.vol.block := (ht.sound.mounted.freed i).block_removed hclean
    refine hQ _ (ht.erased hlt hclean hz (hvol.symm ▸ hmap) (hvol.symm ▸ hind)) ⟨hn, fun j => ?_, ?_, fun _ => ?_,
      fun hne => absurd (hvol ▸ hz) hne⟩
    · rw [← hvol]
      exact (ht.sound.mounted.freed i).loaded_removed
    · exact hvol ▸ Vol.sameDir_of_block_eq hb
    · exact Function.update_self ..
  · rw [wp_modify]
    have hb := ht.sound.mounted.block_removed hclean
    refine hQ _ (ht.removed hlt hclean hz) ⟨hn, fun j => ?_, ?_, fun h0 => absurd (hvol ▸ h0) hz, fun _ => ?_⟩
    · rw [← hvol]
      exact ht.sound.mounted.loaded_removed
    · exact hvol ▸ Vol.sameDir_of_block_eq hb
    · exact ⟨hvol ▸ hb, congrArg Vol.used hvol⟩

/-- `sfs_reclaim` drops the vnode, and with it a file without links, or it drops a
reference and says that the vnode is busy. -/
theorem sfsReclaim_wp (h : s.Inv D P 0) (hl : s.vol.loaded i) {Q : Unit → Sfs → Prop} {E : Errno → Sfs → Prop}
    (hQ : ∀ v t, s.vnode i = some v → v.refcount = 1 → t.Inv D P 0 → s.Reclaims t i → Q () t)
    (hE : ∀ v t, s.vnode i = some v → 1 < v.refcount → t.Inv D P 0 → t.vol = s.vol → E .ebusy t) : (sfsReclaim i).wp c Q E s := by
  unfold sfsReclaim
  rw [wp_bind]
  refine getVnode_wp hl fun v hv _ hblock => ?_
  have hheld := h.sound.mounted.held v (Sfs.vnode_mem hv)
  rw [wp_ite]
  refine ⟨fun hne => ?_, fun hone => ?_⟩
  · have hmany : 1 < v.refcount := by omega
    rw [wp_bind, wp_kassert_of hmany, wp_bind, wp_modify, wp_fail]
    exact hE v _ hv hmany (h.dropRef hv hmany)
      (Sfs.vol_setVnode (f := fun w => { w with refcount := w.refcount - 1 }) (fun _ => rfl) fun _ => rfl)
  · have hQ' := fun t => hQ v t hv (not_not.mp hone)
    rw [hblock, wp_ite]
    refine ⟨fun hz => ?_, fun hz => ?_⟩
    · have hi1 : i ≠ 1 := by
        rintro rfl
        have := h.dir.rootLinks
        omega
      rw [wp_bind]
      refine sfsItrunc_wp h.sound hl hi1 0 fun t ht htable htrunc => ?_
      have hlt : t.vol.loaded i := by
        rw [htrunc.loaded]
        exact hl
      have hgone (fb : ℕ) (hfb : fb < 143) : t.vol.map i fb = 0 := by
        refine htrunc.gone fb hfb ?_
        rw [show u32 (((0 : ℤ) + 511).tdiv 512) = 0 from rfl]
        unfold TruncGone
        split_ifs
        · exact Nat.zero_le fb
        · exact ⟨by omega, by omega⟩
      refine reclaimEnd_wp (h.trunc hi1 ht htrunc) hlt (fun _ => ⟨hgone, htrunc.empty (by decide) hgone⟩)
        fun u hu hr => hQ' u hu ⟨hr.nblocks.trans htrunc.nblocks, fun j => ?_,
          (htrunc.sameDir h.sound.struct hi1).trans hr.dir, fun _ => hr.erased (htrunc.linkcount.trans hz),
          fun hne => absurd hz hne⟩
      rw [hr.loaded, htrunc.loaded]
    · exact reclaimEnd_wp h hl (fun h0 => absurd h0 hz) hQ'

/-- A reference is dropped; at most this vnode goes. -/
theorem vnodeDecref_wp (h : s.Inv D P 0) (hl : s.vol.loaded i) {Q : Unit → Sfs → Prop} {E : Errno → Sfs → Prop}
    (hQ : ∀ t, t.Inv D P 0 → t.nblocks = s.nblocks → s.vol.SameDir t.vol → Q () t) : (vnodeDecref i).wp c Q E s := by
  unfold vnodeDecref
  rw [wp_bind]
  refine getVnode_wp hl fun v hv _ _ => ?_
  have hheld := h.sound.mounted.held v (Sfs.vnode_mem hv)
  rw [wp_bind, wp_kassert_of hheld, wp_ite]
  refine ⟨fun hmany => ?_, fun _ => ?_⟩
  · rw [wp_modify]
    have hvol : (s.setVnode i fun w => { w with refcount := w.refcount - 1 }).vol = s.vol :=
      Sfs.vol_setVnode (fun _ => rfl) fun _ => rfl
    exact hQ _ (h.dropRef hv hmany) rfl (by rw [hvol]; exact .refl _)
  · rw [wp_bind, wp_attempt]
    exact sfsReclaim_wp h hl (fun _ t _ _ ht hr => hQ t ht hr.nblocks hr.dir) fun _ t _ _ ht hvol =>
      hQ t ht (congrArg Vol.nblocks hvol) (by rw [hvol]; exact .refl _)

end Os161
