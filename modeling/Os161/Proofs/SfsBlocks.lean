import Os161.Proofs.Mounted

/-! Block allocation and the block map of a file on a mounted volume. -/

namespace Os161

open Op

variable {s t : Sfs} {P : List ℕ} {i fb b : ℕ} {c D : Prop}

/-- A mounted volume with its blocks accounted for. -/
structure Sfs.Sound (D : Prop) (s : Sfs) (P : List ℕ) : Prop where
  mounted : s.Mounted D
  struct : s.vol.Struct P

/-- The same files, loaded with the same reference counts. -/
structure Sfs.Keeps (s t : Sfs) : Prop where
  vol : s.vol.Same t.vol
  table : t.table = s.table

theorem Sfs.Keeps.refl (s : Sfs) : s.Keeps s := ⟨.refl _, rfl⟩

theorem Sfs.Keeps.trans {t' : Sfs} (h : s.Keeps t) (h' : t.Keeps t') : s.Keeps t' :=
  ⟨h.vol.trans h'.vol, h'.table.trans h.table⟩

theorem Sfs.Keeps.loaded (h : s.Keeps t) (hl : s.vol.loaded i) : t.vol.loaded i := by
  rw [h.vol.loaded]
  exact hl

theorem Sfs.inode_of_loaded (h : s.vol.loaded i) : s.vol.Inode i := Or.inr (Or.inl h)

theorem Sfs.Sound.word (h : s.Sound D P) : s.nblocks < 4294967296 :=
  h.mounted.disk.trans_lt s.dev.word

theorem Sfs.Sound.not_loaded_pending (h : s.Sound D P) (hb : b ∈ P) : ¬ s.vol.loaded b :=
  fun hl => (h.struct.pending_ne hb (inode_of_loaded hl)).1 rfl

theorem Sfs.Sound.not_loaded_ind (h : s.Sound D P) (hi : s.vol.Inode i) (h0 : s.vol.ind i ≠ 0) :
    ¬ s.vol.loaded (s.vol.ind i) :=
  fun hl => h.struct.inode_ne_ind (inode_of_loaded hl) hi h0 rfl

theorem Sfs.Sound.not_loaded_map (h : s.Sound D P) (hi : s.vol.Inode i) (hfb : fb < 143)
    (h0 : s.vol.map i fb ≠ 0) : ¬ s.vol.loaded (s.vol.map i fb) :=
  fun hl => h.struct.inode_ne_map (inode_of_loaded hl) hi hfb h0 rfl

/-- Every block in use is below the end of the freemap and marked. -/
theorem Sfs.Sound.marked (h : s.Sound D P) {r : Ref} (hr : s.vol.Refs r b) :
    b < sfsFreemapbits s.nblocks ∧ s.freemap b = true :=
  h.struct.owned.used_of_ref hr

/-! ### `sfs_balloc.c` -/

theorem bitmapFind_none {bits : ℕ → Bool} {fuel k : ℕ} (h : bitmapFind bits fuel k = none) :
    ∀ b, k ≤ b → b < k + fuel → bits b = true := by
  induction fuel generalizing k with
  | zero => omega
  | succ fuel ih =>
    intro b hk hb
    simp only [bitmapFind] at h
    split_ifs at h with hbit
    by_cases hbk : b = k
    · rw [hbk, hbit]
    · exact ih h b (by omega) (by omega)

theorem bitmapFind_some {bits : ℕ → Bool} {fuel k : ℕ} (h : bitmapFind bits fuel k = some b) :
    b < k + fuel ∧ bits b = false := by
  induction fuel generalizing k with
  | zero => simp [bitmapFind] at h
  | succ fuel ih =>
    simp only [bitmapFind] at h
    split_ifs at h with hbit
    · have := ih h
      exact ⟨by omega, this.2⟩
    · cases h
      exact ⟨by omega, by simpa using hbit⟩

/-- From `s` to `t` the block `b` was allocated and cleared. -/
structure Sfs.Balloced (D : Prop) (s t : Sfs) (P : List ℕ) (b : ℕ) : Prop where
  sound : t.Sound D (b :: P)
  keeps : s.Keeps t
  wrote : s.vol.Wrote t.vol b Bytes.zero
  map : ∀ j, s.vol.Inode j → t.vol.ind j = s.vol.ind j ∧ ∀ fb, t.vol.map j fb = s.vol.map j fb

/-- `sfs_balloc` hands out a cleared block, and fails only when there is none. -/
theorem sfsBalloc_wp (h : s.Sound D P) {Q : ℕ → Sfs → Prop} {E : Errno → Sfs → Prop}
    (hQ : ∀ b t, s.Balloced D t P b → Q b t) (hE : s.Full → E .enospc s) : sfsBalloc.wp c Q E s := by
  unfold sfsBalloc bitmapAlloc sfsClearblock
  simp only [wp_bind, wp_get]
  cases hfind : bitmapFind s.freemap (sfsFreemapbits s.nblocks) 0 with
  | none => exact hE fun b hb => bitmapFind_none hfind b (by omega) (by omega)
  | some b =>
    obtain ⟨hb, hfree⟩ := bitmapFind_some hfind
    have hunref (r : Ref) : ¬ s.vol.Refs r b := by
      intro hr
      have hused := (h.marked hr).2
      rw [hfree] at hused
      exact Bool.noConfusion hused
    have hpast : b < s.nblocks := by
      by_contra hge
      exact hunref .pastEnd ⟨by simpa [Sfs.vol] using hge, by simpa [Sfs.vol] using hb⟩
    have hnot : ¬ s.vol.loaded b := fun hl => hunref (.inode b) ⟨Sfs.inode_of_loaded hl, rfl⟩
    let s₁ : Sfs := { s with freemap := Function.update s.freemap b true, freemapdirty := true }
    have hmounted : s₁.Mounted D := h.mounted.remap _
    simp only [wp_bind, wp_set, wp_pure, wp_modify, wp_attempt]
    rw [wp_kassert_of hpast, hmounted.writeblock_wp hpast]
    have hw : s.vol.Wrote (s₁.poke b Bytes.zero).vol b Bytes.zero := by
      have hw₁ := Sfs.vol_poke (s := s₁) Bytes.zero hnot
      exact ⟨hw₁.nblocks, hw₁.loaded, hw₁.block⟩
    obtain ⟨hstruct, hsame, hmap⟩ := h.struct.alloc hpast hfree hw rfl
    exact hQ b _ ⟨⟨hmounted.poke _ hnot (Vol.clear_of_not_ref hunref), hstruct⟩, ⟨hsame, rfl⟩, hw, hmap⟩

/-- The state after `sfs_bfree`. -/
def Sfs.freed (s : Sfs) (b : ℕ) : Sfs :=
  { s with freemap := Function.update s.freemap b false, freemapdirty := true }

theorem Sfs.Mounted.freed (h : s.Mounted D) (b : ℕ) : (s.freed b).Mounted D :=
  h.remap _

theorem sfsBfree_wp (hb : b < sfsFreemapbits s.nblocks) (hu : s.freemap b = true)
    {Q : Unit → Sfs → Prop} {E : Errno → Sfs → Prop} : (sfsBfree b).wp c Q E s ↔ Q () (s.freed b) := by
  unfold sfsBfree bitmapUnmark
  simp only [wp_bind, wp_get, wp_kassert_of hb, wp_kassert_of hu, wp_set, wp_modify]
  rfl

theorem sfsBused_wp (hb : b < s.nblocks) {Q : Bool → Sfs → Prop} {E : Errno → Sfs → Prop} :
    (sfsBused b).wp c Q E s ↔ Q (s.freemap b) s := by
  unfold sfsBused
  simp only [wp_bind, wp_get, wp_kassert_of hb, wp_pure]

/-! ### `sfs_bmap` -/

theorem Sfs.Sound.checkMapped_wp (h : s.Sound D P) (hi : s.vol.Inode i) (hfb : fb < 143)
    (hb : s.vol.map i fb = b) {Q : Unit → Sfs → Prop} {E : Errno → Sfs → Prop} :
    (checkMapped b).wp c Q E s ↔ Q () s := by
  unfold checkMapped
  subst hb
  split_ifs with h0
  · rw [wp_pure]
  · have hused : s.freemap (s.vol.map i fb) = true := (h.marked (r := .pointer i fb) ⟨hi, hfb, h0, rfl⟩).2
    rw [wp_bind, sfsBused_wp (h.struct.mapBound i hi fb hfb), wp_kassert_of hused]

/-- Where the pointer of a new block goes: to the inode or to the indirect block. -/
theorem Sfs.Balloced.attach {u : Sfs} (h : s.Balloced D t P b) (hi : s.vol.Inode i) (hfb : fb < 143)
    (h0 : s.vol.map i fb = 0) (hs : t.vol.PtrSet u.vol i fb b) (hu : u.freemap = t.freemap)
    (hm : u.Mounted D) (htable : u.table = t.table) : u.Sound D P ∧ s.Keeps u ∧ u.vol.map i fb = b := by
  have hi' : t.vol.Inode i := (h.keeps.vol.inode i).mpr hi
  have h0' : t.vol.map i fb = 0 := by rw [(h.map i hi).2, h0]
  obtain ⟨hstruct, hsame⟩ := h.sound.struct.attach hi' hfb h0' hs hu
  exact ⟨⟨hm, hstruct⟩, h.keeps.trans ⟨hsame, htable⟩, hs.map_self hi'⟩

theorem Sfs.Balloced.ne_zero (h : s.Balloced D t P b) : b ≠ 0 :=
  fun he => h.sound.struct.owned.apart b List.mem_cons_self .super he

theorem Sfs.Balloced.lt (h : s.Balloced D t P b) : b < 4294967296 :=
  (h.sound.struct.pending b List.mem_cons_self).1.trans h.sound.word

/-- How `sfs_bmap` fails when it may allocate. -/
def Sfs.BmapError (s t : Sfs) (i fb : ℕ) (e : Errno) : Prop :=
  (e = .enospc ∧ s.vol.map i fb = 0 ∧ t.Full) ∨ (e = .efbig ∧ 143 ≤ fb)

theorem sfsBmapDirect_wp (h : s.Sound D P) (hl : s.vol.loaded i) (hfb : fb < 15)
    {Q : ℕ → Sfs → Prop} {E : Errno → Sfs → Prop}
    (hQ : ∀ t, t.Sound D P → s.Keeps t → t.vol.map i fb ≠ 0 → Q (t.vol.map i fb) t)
    (hE : s.vol.map i fb = 0 → s.Full → E .enospc s) : (sfsBmapDirect i fb true).wp c Q E s := by
  have hi := Sfs.inode_of_loaded hl
  unfold sfsBmapDirect
  rw [wp_bind]
  refine getVnode_wp hl fun v _ _ hv => ?_
  have hmap : v.i.sfiDirect fb = s.vol.map i fb := by rw [hv, Vol.map, if_pos hfb]
  simp only [wp_bind, wp_ite, hmap, and_true]
  refine ⟨fun h0 => ?_, fun h0 => ?_⟩
  · refine sfsBalloc_wp h (fun b t hb => ?_) (hE h0)
    rw [dirtyInode_wp, wp_pure]
    have hlt := hb.keeps.loaded hl
    have hw := Sfs.vol_dirtied (·.setSfiDirect fb b) hlt
    have hs := hb.sound.struct.ptrSet_direct (Sfs.inode_of_loaded hlt) hfb hb.lt hw
    obtain ⟨hsound, hkeeps, hself⟩ := hb.attach hi (by omega) h0 hs rfl
      (hb.sound.mounted.dirtied _) (Sfs.table_dirtied _)
    have hq := hQ _ hsound hkeeps (by rw [hself]; exact hb.ne_zero)
    rw [hself] at hq
    rw [hsound.checkMapped_wp (Sfs.inode_of_loaded (hkeeps.loaded hl)) (by omega) hself]
    exact hq
  · rw [wp_pure, h.checkMapped_wp hi (by omega) rfl, wp_pure]
    exact hQ s h (.refl s) h0

/-- The indirect block is there afterwards, and its contents were read. -/
theorem sfsIdblock_wp (h : s.Sound D P) (hl : s.vol.loaded i) {Q : ℕ × Block → Sfs → Prop}
    {E : Errno → Sfs → Prop}
    (hQ : ∀ t, t.Sound D P → s.Keeps t → (∀ fb < 143, t.vol.map i fb = s.vol.map i fb) → t.vol.ind i ≠ 0 →
      Q (t.vol.ind i, t.vol.block (t.vol.ind i)) t)
    (hE : s.vol.ind i = 0 → s.Full → E .enospc s) : (sfsIdblock i (s.vol.ind i)).wp c Q E s := by
  have hi := Sfs.inode_of_loaded hl
  unfold sfsIdblock
  split_ifs with h0
  · rw [wp_bind]
    refine sfsBalloc_wp h (fun b t hb => ?_) (hE h0)
    rw [wp_bind, dirtyInode_wp, wp_pure]
    have hlt := hb.keeps.loaded hl
    have hit := Sfs.inode_of_loaded hlt
    have hind : t.vol.ind i = 0 := by rw [(hb.map i hi).1, h0]
    have hw := Sfs.vol_dirtied (·.setSfiIndirect b) hlt
    obtain ⟨hstruct, hsame, hmap, hself, hzero⟩ := hb.sound.struct.attachInd hit hind hb.lt hw rfl
    have hq := hQ _ ⟨hb.sound.mounted.dirtied _, hstruct⟩ (hb.keeps.trans ⟨hsame, Sfs.table_dirtied _⟩)
      (fun fb hfb => by rw [hmap fb hfb, (hb.map i hi).2]) (by rw [hself]; exact hb.ne_zero)
    rw [hself, hzero] at hq
    exact hq
  · rw [wp_bind, h.mounted.readblock_wp (h.struct.indBound i hi), wp_pure,
      ← Sfs.block_of_not_loaded (h.not_loaded_ind hi h0)]
    exact hQ s h (.refl s) (fun _ _ => rfl) h0

theorem sfsBmapIndirect_wp (h : s.Sound D P) (hl : s.vol.loaded i) {j : ℕ} (hj : j < 128)
    {Q : ℕ → Sfs → Prop} {E : Errno → Sfs → Prop}
    (hQ : ∀ t, t.Sound D P → s.Keeps t → t.vol.map i (15 + j) ≠ 0 → Q (t.vol.map i (15 + j)) t)
    (hE : ∀ t, t.Sound D P → s.Keeps t → s.vol.map i (15 + j) = 0 → t.Full → E .enospc t) :
    (sfsBmapIndirect i j true).wp c Q E s := by
  have hi := Sfs.inode_of_loaded hl
  unfold sfsBmapIndirect
  rw [wp_bind]
  refine getVnode_wp hl fun v _ _ hv => ?_
  have hv' : v.i.sfiIndirect = s.vol.ind i := by rw [hv, Vol.ind]
  rw [hv', if_neg (by simp), wp_bind]
  refine sfsIdblock_wp h hl (fun t ht hkeeps hmap h0 => ?_) fun h0 hfull => ?_
  · have hlt := hkeeps.loaded hl
    have hit := Sfs.inode_of_loaded hlt
    have hentry : (t.vol.block (t.vol.ind i)).idEntry j = t.vol.map i (15 + j) := by
      rw [Vol.map, if_neg (by omega), if_neg h0, Nat.add_sub_cancel_left]
    have hsame : t.vol.map i (15 + j) = s.vol.map i (15 + j) := hmap _ (by omega)
    simp only [wp_bind, wp_ite, hentry, and_true]
    refine ⟨fun hzero => ?_, fun hne => ?_⟩
    · refine sfsBalloc_wp ht (fun b u hb => ?_) fun hfull => hE t ht hkeeps (hsame ▸ hzero) hfull
      have hlu := hb.keeps.loaded hlt
      have hiu := Sfs.inode_of_loaded hlu
      have hind := (hb.map i hit).1
      have h0u : u.vol.ind i ≠ 0 := by rw [hind]; exact h0
      have hb' : u.vol.ind i ≠ b :=
        ((hb.sound.struct.pending_ne List.mem_cons_self hiu).2.1 h0u).symm
      have hblock : t.vol.block (t.vol.ind i) = u.vol.block (u.vol.ind i) := by
        rw [hb.wrote.of_ne hb', hind]
      have hnot := hb.sound.not_loaded_ind hiu h0u
      rw [hblock, ← hind, hb.sound.mounted.writeblock_wp (hb.sound.struct.indBound i hiu), wp_pure]
      have hw := Sfs.vol_poke ((u.vol.block (u.vol.ind i)).setIdEntry j b) hnot
      have hs := hb.sound.struct.ptrSet_entry hiu h0u hj hb.lt hw
      obtain ⟨hsound, hkeeps', hself⟩ := hb.attach hit (by omega) hzero hs rfl
        (hb.sound.mounted.poke _ hnot (hb.sound.struct.clear_ind hiu h0u)) rfl
      have hkeeps'' := hkeeps.trans hkeeps'
      have hq := hQ _ hsound hkeeps'' (by rw [hself]; exact hb.ne_zero)
      rw [hself] at hq
      rw [hsound.checkMapped_wp (Sfs.inode_of_loaded (hkeeps''.loaded hl)) (by omega) hself]
      exact hq
    · rw [wp_pure, ht.checkMapped_wp hit (by omega) rfl, wp_pure]
      exact hQ t ht hkeeps hne
  · exact hE s h (.refl s) (by rw [Vol.map, if_neg (by omega), if_pos h0]) hfull

/-- With allocation, `sfs_bmap` gives every file block below 143 a disk block, which
the file reads as it did before. -/
theorem sfsBmap_alloc_wp (h : s.Sound D P) (hl : s.vol.loaded i) {Q : ℕ → Sfs → Prop}
    {E : Errno → Sfs → Prop}
    (hQ : ∀ t, t.Sound D P → s.Keeps t → fb < 143 → t.vol.map i fb ≠ 0 → Q (t.vol.map i fb) t)
    (hE : ∀ e t, t.Sound D P → s.Keeps t → s.BmapError t i fb e → E e t) :
    (sfsBmap i fb true).wp c Q E s := by
  unfold sfsBmap
  split_ifs with hlow hbig
  · exact sfsBmapDirect_wp h hl hlow (fun t ht hk h0 => hQ t ht hk (by omega) h0)
      fun h0 hfull => hE _ s h (.refl s) (Or.inl ⟨rfl, h0, hfull⟩)
  · rw [wp_fail]
    exact hE _ s h (.refl s) (Or.inr ⟨rfl, by omega⟩)
  · have hfb : 15 + (fb - 15) % 128 = fb := by omega
    refine sfsBmapIndirect_wp h hl (Nat.mod_lt _ (by decide)) (fun t ht hk h0 => ?_)
      fun t ht hk h0 hfull => ?_
    · rw [hfb] at h0 ⊢
      exact hQ t ht hk (by omega) h0
    · rw [hfb] at h0
      exact hE _ t ht hk (Or.inl ⟨rfl, h0, hfull⟩)

/-- Without allocation it changes nothing. -/
theorem sfsBmap_wp (h : s.Sound D P) (hl : s.vol.loaded i) {Q : ℕ → Sfs → Prop}
    {E : Errno → Sfs → Prop} (hQ : fb < 143 → Q (s.vol.map i fb) s) (hE : 143 ≤ fb → E .efbig s) :
    (sfsBmap i fb false).wp c Q E s := by
  have hi := Sfs.inode_of_loaded hl
  unfold sfsBmap
  split_ifs with hlow hbig
  · unfold sfsBmapDirect
    rw [wp_bind]
    refine getVnode_wp hl fun v _ _ hv => ?_
    have hmap : v.i.sfiDirect fb = s.vol.map i fb := by rw [hv, Vol.map, if_pos hlow]
    rw [hmap, if_neg (by simp)]
    simp only [wp_bind, wp_pure]
    rw [h.checkMapped_wp hi (by omega) rfl]
    exact hQ (by omega)
  · exact hE (by omega)
  · have hmod : (fb - 15) % 128 = fb - 15 := by omega
    unfold sfsBmapIndirect
    rw [wp_bind]
    refine getVnode_wp hl fun v _ _ hv => ?_
    have hv' : v.i.sfiIndirect = s.vol.ind i := by rw [hv, Vol.ind]
    have hq := hQ (by omega)
    by_cases h0 : s.vol.ind i = 0
    · rw [hv', if_pos ⟨h0, rfl⟩, wp_pure]
      rw [Vol.map, if_neg hlow, if_pos h0] at hq
      exact hq
    · rw [hv', if_neg (by simp [h0]), wp_bind, sfsIdblock, if_neg h0]
      simp only [wp_bind, h.mounted.readblock_wp (h.struct.indBound i hi), wp_pure]
      have hentry : (s.dev.sector (s.vol.ind i)).idEntry ((fb - 15) % 128) = s.vol.map i fb := by
        rw [← Sfs.block_of_not_loaded (h.not_loaded_ind hi h0), hmod, Vol.map, if_neg hlow, if_neg h0]
      rw [if_neg (by simp), wp_bind, wp_pure, hentry, wp_bind, h.checkMapped_wp hi (by omega) rfl]
      exact hq

end Os161
