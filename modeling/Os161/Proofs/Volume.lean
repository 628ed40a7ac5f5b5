import Os161.Proofs.Dinode
import Os161.Spec.Volume

/-! How the writes of SFS change a volume: what each of them does to the block maps
and the data of all files at once, and that every used block keeps exactly one
reference. -/

namespace Os161

namespace Vol

variable {V V' : Vol} {P : List ℕ} {i fb v : ℕ}

theorem inode_root (V : Vol) : V.Inode 1 := Or.inl rfl

/-- The blocks are accounted for, with `P` handed out and not referenced yet. -/
structure Struct (V : Vol) (P : List ℕ) : Prop where
  covered : V.nblocks ≤ sfsFreemapbits V.nblocks
  room : 2 + sfsFreemapblocks V.nblocks ≤ V.nblocks
  owned : Owned V.Refs (fun b => b < sfsFreemapbits V.nblocks ∧ V.used b = true) P
  inodeBound : ∀ i, V.Inode i → i < V.nblocks
  indBound : ∀ i, V.Inode i → V.ind i < V.nblocks
  mapBound : ∀ i, V.Inode i → ∀ fb < 143, V.map i fb < V.nblocks
  pending : ∀ b ∈ P, b < V.nblocks ∧ V.block b = Bytes.zero
  dirSize : (V.block 1).sfiSize ≤ 143 * 512

theorem Struct.ne (h : V.Struct P) (r r' : Ref) {b b' : ℕ} (hr : V.Refs r b) (hr' : V.Refs r' b')
    (hne : r ≠ r') : b ≠ b' :=
  fun he => hne (h.owned.unique r r' b hr (he ▸ hr'))

/-- Neither the superblock nor a block of the freemap. -/
def Clear (V : Vol) (b : ℕ) : Prop := b ≠ 0 ∧ ∀ k < sfsFreemapblocks V.nblocks, b ≠ 2 + k

theorem Struct.clear (h : V.Struct P) {r : Ref} {b : ℕ} (hr : V.Refs r b) (hsuper : r ≠ .super)
    (hmap : ∀ k, r ≠ .freemap k) : V.Clear b :=
  ⟨h.ne r .super hr rfl hsuper, fun k hk => h.ne r (.freemap k) hr ⟨hk, rfl⟩ (hmap k)⟩

theorem Struct.clear_inode (h : V.Struct P) (hi : V.Inode i) : V.Clear i :=
  h.clear (r := .inode i) ⟨hi, rfl⟩ (by simp) (by simp)

theorem Struct.clear_ind (h : V.Struct P) (hi : V.Inode i) (h0 : V.ind i ≠ 0) : V.Clear (V.ind i) :=
  h.clear (r := .indirect i) ⟨hi, h0, rfl⟩ (by simp) (by simp)

theorem Struct.clear_map (h : V.Struct P) (hi : V.Inode i) (hfb : fb < 143) (h0 : V.map i fb ≠ 0) :
    V.Clear (V.map i fb) :=
  h.clear (r := .pointer i fb) ⟨hi, hfb, h0, rfl⟩ (by simp) (by simp)

theorem clear_of_not_ref {b : ℕ} (hb : ∀ r, ¬ V.Refs r b) : V.Clear b :=
  ⟨fun he => hb .super he, fun k hk he => hb (.freemap k) ⟨hk, he⟩⟩

theorem Struct.inode_ne_zero (h : V.Struct P) (hi : V.Inode i) : i ≠ 0 :=
  h.ne (.inode i) .super ⟨hi, rfl⟩ rfl (by simp)

theorem Struct.inode_ne_ind (h : V.Struct P) {j : ℕ} (hi : V.Inode i) (hj : V.Inode j)
    (h0 : V.ind j ≠ 0) : i ≠ V.ind j :=
  h.ne (.inode i) (.indirect j) ⟨hi, rfl⟩ ⟨hj, h0, rfl⟩ (by simp)

theorem Struct.inode_ne_map (h : V.Struct P) {j : ℕ} (hi : V.Inode i) (hj : V.Inode j)
    (hfb : fb < 143) (h0 : V.map j fb ≠ 0) : i ≠ V.map j fb :=
  h.ne (.inode i) (.pointer j fb) ⟨hi, rfl⟩ ⟨hj, hfb, h0, rfl⟩ (by simp)

theorem Struct.ind_ne_map (h : V.Struct P) {j : ℕ} (hi : V.Inode i) (hi0 : V.ind i ≠ 0) (hj : V.Inode j)
    (hfb : fb < 143) (h0 : V.map j fb ≠ 0) : V.ind i ≠ V.map j fb :=
  h.ne (.indirect i) (.pointer j fb) ⟨hi, hi0, rfl⟩ ⟨hj, hfb, h0, rfl⟩ (by simp)

theorem Struct.ind_ne_ind (h : V.Struct P) {j : ℕ} (hi : V.Inode i) (hi0 : V.ind i ≠ 0) (hj : V.Inode j)
    (hj0 : V.ind j ≠ 0) (hij : i ≠ j) : V.ind i ≠ V.ind j :=
  h.ne (.indirect i) (.indirect j) ⟨hi, hi0, rfl⟩ ⟨hj, hj0, rfl⟩ (by simpa using hij)

theorem Struct.map_ne_map (h : V.Struct P) {j fb' : ℕ} (hi : V.Inode i) (hfb : fb < 143)
    (hi0 : V.map i fb ≠ 0) (hj : V.Inode j) (hfb' : fb' < 143) (hj0 : V.map j fb' ≠ 0)
    (hne : ¬ (i = j ∧ fb = fb')) : V.map i fb ≠ V.map j fb' :=
  h.ne (.pointer i fb) (.pointer j fb') ⟨hi, hfb, hi0, rfl⟩ ⟨hj, hfb', hj0, rfl⟩
    (by simpa using hne)

/-- A block that nothing refers to is none of the blocks of a file. -/
theorem ne_of_not_ref {b : ℕ} (hb : ∀ r, ¬ V.Refs r b) {j : ℕ}
    (hj : V.Inode j) : b ≠ j ∧ (V.ind j ≠ 0 → b ≠ V.ind j) ∧
      ∀ fb < 143, V.map j fb ≠ 0 → b ≠ V.map j fb :=
  ⟨fun he => hb (.inode j) ⟨hj, he⟩, fun h0 he => hb (.indirect j) ⟨hj, he ▸ h0, he⟩,
    fun fb hfb h0 he => hb (.pointer j fb) ⟨hj, hfb, he ▸ h0, he⟩⟩

theorem Struct.pending_ne (h : V.Struct P) {b : ℕ} (hb : b ∈ P) {j : ℕ} (hj : V.Inode j) :
    b ≠ j ∧ (V.ind j ≠ 0 → b ≠ V.ind j) ∧ ∀ fb < 143, V.map j fb ≠ 0 → b ≠ V.map j fb :=
  ne_of_not_ref (h.owned.apart b hb) hj

theorem Struct.used_map (h : V.Struct P) (hi : V.Inode i) (hfb : fb < 143) (h0 : V.map i fb ≠ 0) :
    V.map i fb < sfsFreemapbits V.nblocks ∧ V.used (V.map i fb) = true :=
  (h.owned.exact _).mpr (Or.inl ⟨.pointer i fb, hi, hfb, h0, rfl⟩)

theorem Struct.used_ind (h : V.Struct P) (hi : V.Inode i) (h0 : V.ind i ≠ 0) :
    V.ind i < sfsFreemapbits V.nblocks ∧ V.used (V.ind i) = true :=
  (h.owned.exact _).mpr (Or.inl ⟨.indirect i, hi, h0, rfl⟩)

/-! ### Changing one block -/

/-- `V'` is `V` with `x` in block `c`; what is marked used may differ. -/
structure Wrote (V V' : Vol) (c : ℕ) (x : Block) : Prop where
  nblocks : V'.nblocks = V.nblocks
  loaded : V'.loaded = V.loaded
  block : V'.block = Function.update V.block c x

theorem Wrote.self {c : ℕ} {x : Block} (h : V.Wrote V' c x) : V'.block c = x := by
  rw [h.block, Function.update_self]

theorem Wrote.of_ne {b c : ℕ} {x : Block} (h : V.Wrote V' c x) (hb : b ≠ c) : V'.block b = V.block b := by
  rw [h.block, Function.update_of_ne hb]

/-- The block map of a file depends only on its inode and its indirect block. -/
theorem map_congr (hi : (V.block i).SamePointers (V'.block i))
    (hind : V.ind i ≠ 0 → V'.block (V.ind i) = V.block (V.ind i)) :
    V'.ind i = V.ind i ∧ ∀ fb, V'.map i fb = V.map i fb := by
  have h1 : V'.ind i = V.ind i := hi.indirect
  refine ⟨h1, fun fb => ?_⟩
  unfold map
  rw [h1, hi.direct]
  by_cases h0 : V.ind i = 0
  · simp [h0]
  · rw [hind h0]

theorem data_congr (hmap : V'.map i fb = V.map i fb)
    (hb : V.map i fb ≠ 0 → V'.block (V.map i fb) = V.block (V.map i fb)) :
    V'.data i fb = V.data i fb := by
  unfold data
  rw [hmap]
  split_ifs with h0
  · rfl
  · exact hb h0

/-! ### Volumes with the same contents -/

/-- The two volumes have the same files, with the same sizes, types, link counts and
data. -/
structure Same (V V' : Vol) : Prop where
  nblocks : V'.nblocks = V.nblocks
  loaded : V'.loaded = V.loaded
  inode : ∀ i, V'.Inode i ↔ V.Inode i
  head : ∀ i, V.Inode i → (V.block i).SameHead (V'.block i)
  data : ∀ i, V.Inode i → ∀ fb < 143, V'.data i fb = V.data i fb

theorem Same.refl (V : Vol) : V.Same V :=
  ⟨rfl, rfl, fun _ => Iff.rfl, fun _ _ => .refl _, fun _ _ _ _ => rfl⟩

theorem Same.trans {V'' : Vol} (h : V.Same V') (h' : V'.Same V'') : V.Same V'' where
  nblocks := h'.nblocks.trans h.nblocks
  loaded := h'.loaded.trans h.loaded
  inode i := (h'.inode i).trans (h.inode i)
  head i hi := (h.head i hi).trans (h'.head i ((h.inode i).mpr hi))
  data i hi fb hfb := (h'.data i ((h.inode i).mpr hi) fb hfb).trans (h.data i hi fb hfb)

theorem slot_lt (hsize : (V.block 1).sfiSize ≤ 143 * 512) {k : ℕ} (hk : k < V.nslots) : k / 8 < 143 := by
  unfold nslots at hk
  omega

/-- The directory depends only on the size and the data of the root. -/
theorem slot_congr {k : ℕ} (hdata : V'.data 1 (k / 8) = V.data 1 (k / 8)) : V'.slot k = V.slot k := by
  rw [slot, slot, hdata]

theorem inode_congr (hsize : (V'.block 1).sfiSize = (V.block 1).sfiSize) (hl : V'.loaded = V.loaded)
    (hslot : ∀ k < V.nslots, V'.slot k = V.slot k) (i : ℕ) : V'.Inode i ↔ V.Inode i := by
  have hn : V'.nslots = V.nslots := by rw [nslots, nslots, hsize]
  unfold Inode
  rw [hn, hl]
  constructor
  · rintro (h | h | ⟨k, hk, h0, h⟩)
    · exact Or.inl h
    · exact Or.inr (Or.inl h)
    · exact Or.inr (Or.inr ⟨k, hk, h0, hslot k hk ▸ h⟩)
  · rintro (h | h | ⟨k, hk, h0, h⟩)
    · exact Or.inl h
    · exact Or.inr (Or.inl h)
    · exact Or.inr (Or.inr ⟨k, hk, h0, (hslot k hk).symm ▸ h⟩)

theorem same_of_views (hsize : (V.block 1).sfiSize ≤ 143 * 512) (hn : V'.nblocks = V.nblocks)
    (hl : V'.loaded = V.loaded) (hhead : ∀ i, V.Inode i → (V.block i).SameHead (V'.block i))
    (hdata : ∀ i, V.Inode i → ∀ fb < 143, V'.data i fb = V.data i fb) : V.Same V' :=
  ⟨hn, hl, inode_congr (hhead 1 V.inode_root).size hl fun _ hk =>
    slot_congr (hdata 1 V.inode_root _ (slot_lt hsize hk)), hhead, hdata⟩

/-! ### The accounting -/

/-- A reference is to the same block as before if the pointer behind it is. -/
theorem refs_congr (hn : V'.nblocks = V.nblocks) (hin : ∀ i, V'.Inode i ↔ V.Inode i) {r : Ref}
    (hind : ∀ i, r = .indirect i → V.Inode i → V'.ind i = V.ind i)
    (hmap : ∀ i fb, r = .pointer i fb → V.Inode i → fb < 143 → V'.map i fb = V.map i fb) (b : ℕ) :
    V'.Refs r b ↔ V.Refs r b := by
  cases r with
  | super => rfl
  | freemap k | pastEnd => simp only [Refs, hn]
  | inode i => simp only [Refs, hin]
  | indirect i =>
    simp only [Refs, hin]
    refine and_congr_right fun hi => ?_
    rw [hind i rfl hi]
  | pointer i fb =>
    simp only [Refs, hin]
    refine and_congr_right fun hi => and_congr_right fun hfb => ?_
    rw [hmap i fb rfl hi hfb]

theorem Struct.rebuild (h : V.Struct P) {P' : List ℕ} (hn : V'.nblocks = V.nblocks)
    (hin : ∀ i, V'.Inode i → V.Inode i)
    (hown : Owned V'.Refs (fun b => b < sfsFreemapbits V.nblocks ∧ V'.used b = true) P')
    (hind : ∀ i, V.Inode i → V'.ind i = V.ind i ∨ V'.ind i < V.nblocks)
    (hmap : ∀ i, V.Inode i → ∀ fb < 143, V'.map i fb = V.map i fb ∨ V'.map i fb < V.nblocks)
    (hpend : ∀ b ∈ P', (b ∈ P ∧ V'.block b = V.block b) ∨ (b < V.nblocks ∧ V'.block b = Bytes.zero))
    (hsize : (V'.block 1).sfiSize = (V.block 1).sfiSize ∨ (V'.block 1).sfiSize ≤ 143 * 512) : V'.Struct P' where
  covered := hn ▸ h.covered
  room := hn ▸ h.room
  owned := hn ▸ hown
  inodeBound i hi := hn ▸ h.inodeBound i (hin i hi)
  indBound i hi := hn ▸ (hind i (hin i hi)).elim (fun he => he ▸ h.indBound i (hin i hi)) id
  mapBound i hi fb hfb := hn ▸ (hmap i (hin i hi) fb hfb).elim (fun he => he ▸ h.mapBound i (hin i hi) fb hfb) id
  pending b hb := hn ▸ (hpend b hb).elim (fun hb => hb.2 ▸ h.pending b hb.1) id
  dirSize := hsize.elim (fun he => he ▸ h.dirSize) id

/-- The accounting is kept by a change that touches no pointer. -/
theorem Struct.congr (h : V.Struct P) (hn : V'.nblocks = V.nblocks) (hu : V'.used = V.used)
    (hin : ∀ i, V'.Inode i ↔ V.Inode i) (hind : ∀ i, V.Inode i → V'.ind i = V.ind i)
    (hmap : ∀ i, V.Inode i → ∀ fb < 143, V'.map i fb = V.map i fb)
    (hpend : ∀ b ∈ P, V'.block b = V.block b) (hsize : (V'.block 1).sfiSize ≤ 143 * 512) :
    V'.Struct P := by
  refine h.rebuild hn (fun i => (hin i).mp) ?_ (fun i hi => .inl (hind i hi)) (fun i hi fb hfb => .inl (hmap i hi fb hfb))
    (fun b hb => .inl ⟨hb, hpend b hb⟩) (.inr hsize)
  rw [hu]
  exact h.owned.congr (fun r => refs_congr hn hin (fun i _ => hind i) fun i fb _ hi => hmap i hi fb) fun _ => Iff.rfl

/-- A write to a block that is no part of any file. -/
theorem Struct.same_of_wrote (h : V.Struct P) {c : ℕ} {x : Block} (hw : V.Wrote V' c x)
    (hc : ∀ r, ¬ V.Refs r c) :
    V.Same V' ∧ ∀ i, V.Inode i → V'.ind i = V.ind i ∧ ∀ fb, V'.map i fb = V.map i fb := by
  have hne {i : ℕ} (hi : V.Inode i) := ne_of_not_ref hc hi
  have hmap (i : ℕ) (hi : V.Inode i) : V'.ind i = V.ind i ∧ ∀ fb, V'.map i fb = V.map i fb := by
    apply map_congr
    · rw [hw.of_ne (hne hi).1.symm]
      exact ⟨rfl, fun _ => rfl⟩
    · exact fun h0 => hw.of_ne ((hne hi).2.1 h0).symm
  refine ⟨same_of_views h.dirSize hw.nblocks hw.loaded ?_ ?_, hmap⟩
  · intro i hi
    rw [hw.of_ne (hne hi).1.symm]
    exact .refl _
  · intro i hi fb hfb
    exact data_congr ((hmap i hi).2 fb) fun h0 => hw.of_ne ((hne hi).2.2 fb hfb h0).symm

theorem Struct.wrote_unused (h : V.Struct P) {c : ℕ} {x : Block} (hw : V.Wrote V' c x)
    (hc : V.used c = false) (hu : V'.used = V.used) :
    V'.Struct P ∧ V.Same V' ∧ ∀ i, V.Inode i → V'.ind i = V.ind i ∧ ∀ fb, V'.map i fb = V.map i fb := by
  have hfree : ¬ (c < sfsFreemapbits V.nblocks ∧ V.used c = true) := by simp [hc]
  obtain ⟨hsame, hmap⟩ := h.same_of_wrote hw (h.owned.not_ref_of_unused hfree)
  refine ⟨h.congr hw.nblocks hu hsame.inode (fun i hi => (hmap i hi).1) (fun i hi fb _ => (hmap i hi).2 fb)
    (fun b hb => hw.of_ne fun he => hfree ((h.owned.exact c).mpr (Or.inr (he ▸ hb)))) ?_, hsame, hmap⟩
  rw [(hsame.head 1 V.inode_root).size]
  exact h.dirSize

/-- An unused block is handed out, cleared. -/
theorem Struct.alloc (h : V.Struct P) {b : ℕ} (hb : b < V.nblocks) (hu : V.used b = false)
    (hw : V.Wrote V' b Bytes.zero) (hu' : V'.used = Function.update V.used b true) :
    V'.Struct (b :: P) ∧ V.Same V' ∧
      ∀ i, V.Inode i → V'.ind i = V.ind i ∧ ∀ fb, V'.map i fb = V.map i fb := by
  have hfree : ¬ (b < sfsFreemapbits V.nblocks ∧ V.used b = true) := by simp [hu]
  obtain ⟨hsame, hmap⟩ := h.same_of_wrote hw (h.owned.not_ref_of_unused hfree)
  have hown : Owned V.Refs (fun x => x < sfsFreemapbits V.nblocks ∧ V'.used x = true) (b :: P) := by
    refine h.owned.alloc hfree fun x => ?_
    have hcov := h.covered
    rw [hu']
    by_cases hx : x = b
    · simp only [hx, Function.update_self]
      simpa using by omega
    · simp [hx]
  refine ⟨h.rebuild hw.nblocks (fun i => (hsame.inode i).mp) ?_ (fun i hi => .inl (hmap i hi).1)
    (fun i hi fb _ => .inl ((hmap i hi).2 fb)) (fun x hx => ?_) (.inl (hsame.head 1 V.inode_root).size), hsame, hmap⟩
  · exact hown.congr (fun r => refs_congr hw.nblocks hsame.inode (fun i _ hi => (hmap i hi).1)
      fun i fb _ hi _ => (hmap i hi).2 fb) fun _ => Iff.rfl
  · rcases List.mem_cons.mp hx with rfl | hx
    · exact .inr ⟨hb, hw.self⟩
    · exact .inl ⟨hx, hw.of_ne fun he => (List.nodup_cons.mp hown.nodup).1 (he ▸ hx)⟩

/-! ### Changing one pointer -/

/-- `V'` is `V` with the pointer of file block `fb` of file `i` set to `v`, wherever
that pointer is. -/
structure PtrSet (V V' : Vol) (i fb v : ℕ) : Prop where
  nblocks : V'.nblocks = V.nblocks
  loaded : V'.loaded = V.loaded
  head : ∀ j, V.Inode j → (V.block j).SameHead (V'.block j)
  ind : ∀ j, V.Inode j → V'.ind j = V.ind j
  map : ∀ j, V.Inode j → ∀ fb', V'.map j fb' = if j = i ∧ fb' = fb then v else V.map j fb'
  other : ∀ b, (∀ j, V.Inode j → b ≠ j ∧ (V.ind j ≠ 0 → b ≠ V.ind j)) → V'.block b = V.block b

theorem Struct.ptrSet_direct (h : V.Struct P) (hi : V.Inode i) (hfb : fb < 15) (hv : v < 4294967296)
    (hw : V.Wrote V' i ((V.block i).setSfiDirect fb v)) : V.PtrSet V' i fb v := by
  have hind : V'.ind i = V.ind i := by
    rw [ind, hw.self, Bytes.sfiIndirect_setSfiDirect hfb, ind]
  have hother {j : ℕ} (hj : V.Inode j) (hne : j ≠ i) :
      V'.ind j = V.ind j ∧ ∀ fb, V'.map j fb = V.map j fb := by
    apply map_congr
    · rw [hw.of_ne hne]
      exact ⟨rfl, fun _ => rfl⟩
    · exact fun h0 => hw.of_ne (h.inode_ne_ind hi hj h0).symm
  refine ⟨hw.nblocks, hw.loaded, fun j hj => ?_, fun j hj => ?_, fun j hj fb' => ?_, fun b hb => ?_⟩
  · by_cases hji : j = i
    · rw [hji, hw.self]
      exact Bytes.sameHead_setNum (by omega) v
    · rw [hw.of_ne hji]
      exact .refl _
  · by_cases hji : j = i
    · rw [hji, hind]
    · exact (hother hj hji).1
  · by_cases hji : j = i
    · subst hji
      unfold Vol.map
      rw [hind, hw.self, Bytes.sfiDirect_setSfiDirect hfb hv]
      by_cases h0 : V.ind j = 0
      · simp only [h0, if_true, true_and]
        split_ifs <;> first | rfl | omega
      · rw [hw.of_ne (h.inode_ne_ind hi hj h0).symm]
        simp only [true_and]
        split_ifs <;> first | rfl | omega
    · rw [(hother hj hji).2, if_neg (by simp [hji])]
  · exact hw.of_ne (hb i hi).1

theorem Struct.ptrSet_entry (h : V.Struct P) (hi : V.Inode i) (h0 : V.ind i ≠ 0) {j : ℕ} (hj : j < 128)
    (hv : v < 4294967296) (hw : V.Wrote V' (V.ind i) ((V.block (V.ind i)).setIdEntry j v)) :
    V.PtrSet V' i (15 + j) v := by
  have hinode {l : ℕ} (hl : V.Inode l) : V'.block l = V.block l := hw.of_ne (h.inode_ne_ind hl hi h0)
  have hind {l : ℕ} (hl : V.Inode l) : V'.ind l = V.ind l := by rw [ind, ind, hinode hl]
  refine ⟨hw.nblocks, hw.loaded, fun l hl => ?_, fun l hl => hind hl, fun l hl fb' => ?_, fun b hb => ?_⟩
  · rw [hinode hl]
    exact .refl _
  · by_cases hli : l = i
    · subst hli
      unfold Vol.map
      rw [hind hl, hinode hl, hw.self, Bytes.idEntry_setIdEntry hj hv]
      simp only [h0, if_false, true_and]
      split_ifs <;> first | rfl | omega
    · have hmap : V'.map l fb' = V.map l fb' := by
        refine (map_congr ?_ fun hl0 => ?_).2 fb'
        · rw [hinode hl]
          exact ⟨rfl, fun _ => rfl⟩
        · exact hw.of_ne (h.ind_ne_ind hl hl0 hi h0 hli)
      rw [hmap, if_neg (by simp [hli])]
  · exact hw.of_ne ((hb i hi).2 h0)

theorem PtrSet.map_self (hs : V.PtrSet V' i fb v) (hi : V.Inode i) : V'.map i fb = v := by
  rw [hs.map i hi, if_pos ⟨rfl, rfl⟩]

theorem PtrSet.map_of_ne (hs : V.PtrSet V' i fb v) {j fb' : ℕ} (hj : V.Inode j)
    (hne : ¬ (j = i ∧ fb' = fb)) : V'.map j fb' = V.map j fb' := by
  rw [hs.map j hj, if_neg hne]

/-- The data blocks stay as they are when a pointer changes. -/
theorem PtrSet.block_map (hs : V.PtrSet V' i fb v) (h : V.Struct P) {j fb' : ℕ} (hj : V.Inode j)
    (hfb' : fb' < 143) (h0 : V.map j fb' ≠ 0) : V'.block (V.map j fb') = V.block (V.map j fb') :=
  hs.other _ fun _ hl => ⟨(h.inode_ne_map hl hj hfb' h0).symm,
    fun hl0 => (h.ind_ne_map hl hl0 hj hfb' h0).symm⟩

theorem PtrSet.block_pending (hs : V.PtrSet V' i fb v) (h : V.Struct P) {b : ℕ} (hb : b ∈ P) :
    V'.block b = V.block b :=
  hs.other b fun _ hj => ⟨(h.pending_ne hb hj).1, (h.pending_ne hb hj).2.1⟩

/-- `V'` is `V` with `x` in file block `fb` of file `i`. -/
structure SetData (V V' : Vol) (i fb : ℕ) (x : Block) : Prop where
  nblocks : V'.nblocks = V.nblocks
  loaded : V'.loaded = V.loaded
  inode : ∀ j, V'.Inode j ↔ V.Inode j
  head : ∀ j, V.Inode j → (V.block j).SameHead (V'.block j)
  data : ∀ j, V.Inode j → ∀ fb' < 143, V'.data j fb' = if j = i ∧ fb' = fb then x else V.data j fb'

/-- A hole gets a pending block. -/
theorem Struct.attach (h : V.Struct (v :: P)) (hi : V.Inode i) (hfb : fb < 143) (h0 : V.map i fb = 0)
    (hs : V.PtrSet V' i fb v) (hu : V'.used = V.used) : V'.Struct P ∧ V.Same V' := by
  have hpend := h.pending v List.mem_cons_self
  have hv0 : v ≠ 0 := fun hv => h.owned.apart v List.mem_cons_self .super hv
  have hsame : V.Same V' := by
    refine same_of_views h.dirSize hs.nblocks hs.loaded hs.head fun j hj fb' hfb' => ?_
    by_cases hji : j = i ∧ fb' = fb
    · obtain ⟨rfl, rfl⟩ := hji
      rw [data, data, hs.map_self hj, if_neg hv0, if_pos h0,
        hs.block_pending h List.mem_cons_self, hpend.2]
    · exact data_congr (hs.map_of_ne hj hji) (hs.block_map h hj hfb')
  refine ⟨h.rebuild hs.nblocks (fun j => (hsame.inode j).mp) ?_ (fun j hj => .inl (hs.ind j hj)) (fun j hj fb' _ => ?_)
    (fun b hb => .inl ⟨List.mem_cons_of_mem v hb, hs.block_pending h (List.mem_cons_of_mem v hb)⟩)
    (.inl (hs.head 1 V.inode_root).size), hsame⟩
  · rw [hu]
    refine h.owned.attach (r := .pointer i fb) (fun r hr => ?_) (fun b hb => ?_) fun b => ?_
    · refine refs_congr hs.nblocks hsame.inode (fun j _ => hs.ind j) fun j fb' he hj _ => hs.map_of_ne hj fun hji => hr ?_
      rw [he, hji.1, hji.2]
    · exact hb.2.2.1 (hb.2.2.2.trans h0)
    · simp only [Refs, hsame.inode, hi, hfb, hs.map_self hi, true_and]
      exact ⟨fun hb => hb.2, fun hb => ⟨hb ▸ hv0, hb⟩⟩
  · rw [hs.map j hj]
    split_ifs
    · exact .inr hpend.1
    · exact .inl rfl

/-- A block of a file that is not the directory is given back. -/
theorem Struct.detach (h : V.Struct P) (hi : V.Inode i) (hroot : i ≠ 1) (hfb : fb < 143)
    (hb : V.map i fb ≠ 0) (hs : V.PtrSet V' i fb 0)
    (hu : V'.used = Function.update V.used (V.map i fb) false) :
    V'.Struct P ∧ V.SetData V' i fb Bytes.zero := by
  have hdata (j : ℕ) (hj : V.Inode j) (fb' : ℕ) (hfb' : fb' < 143) :
      V'.data j fb' = if j = i ∧ fb' = fb then Bytes.zero else V.data j fb' := by
    split_ifs with hji
    · obtain ⟨rfl, rfl⟩ := hji
      rw [data, hs.map_self hj, if_pos rfl]
    · exact data_congr (hs.map_of_ne hj hji) (hs.block_map h hj hfb')
  have hin : ∀ j, V'.Inode j ↔ V.Inode j := by
    apply inode_congr (hs.head 1 V.inode_root).size hs.loaded
    intro k hk
    apply slot_congr
    rw [hdata 1 V.inode_root _ (slot_lt h.dirSize hk), if_neg (by simp [Ne.symm hroot])]
  refine ⟨h.rebuild hs.nblocks (fun j => (hin j).mp) ?_ (fun j hj => .inl (hs.ind j hj)) (fun j hj fb' _ => ?_)
    (fun b hb => .inl ⟨hb, hs.block_pending h hb⟩) (.inl (hs.head 1 V.inode_root).size),
    hs.nblocks, hs.loaded, hin, hs.head, hdata⟩
  · refine h.owned.free (r := .pointer i fb) ⟨hi, hfb, hb, rfl⟩ (fun x hx => hx.2.2.2) (fun r hr => ?_)
      (fun b hb => hb.2.2.1 (hb.2.2.2.trans (hs.map_self hi))) fun x => ?_
    · refine refs_congr hs.nblocks hin (fun j _ => hs.ind j) fun j fb' he hj _ => hs.map_of_ne hj fun hji => hr ?_
      rw [he, hji.1, hji.2]
    · rw [hu]
      by_cases hx : x = V.map i fb <;> simp [hx]
  · have hpos := h.inodeBound j hj
    rw [hs.map j hj]
    split_ifs
    · exact .inr (by omega)
    · exact .inl rfl

/-! ### The indirect block -/

/-- Setting the indirect pointer of a file changes no file block, if the indirect
blocks before and after have no entries. -/
theorem Struct.indSet (h : V.Struct P) (hi : V.Inode i) (hv : v < 4294967296)
    (hbefore : ∀ j < 128, V.map i (15 + j) = 0) (hafter : v ≠ 0 → v ≠ i ∧ V.block v = Bytes.zero)
    (hw : V.Wrote V' i ((V.block i).setSfiIndirect v)) :
    (∀ j, V.Inode j → V'.ind j = if j = i then v else V.ind j) ∧
      (∀ j, V.Inode j → ∀ fb < 143, V'.map j fb = V.map j fb) ∧ V.Same V' := by
  have hother {j : ℕ} (hj : V.Inode j) (hne : j ≠ i) :
      V'.ind j = V.ind j ∧ ∀ fb, V'.map j fb = V.map j fb := by
    apply map_congr
    · rw [hw.of_ne hne]
      exact ⟨rfl, fun _ => rfl⟩
    · exact fun h0 => hw.of_ne (h.inode_ne_ind hi hj h0).symm
  have hself : V'.ind i = v := by rw [ind, hw.self, Bytes.sfiIndirect_setSfiIndirect hv]
  have hmap : ∀ j, V.Inode j → ∀ fb < 143, V'.map j fb = V.map j fb := by
    intro j hj fb hfb
    by_cases hji : j = i
    · subst hji
      by_cases hlow : fb < 15
      · rw [map, map, if_pos hlow, if_pos hlow, hw.self, Bytes.sfiDirect_setSfiIndirect hlow]
      · have hzero := hbefore (fb - 15) (by omega)
        rw [show 15 + (fb - 15) = fb by omega] at hzero
        rw [hzero, map, if_neg hlow, hself]
        split_ifs with h0
        · rfl
        · rw [hw.of_ne (hafter h0).1, (hafter h0).2, Bytes.idEntry_zero]
    · exact (hother hj hji).2 fb
  refine ⟨fun j hj => ?_, hmap, same_of_views h.dirSize hw.nblocks hw.loaded (fun j hj => ?_)
    fun j hj fb hfb => data_congr (hmap j hj fb hfb) fun h0 =>
      hw.of_ne (h.inode_ne_map hi hj hfb h0).symm⟩
  · split_ifs with hji
    · rw [hji, hself]
    · exact (hother hj hji).1
  · by_cases hji : j = i
    · rw [hji, hw.self]
      exact Bytes.sameHead_setNum (by omega) v
    · rw [hw.of_ne hji]
      exact .refl _

/-- A pending block becomes the indirect block of a file. -/
theorem Struct.attachInd (h : V.Struct (v :: P)) (hi : V.Inode i) (h0 : V.ind i = 0)
    (hv : v < 4294967296) (hw : V.Wrote V' i ((V.block i).setSfiIndirect v)) (hu : V'.used = V.used) :
    V'.Struct P ∧ V.Same V' ∧ (∀ fb < 143, V'.map i fb = V.map i fb) ∧ V'.ind i = v ∧
      V'.block v = Bytes.zero := by
  have hpend := h.pending v List.mem_cons_self
  have hvi := (h.pending_ne List.mem_cons_self hi).1
  have hv0 : v ≠ 0 := fun hv => h.owned.apart v List.mem_cons_self .super hv
  obtain ⟨hind, hmap, hsame⟩ := h.indSet hi hv
    (fun j _ => by rw [map, if_neg (by omega), if_pos h0]) (fun _ => ⟨hvi, hpend.2⟩) hw
  have hself : V'.ind i = v := by rw [hind i hi, if_pos rfl]
  refine ⟨h.rebuild hw.nblocks (fun j => (hsame.inode j).mp) ?_ (fun j hj => ?_) (fun j hj fb hfb => .inl (hmap j hj fb hfb))
    (fun b hb => .inl ⟨List.mem_cons_of_mem v hb, hw.of_ne (h.pending_ne (List.mem_cons_of_mem v hb) hi).1⟩)
    (.inl (hsame.head 1 V.inode_root).size), hsame, hmap i hi, hself, by rw [hw.of_ne hvi]; exact hpend.2⟩
  · rw [hu]
    refine h.owned.attach (r := .indirect i) (fun r hr => ?_) (fun b hb => hb.2.1 (hb.2.2.trans h0)) fun b => ?_
    · refine refs_congr hw.nblocks hsame.inode (fun j he hj => ?_) fun j fb _ hj => hmap j hj fb
      have hji : j ≠ i := fun hji => hr (hji ▸ he)
      rw [hind j hj, if_neg hji]
    · simp only [Refs, hsame.inode, hi, hself, true_and]
      exact ⟨fun hb => hb.2, fun hb => ⟨hb ▸ hv0, hb⟩⟩
  · rw [hind j hj]
    split_ifs
    · exact .inr hpend.1
    · exact .inl rfl

/-- An indirect block without entries is given back. -/
theorem Struct.detachInd (h : V.Struct P) (hi : V.Inode i) (h0 : V.ind i ≠ 0)
    (hempty : ∀ j < 128, (V.block (V.ind i)).idEntry j = 0)
    (hw : V.Wrote V' i ((V.block i).setSfiIndirect 0))
    (hu : V'.used = Function.update V.used (V.ind i) false) :
    V'.Struct P ∧ V.Same V' ∧ ∀ fb < 143, V'.map i fb = V.map i fb := by
  obtain ⟨hind, hmap, hsame⟩ := h.indSet hi (by omega) (fun j hj => by
    rw [map, if_neg (by omega), if_neg h0, Nat.add_sub_cancel_left, hempty j hj])
    (fun hne => absurd rfl hne) hw
  refine ⟨h.rebuild hw.nblocks (fun j => (hsame.inode j).mp) ?_ (fun j hj => ?_) (fun j hj fb hfb => .inl (hmap j hj fb hfb))
    (fun b hb => .inl ⟨hb, hw.of_ne (h.pending_ne hb hi).1⟩) (.inl (hsame.head 1 V.inode_root).size), hsame, hmap i hi⟩
  · refine h.owned.free (r := .indirect i) ⟨hi, h0, rfl⟩ (fun x hx => hx.2.2) (fun r hr => ?_) (fun b hb => ?_) fun x => ?_
    · refine refs_congr hw.nblocks hsame.inode (fun j he hj => ?_) fun j fb _ hj => hmap j hj fb
      have hji : j ≠ i := fun hji => hr (hji ▸ he)
      rw [hind j hj, if_neg hji]
    · exact hb.2.1 (hb.2.2.trans ((hind i hi).trans (if_pos rfl)))
    · rw [hu]
      by_cases hx : x = V.ind i <;> simp [hx]
  · have hpos := h.inodeBound j hj
    rw [hind j hj]
    split_ifs
    · exact .inr (by omega)
    · exact .inl rfl

/-! ### Data and inode fields -/

/-- A write to a data block of a file shows in that block of that file only. -/
theorem Struct.wrote_data (h : V.Struct P) (hi : V.Inode i) (hfb : fb < 143) (h0 : V.map i fb ≠ 0)
    {x : Block} (hw : V.Wrote V' (V.map i fb) x) :
    (∀ j, V.Inode j → V'.block j = V.block j) ∧ (∀ j, V.Inode j → V'.ind j = V.ind j) ∧
    (∀ j, V.Inode j → ∀ fb, V'.map j fb = V.map j fb) ∧
    ∀ j, V.Inode j → ∀ fb' < 143, V'.data j fb' = if j = i ∧ fb' = fb then x else V.data j fb' := by
  have hinode (j : ℕ) (hj : V.Inode j) : V'.block j = V.block j :=
    hw.of_ne (h.inode_ne_map hj hi hfb h0)
  have hmap (j : ℕ) (hj : V.Inode j) : V'.ind j = V.ind j ∧ ∀ fb, V'.map j fb = V.map j fb := by
    apply map_congr
    · rw [hinode j hj]
      exact ⟨rfl, fun _ => rfl⟩
    · exact fun hj0 => hw.of_ne (h.ind_ne_map hj hj0 hi hfb h0)
  refine ⟨hinode, fun j hj => (hmap j hj).1, fun j hj => (hmap j hj).2, fun j hj fb' hfb' => ?_⟩
  split_ifs with hji
  · obtain ⟨rfl, rfl⟩ := hji
    rw [data, (hmap j hj).2, if_neg h0, hw.self]
  · exact data_congr ((hmap j hj).2 fb') fun hj0 =>
      hw.of_ne (h.map_ne_map hj hfb' hj0 hi hfb h0 hji)

theorem Struct.writeData (h : V.Struct P) (hi : V.Inode i) (hfb : fb < 143) (h0 : V.map i fb ≠ 0)
    {x : Block} (hw : V.Wrote V' (V.map i fb) x) (hu : V'.used = V.used)
    (hin : ∀ j, V'.Inode j ↔ V.Inode j) : V'.Struct P ∧ V.SetData V' i fb x := by
  obtain ⟨hinode, hind, hmap, hdata⟩ := h.wrote_data hi hfb h0 hw
  refine ⟨h.congr hw.nblocks hu hin hind (fun j hj fb _ => hmap j hj fb) (fun b hb => ?_) ?_,
    hw.nblocks, hw.loaded, hin, fun j hj => ?_, hdata⟩
  · exact hw.of_ne ((h.pending_ne hb hi).2.2 fb hfb h0)
  · rw [hinode 1 V.inode_root]
    exact h.dirSize
  · rw [hinode j hj]
    exact .refl _

/-- The inodes stay the same when the file is not the directory. -/
theorem Struct.inode_wrote_data (h : V.Struct P) (hi : V.Inode i) (hroot : i ≠ 1) (hfb : fb < 143)
    (h0 : V.map i fb ≠ 0) {x : Block} (hw : V.Wrote V' (V.map i fb) x) (j : ℕ) :
    V'.Inode j ↔ V.Inode j := by
  obtain ⟨hinode, -, -, hdata⟩ := h.wrote_data hi hfb h0 hw
  refine inode_congr (by rw [hinode 1 V.inode_root]) hw.loaded (fun k hk => slot_congr ?_) j
  rw [hdata 1 V.inode_root _ (slot_lt h.dirSize hk), if_neg (by simp [Ne.symm hroot])]

/-- A write to the fields of an inode that are no pointers changes no data. -/
theorem Struct.wrote_head (h : V.Struct P) (hi : V.Inode i) {x : Block} (hw : V.Wrote V' i x)
    (hx : (V.block i).SamePointers x) :
    (∀ j, V.Inode j → V'.ind j = V.ind j) ∧ (∀ j, V.Inode j → ∀ fb, V'.map j fb = V.map j fb) ∧
    ∀ j, V.Inode j → ∀ fb < 143, V'.data j fb = V.data j fb := by
  have hmap (j : ℕ) (hj : V.Inode j) : V'.ind j = V.ind j ∧ ∀ fb, V'.map j fb = V.map j fb := by
    apply map_congr
    · by_cases hji : j = i
      · rw [hji, hw.self]
        exact hx
      · rw [hw.of_ne hji]
        exact ⟨rfl, fun _ => rfl⟩
    · exact fun hj0 => hw.of_ne (h.inode_ne_ind hi hj hj0).symm
  exact ⟨fun j hj => (hmap j hj).1, fun j hj => (hmap j hj).2, fun j hj fb hfb =>
    data_congr ((hmap j hj).2 fb) fun hj0 => hw.of_ne (h.inode_ne_map hi hj hfb hj0).symm⟩

/-- `V'` is `V` with the fields of `x` in inode `i`. -/
structure SetHead (V V' : Vol) (i : ℕ) (x : Block) : Prop where
  nblocks : V'.nblocks = V.nblocks
  loaded : V'.loaded = V.loaded
  inode : ∀ j, V'.Inode j ↔ V.Inode j
  self : V'.block i = x
  head : ∀ j, V.Inode j → j ≠ i → V'.block j = V.block j
  data : ∀ j, V.Inode j → ∀ fb < 143, V'.data j fb = V.data j fb

theorem Struct.setHead (h : V.Struct P) (hi : V.Inode i) {x : Block} (hw : V.Wrote V' i x)
    (hx : (V.block i).SamePointers x) (hu : V'.used = V.used) (hin : ∀ j, V'.Inode j ↔ V.Inode j)
    (hsize : (V'.block 1).sfiSize ≤ 143 * 512) : V'.Struct P ∧ V.SetHead V' i x := by
  obtain ⟨hind, hmap, hdata⟩ := h.wrote_head hi hw hx
  exact ⟨h.congr hw.nblocks hu hin hind (fun j hj fb _ => hmap j hj fb)
    (fun b hb => hw.of_ne (h.pending_ne hb hi).1) hsize,
    hw.nblocks, hw.loaded, hin, hw.self, fun j _ hji => hw.of_ne hji, hdata⟩

/-- The inodes stay the same when the size of the directory does. -/
theorem Struct.inode_wrote_head (h : V.Struct P) (hi : V.Inode i) {x : Block} (hw : V.Wrote V' i x)
    (hx : (V.block i).SamePointers x) (hsize : (V'.block 1).sfiSize = (V.block 1).sfiSize) (j : ℕ) :
    V'.Inode j ↔ V.Inode j :=
  inode_congr hsize hw.loaded (fun _ hk =>
    slot_congr ((h.wrote_head hi hw hx).2.2 1 V.inode_root _ (slot_lt h.dirSize hk))) j

/-! ### Inodes come and go -/

/-- A pending block is given back. -/
theorem Struct.giveBack (h : V.Struct (v :: P)) (hn : V'.nblocks = V.nblocks) (hl : V'.loaded = V.loaded)
    (hb : V'.block = V.block) (hu : V'.used = Function.update V.used v false) :
    V'.Struct P ∧ V.Same V' := by
  have hind (i : ℕ) : V'.ind i = V.ind i := by rw [ind, ind, hb]
  have hmap (i fb : ℕ) : V'.map i fb = V.map i fb := by rw [map, map, hind, hb]
  have hsame : V.Same V' := by
    refine same_of_views h.dirSize hn hl (fun i _ => ?_) fun i _ fb _ => ?_
    · rw [hb]
      exact .refl _
    · rw [data, data, hmap, hb]
  refine ⟨h.rebuild hn (fun i => (hsame.inode i).mp) ?_ (fun i _ => .inl (hind i)) (fun i _ fb _ => .inl (hmap i fb))
    (fun b hb' => .inl ⟨List.mem_cons_of_mem v hb', by rw [hb]⟩) (.inl (by rw [hb])), hsame⟩
  have hown : Owned V.Refs (fun b => b < sfsFreemapbits V.nblocks ∧ V'.used b = true) P := by
    refine h.owned.giveBack fun x => ?_
    rw [hu]
    by_cases hx : x = v <;> simp [hx]
  exact hown.congr (fun r => refs_congr hn hsame.inode (fun i _ _ => hind i) fun i fb _ _ _ => hmap i fb)
    fun _ => Iff.rfl

/-- A vnode comes or goes for an inode that stays one. -/
theorem Struct.reload (h : V.Struct P) (hn : V'.nblocks = V.nblocks) (hb : V'.block = V.block)
    (hu : V'.used = V.used) (hin : ∀ j, V'.Inode j ↔ V.Inode j) : V'.Struct P := by
  have hind (i : ℕ) : V'.ind i = V.ind i := by rw [ind, ind, hb]
  refine h.congr hn hu hin (fun i _ => hind i) (fun i _ fb _ => ?_) (fun b _ => by rw [hb]) ?_
  · rw [map, map, hind, hb]
  · rw [hb]
    exact h.dirSize

/-- A pending block becomes an inode without blocks. -/
theorem Struct.create (h : V.Struct (i :: P)) {x : Block} (hx : ∀ k, x.sfiDirect k = 0)
    (hx' : x.sfiIndirect = 0) (hn : V'.nblocks = V.nblocks) (hb : V'.block = Function.update V.block i x)
    (hu : V'.used = V.used) (hin : ∀ j, V'.Inode j ↔ V.Inode j ∨ j = i) : V'.Struct P := by
  have hi := h.pending i List.mem_cons_self
  have hne {j : ℕ} (hj : V.Inode j) := h.pending_ne List.mem_cons_self hj
  have hself : V'.block i = x := by rw [hb, Function.update_self]
  have hof {b : ℕ} (hbi : b ≠ i) : V'.block b = V.block b := by rw [hb, Function.update_of_ne hbi]
  have hmap (j : ℕ) (hj : V.Inode j) : V'.ind j = V.ind j ∧ ∀ fb, V'.map j fb = V.map j fb := by
    apply map_congr
    · rw [hof (hne hj).1.symm]
      exact ⟨rfl, fun _ => rfl⟩
    · exact fun h0 => hof ((hne hj).2.1 h0).symm
  have hind : V'.ind i = 0 := by rw [ind, hself, hx']
  have hmapi (fb : ℕ) : V'.map i fb = 0 := by
    rw [map, hind, hself, hx]
    simp
  have hnot : ¬ V.Inode i := fun hi => (hne hi).1 rfl
  have hrefs (r : Ref) (hr : r ≠ .inode i) (b : ℕ) : V'.Refs r b ↔ V.Refs r b := by
    cases r with
    | super => rfl
    | freemap k | pastEnd => simp only [Refs, hn]
    | inode j =>
      have hji : j ≠ i := fun he => hr (he ▸ rfl)
      simp only [Refs, hin, hji, or_false]
    | indirect j =>
      by_cases hj : V.Inode j
      · simp only [Refs, hin, hj, true_or, true_and, (hmap j hj).1]
      · refine iff_of_false ?_ fun hb' => hj hb'.1
        rintro ⟨hj', h0, hb'⟩
        rw [((hin j).mp hj').resolve_left hj, hind] at hb'
        exact h0 hb'
    | pointer j fb =>
      by_cases hj : V.Inode j
      · simp only [Refs, hin, hj, true_or, true_and, (hmap j hj).2]
      · refine iff_of_false ?_ fun hb' => hj hb'.1
        rintro ⟨hj', -, h0, hb'⟩
        rw [((hin j).mp hj').resolve_left hj, hmapi] at hb'
        exact h0 hb'
  have hroot : i ≠ 1 := (hne V.inode_root).1
  refine ⟨hn ▸ h.covered, hn ▸ h.room, ?_, fun j hj => ?_, fun j hj => ?_, fun j hj fb hfb => ?_,
    fun b hb' => ?_, ?_⟩
  · rw [hu, hn]
    refine h.owned.attach (r := .inode i) hrefs (fun b hb' => hnot hb'.1) fun b => ?_
    simp only [Refs, hin, or_true, true_and]
  · rw [hn]
    rcases (hin j).mp hj with hj | rfl
    · exact h.inodeBound j hj
    · exact hi.1
  · rw [hn]
    rcases (hin j).mp hj with hj | rfl
    · rw [(hmap j hj).1]
      exact h.indBound j hj
    · rw [hind]
      omega
  · rw [hn]
    rcases (hin j).mp hj with hj | rfl
    · rw [(hmap j hj).2]
      exact h.mapBound j hj fb hfb
    · rw [hmapi]
      omega
  · have hbi : b ≠ i := fun he => (List.nodup_cons.mp h.owned.nodup).1 (he ▸ hb')
    rw [hn, hof hbi]
    exact h.pending b (List.mem_cons_of_mem i hb')
  · rw [hof hroot.symm]
    exact h.dirSize

/-- An inode without blocks goes away. -/
theorem Struct.drop (h : V.Struct P) (hi : V.Inode i) (hind : V.ind i = 0)
    (hmap : ∀ fb < 143, V.map i fb = 0) (hn : V'.nblocks = V.nblocks) (hb : V'.block = V.block)
    (hu : V'.used = Function.update V.used i false) (hin : ∀ j, V'.Inode j ↔ V.Inode j ∧ j ≠ i) :
    V'.Struct P := by
  have hind' (j : ℕ) : V'.ind j = V.ind j := by rw [ind, ind, hb]
  have hmap' (j fb : ℕ) : V'.map j fb = V.map j fb := by rw [map, map, hind', hb]
  have hrefs (r : Ref) (hr : r ≠ .inode i) (b : ℕ) : V'.Refs r b ↔ V.Refs r b := by
    cases r with
    | super => rfl
    | freemap k | pastEnd => simp only [Refs, hn]
    | inode j =>
      have hji : j ≠ i := fun he => hr (he ▸ rfl)
      simp only [Refs, hin, hji, ne_eq, not_false_eq_true, and_true]
    | indirect j =>
      simp only [Refs, hin, hind']
      refine ⟨fun hj => ⟨hj.1.1, hj.2⟩, ?_⟩
      rintro ⟨hj, h0, hb'⟩
      refine ⟨⟨hj, fun hji => ?_⟩, h0, hb'⟩
      rw [hji, hind] at hb'
      exact h0 hb'
    | pointer j fb =>
      simp only [Refs, hin, hmap']
      refine ⟨fun hj => ⟨hj.1.1, hj.2⟩, ?_⟩
      rintro ⟨hj, hfb, h0, hb'⟩
      refine ⟨⟨hj, fun hji => ?_⟩, hfb, h0, hb'⟩
      rw [hji, hmap fb hfb] at hb'
      exact h0 hb'
  refine h.rebuild hn (fun j hj => ((hin j).mp hj).1) ?_ (fun j _ => .inl (hind' j)) (fun j _ fb _ => .inl (hmap' j fb))
    (fun b hb' => .inl ⟨hb', by rw [hb]⟩) (.inl (by rw [hb]))
  refine h.owned.free (r := .inode i) ⟨hi, rfl⟩ (fun x hx => hx.2) hrefs (fun b hb' => ((hin i).mp hb'.1).2 rfl) fun x => ?_
  rw [hu]
  by_cases hx : x = i <;> simp [hx]

end Vol

end Os161
