import Os161.Lib.Run
import Os161.Proofs.SfsBlocks

/-! The bitmap of bytes: `bitmap_alloc` gives the first clear bit, so that the bit by
bit model of the mounted volume is what the code does with its bytes. -/

namespace Os161

open Op

namespace Bitmap

variable {b : Bitmap} {k ix : ℕ} {c : Prop}

/-- The bits fill whole words, as they do in a free block bitmap. -/
structure Whole (b : Bitmap) : Prop where
  length : 8 * b.v.length = b.nbits
  word : b.nbits + 7 < 4294967296

def bit (b : Bitmap) (k : ℕ) : Bool := bitOf b.v k

/-- The bitmap with one bit set, or cleared. -/
def mark (b : Bitmap) (k : ℕ) : Bitmap := { b with v := setBit b.v k }

def cleared (b : Bitmap) (k : ℕ) : Bitmap := { b with v := clearBit b.v k }

theorem Whole.mark (h : b.Whole) (k : ℕ) : (b.mark k).Whole :=
  ⟨by rw [Bitmap.mark, length_setBit]; exact h.length, h.word⟩

theorem Whole.cleared (h : b.Whole) (k : ℕ) : (b.cleared k).Whole :=
  ⟨by rw [Bitmap.cleared, length_clearBit]; exact h.length, h.word⟩

theorem Whole.bit_mark (h : b.Whole) (hk : k < b.nbits) : (b.mark k).bit = Function.update b.bit k true :=
  bitOf_setBit (by rw [h.length]; exact hk)

theorem Whole.bit_cleared (h : b.Whole) (hk : k < b.nbits) : (b.cleared k).bit = Function.update b.bit k false :=
  bitOf_clearBit (by rw [h.length]; exact hk)

theorem isset_iff : b.isset k ↔ b.bit k = true := by
  rw [isset, Ne, and_bitMask_eq_zero (by omega), Bool.not_eq_false]
  rfl

theorem bit_word (b : Bitmap) {offset : ℕ} (ho : offset < 8) :
    byteBit (b.v.getD ix 0) offset = b.bit (ix * 8 + offset) := by
  rw [bit, bitOf, show (ix * 8 + offset) / 8 = ix by omega, show (ix * 8 + offset) % 8 = offset by omega]

/-- `b` has its first clear bit at `k`. -/
def First (b : Bitmap) (k : ℕ) : Prop := b.bit k = false ∧ ∀ j < k, b.bit j = true

/-- The bits behind the end fill the last word and are set. -/
structure Padded (b : Bitmap) : Prop where
  length : b.v.length = (b.nbits + 7) / 8
  word : b.nbits + 7 < 4294967296
  padding : ∀ k, b.nbits ≤ k → k < 8 * b.v.length → b.bit k = true

theorem Whole.padded (h : b.Whole) : b.Padded := by
  have := h.length
  exact ⟨by omega, h.word, fun k hk hlt => absurd hk (by omega)⟩

theorem Padded.lt (h : b.Padded) (hk : k < 8 * b.v.length) (hbit : b.bit k = false) : k < b.nbits := by
  by_contra hge
  rw [h.padding k (by omega) hk] at hbit
  exact Bool.noConfusion hbit

theorem allocWord_wp (h : b.Padded) (hix : ix < b.v.length) {fuel offset : ℕ} (ho : offset + fuel = 8)
    (hfull : ∀ j < ix * 8 + offset, b.bit j = true) (hclear : ∃ o < 8, b.bit (ix * 8 + o) = false)
    {Q : ℕ → Bitmap → Prop} {E : Errno → Bitmap → Prop} (hQ : ∀ k < b.nbits, b.First k → Q k (b.mark k)) :
    (allocWord ix fuel offset).wp c Q E b := by
  induction fuel generalizing offset with
  | zero =>
    -- the assertion behind the loop: some bit of the word is clear
    obtain ⟨o, ho8, hclear⟩ := hclear
    rw [hfull _ (by omega)] at hclear
    exact Bool.noConfusion hclear
  | succ fuel ih =>
    unfold allocWord
    rw [wp_bind, wp_get, wp_ite, and_bitMask_eq_zero (by omega), bit_word b (by omega)]
    refine ⟨fun hbit => ?_, fun hbit => ?_⟩
    · have hk : ix * 8 + offset < b.nbits := h.lt (by omega) hbit
      have hmark : b.mark (ix * 8 + offset) = { b with v := b.v.modify ix (· ||| bitMask offset) } := by
        rw [mark, setBit, show (ix * 8 + offset) / 8 = ix by omega, show (ix * 8 + offset) % 8 = offset by omega]
      rw [wp_bind, wp_set, wp_bind, wp_kassert_of hk, wp_pure, ← hmark]
      exact hQ _ hk ⟨hbit, hfull⟩
    · apply ih (by omega)
      intro j hj
      by_cases hlast : j = ix * 8 + offset
      · rw [hlast]
        exact Bool.not_eq_false _ ▸ hbit
      · exact hfull j (by omega)

theorem allocFrom_wp (h : b.Padded) {fuel : ℕ} (hix : ix + fuel = b.v.length)
    (hfull : ∀ j < ix * 8, b.bit j = true) {Q : ℕ → Bitmap → Prop} {E : Errno → Bitmap → Prop}
    (hQ : ∀ k < b.nbits, b.First k → Q k (b.mark k)) (hE : (∀ k < b.nbits, b.bit k = true) → E .enospc b) :
    (allocFrom fuel ix).wp c Q E b := by
  have hlen := h.length
  induction fuel generalizing ix with
  | zero =>
    apply hE
    intro k hk
    exact hfull k (by omega)
  | succ fuel ih =>
    unfold allocFrom
    rw [wp_bind, wp_get, wp_ite, Ne, eq_allBits]
    refine ⟨fun hword => ?_, fun hword => ?_⟩
    · apply allocWord_wp h (by omega) rfl hfull ?_ hQ
      by_contra hno
      refine hword fun o ho => ?_
      by_contra hbit
      rw [Bool.not_eq_true] at hbit
      exact hno ⟨o, ho, by rw [← bit_word b ho]; exact hbit⟩
    · apply ih (by omega)
      intro j hj
      by_cases hlast : j < ix * 8
      · exact hfull j hlast
      · have := not_not.mp hword (j - ix * 8) (by omega)
        rwa [bit_word b (by omega), show ix * 8 + (j - ix * 8) = j by omega] at this

/-- `bitmap_alloc` marks the first clear bit, or finds that there is none. -/
theorem alloc_wp (h : b.Padded) {Q : ℕ → Bitmap → Prop} {E : Errno → Bitmap → Prop}
    (hQ : ∀ k < b.nbits, b.First k → Q k (b.mark k)) (hE : (∀ k < b.nbits, b.bit k = true) → E .enospc b) :
    alloc.wp c Q E b := by
  unfold alloc
  have hwords : words b.nbits = b.v.length := by
    have := h.length
    have := h.word
    unfold words
    omega
  rw [wp_bind, wp_get, hwords]
  exact allocFrom_wp h (Nat.zero_add _) (by simp) hQ hE

/-- A search bit by bit finds the first clear bit. -/
theorem First.bitmapFind {n : ℕ} (h : b.First k) (hk : k < n) : bitmapFind b.bit n 0 = some k := by
  have hfind (fuel i : ℕ) (hi : i ≤ k) (hfuel : k < i + fuel) : Os161.bitmapFind b.bit fuel i = some k := by
    induction fuel generalizing i with
    | zero => omega
    | succ fuel ih =>
      by_cases hik : i = k
      · simp [Os161.bitmapFind, hik, h.1]
      · rw [Os161.bitmapFind, h.2 i (by omega), if_pos rfl]
        exact ih (i + 1) (by omega) (by omega)
  exact hfind n 0 (Nat.zero_le k) (by omega)

theorem bitmapFind_full {n : ℕ} (h : ∀ k < n, b.bit k = true) : bitmapFind b.bit n 0 = none := by
  cases hfind : Os161.bitmapFind b.bit n 0 with
  | none => rfl
  | some k =>
    obtain ⟨hk, hbit⟩ := bitmapFind_some hfind
    rw [h k (by omega)] at hbit
    exact Bool.noConfusion hbit

theorem unmark_wp (hk : k < b.nbits) (hbit : b.bit k = true) {Q : Unit → Bitmap → Prop}
    {E : Errno → Bitmap → Prop} : (unmark k).wp c Q E b ↔ Q () (b.cleared k) := by
  have hset : b.v.getD (k / 8) 0 &&& bitMask (k % 8) ≠ 0 := isset_iff.mpr hbit
  unfold unmark
  rw [wp_bind, wp_get, wp_bind, wp_kassert_of hk, wp_bind, wp_kassert_of hset, wp_set]
  rfl

theorem whole_create {nbits : ℕ} (h8 : nbits % 8 = 0) (hword : nbits + 7 < 4294967296) :
    create nbits = ⟨nbits, List.replicate (nbits / 8) 0⟩ := by
  have hwords : words nbits = nbits / 8 := by
    unfold words
    omega
  rw [create, hwords, show 8 * (nbits / 8) - nbits = 0 by omega, List.range_zero, List.foldl_nil]

end Bitmap

/-! ### The mounted volume -/

namespace SfsFs

variable {s : SfsFs} {k : ℕ} {c : Prop}

/-- The bitmap has a bit for each block that it has to have one for. -/
structure Mapped (s : SfsFs) : Prop where
  whole : s.freemap.Whole
  nbits : s.freemap.nbits = sfsFreemapbits s.nblocks

/-- The state after `sfs_balloc`, as far as the bitmap goes. -/
def balloced (s : SfsFs) (k : ℕ) : SfsFs := { s with freemap := s.freemap.mark k, freemapdirty := true }

def freed (s : SfsFs) (k : ℕ) : SfsFs := { s with freemap := s.freemap.cleared k, freemapdirty := true }

/-- `sfs_balloc` hands out the first free block if the volume has it, or none if all are
in use. The block is cleared, unless the disk meets an error and the driver loses it. -/
theorem balloc_wp (h : s.Mapped) (hdisk : s.nblocks ≤ s.dev.dBlocks)
    (hend : ∀ k < s.freemap.nbits, s.nblocks ≤ k → s.freemap.bit k = true) {Q : ℕ → SfsFs → Prop}
    {E : Errno → SfsFs → Prop}
    (hQ : ∀ k d, k < s.nblocks → k < s.freemap.nbits → s.freemap.First k → d.dBlocks = s.dev.dBlocks →
      sfsWriteblock k Bytes.zero s.dev = .ok () d → Q k { s.balloced k with dev := d })
    (hE : (∀ k < s.freemap.nbits, s.freemap.bit k = true) → E .enospc s) : balloc.wp c Q E s := by
  unfold balloc onMap
  rw [wp_bind, wp_zoom]
  apply Bitmap.alloc_wp h.whole.padded
  · intro k hk hfirst
    have hlt : k < s.nblocks := by
      by_contra hge
      have := hend k hk (by omega)
      rw [hfirst.1] at this
      exact Bool.noConfusion this
    have hwrite := sfsWriteblock_eq (d := s.dev) (hlt.trans_le hdisk) Bytes.zero
    rw [wp_bind, wp_modify, wp_bind, wp_get, wp_bind]
    refine (wp_kassert_of (p := k < s.nblocks) hlt).mpr ?_
    unfold onDev
    rw [wp_bind, wp_attempt, wp_zoom, Op.wp, hwrite]
    refine hQ k _ hlt hk hfirst ?_ hwrite
    split_ifs <;> rfl
  · exact hE

theorem bfree_wp (hk : k < s.freemap.nbits) (hbit : s.freemap.bit k = true) {Q : Unit → SfsFs → Prop}
    {E : Errno → SfsFs → Prop} : (bfree k).wp c Q E s ↔ Q () (s.freed k) := by
  unfold bfree onMap
  rw [wp_bind, wp_zoom, Bitmap.unmark_wp hk hbit, wp_modify]
  rfl

/-! ### The bit by bit model -/

/-- The same volume, with a bit by bit freemap, and with vnodes. -/
def toSfs (s : SfsFs) (vnodes : List SfsVnode) : Sfs :=
  ⟨s.nblocks, s.freemap.bit, s.freemapdirty, vnodes, s.dev, s.kmem⟩

/-- The bit by bit model of a mounted volume allocates as the code does with its bytes. -/
theorem balloc_refines (h : s.Mapped) (hdisk : s.nblocks ≤ s.dev.dBlocks)
    (hend : ∀ k < s.freemap.nbits, s.nblocks ≤ k → s.freemap.bit k = true) (vnodes : List SfsVnode) :
    sfsBalloc (s.toSfs vnodes) = (balloc s).map (·.toSfs vnodes) := by
  have hn : sfsFreemapbits (s.toSfs vnodes).nblocks = s.freemap.nbits := h.nbits.symm
  apply Op.map_of_wp
  apply balloc_wp h hdisk hend
  · intro k d hlt hk hfirst _ hwrite
    have hfind : bitmapFind (s.toSfs vnodes).freemap s.freemap.nbits 0 = some k := hfirst.bitmapFind hk
    apply Op.eq_ok_of_wp
    unfold sfsBalloc bitmapAlloc
    simp only [wp_bind, wp_get, hn, hfind, wp_set, wp_pure, wp_modify, wp_attempt]
    refine (wp_kassert_of (p := k < s.nblocks) hlt).mpr ?_
    unfold sfsClearblock Os161.onDev
    rw [wp_zoom, Op.wp, show (s.toSfs vnodes).dev = s.dev from rfl, hwrite]
    refine ⟨trivial, ?_⟩
    unfold toSfs balloced
    rw [h.whole.bit_mark hk]
    rfl
  · intro hfull
    have hfind : bitmapFind (s.toSfs vnodes).freemap s.freemap.nbits 0 = none := Bitmap.bitmapFind_full hfull
    apply Op.eq_err_of_wp
    unfold sfsBalloc bitmapAlloc
    simp only [wp_bind, wp_get, hn, hfind, wp_fail]
    exact ⟨trivial, trivial⟩

theorem bfree_refines (h : s.Mapped) (hk : k < s.freemap.nbits) (hbit : s.freemap.bit k = true)
    (vnodes : List SfsVnode) : sfsBfree k (s.toSfs vnodes) = (bfree k s).map (·.toSfs vnodes) := by
  apply Op.map_of_wp
  rw [bfree_wp hk hbit]
  apply Op.eq_ok_of_wp
  rw [sfsBfree_wp (h.nbits ▸ hk) hbit]
  refine ⟨rfl, ?_⟩
  unfold toSfs freed Sfs.freed
  rw [h.whole.bit_cleared hk]
  rfl

end SfsFs

end Os161
