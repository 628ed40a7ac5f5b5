import Os161.Lib.Bytes

/-! Arrays of bits that are stored in bytes, the lowest bit of a byte first. -/

namespace Os161

/-- Bit `o` of a byte. -/
def byteBit (x : UInt8) (o : ℕ) : Bool := x.toNat.testBit o

/-- The byte that has bit `o` only. -/
def bitMask (o : ℕ) : UInt8 := 1 <<< UInt8.ofNat o

section
variable {x y : UInt8} {o : ℕ}

theorem byteBit_or (x y : UInt8) (o : ℕ) : byteBit (x ||| y) o = (byteBit x o || byteBit y o) := by
  simp [byteBit]

theorem byteBit_and (x y : UInt8) (o : ℕ) : byteBit (x &&& y) o = (byteBit x o && byteBit y o) := by
  simp [byteBit]

theorem byteBit_not (x : UInt8) (ho : o < 8) : byteBit (~~~x) o = !byteBit x o := by
  have hx : byteBit (~~~x) o = (~~~x.toBitVec).getLsbD o := rfl
  rw [hx, BitVec.getLsbD_not]
  simp only [ho, decide_true, Bool.true_and]
  rfl

theorem byteBit_bitMask (ho : o < 8) {j : ℕ} (hj : j < 8) : byteBit (bitMask o) j = decide (j = o) := by
  revert o j
  decide

@[simp] theorem byteBit_zero (o : ℕ) : byteBit 0 o = false := by simp [byteBit]

theorem byte_ext (h : ∀ o < 8, byteBit x o = byteBit y o) : x = y := by
  apply UInt8.toNat_inj.mp
  apply Nat.eq_of_testBit_eq
  intro o
  by_cases ho : o < 8
  · exact h o ho
  · have hpow : 2 ^ 8 ≤ 2 ^ o := Nat.pow_le_pow_right (by omega) (by omega)
    rw [Nat.testBit_lt_two_pow (x.toNat_lt.trans_le hpow), Nat.testBit_lt_two_pow (y.toNat_lt.trans_le hpow)]

/-- The test of a bit with a mask. -/
theorem and_bitMask_eq_zero (ho : o < 8) : x &&& bitMask o = 0 ↔ byteBit x o = false := by
  constructor
  · intro h
    have := byteBit_and x (bitMask o) o
    rw [h, byteBit_zero, byteBit_bitMask ho ho] at this
    simpa using this.symm
  · intro h
    apply byte_ext
    intro j hj
    rw [byteBit_and, byteBit_zero, byteBit_bitMask ho hj]
    by_cases hjo : j = o
    · rw [hjo, h, Bool.false_and]
    · rw [decide_eq_false hjo, Bool.and_false]

theorem eq_allBits : x = 255 ↔ ∀ o < 8, byteBit x o = true := by
  have hall : ∀ o < 8, byteBit 255 o = true := by decide
  constructor
  · rintro rfl
    exact hall
  · intro h
    exact byte_ext fun o ho => (h o ho).trans (hall o ho).symm

/-- The byte with the bits of `f`. -/
def packByte (f : ℕ → Bool) : UInt8 :=
  (List.range 8).foldl (fun x o => if f o = true then x ||| bitMask o else x) 0

theorem byteBit_packByte (f : ℕ → Bool) (ho : o < 8) : byteBit (packByte f) o = f o := by
  have hfold (n : ℕ) (hn : n ≤ 8) :
      byteBit ((List.range n).foldl (fun x o => if f o = true then x ||| bitMask o else x) 0) o =
        (decide (o < n) && f o) := by
    induction n with
    | zero => simp
    | succ n ih =>
      rw [List.range_succ, List.foldl_append, List.foldl_cons, List.foldl_nil]
      have ih := ih (by omega)
      by_cases hon : o = n
      · subst hon
        cases hf : f o with
        | false => simp [ih]
        | true => simp [byteBit_or, byteBit_bitMask ho ho]
      · have hlt : decide (o < n + 1) = decide (o < n) := by
          rw [decide_eq_decide]
          omega
        rw [hlt, ← ih]
        split_ifs
        · rw [byteBit_or, byteBit_bitMask (by omega) ho, decide_eq_false hon, Bool.or_false]
        · rfl
  rw [packByte, hfold 8 le_rfl, decide_eq_true ho, Bool.true_and]

end

/-! ### Arrays -/

/-- Bit `k` of an array. -/
def bitOf (v : List UInt8) (k : ℕ) : Bool := byteBit (v.getD (k / 8) 0) (k % 8)

def setBit (v : List UInt8) (k : ℕ) : List UInt8 := v.modify (k / 8) (· ||| bitMask (k % 8))

def clearBit (v : List UInt8) (k : ℕ) : List UInt8 := v.modify (k / 8) (· &&& ~~~bitMask (k % 8))

variable {v l : List UInt8} {k o : ℕ}

@[simp] theorem length_setBit : (setBit v k).length = v.length := by simp [setBit]

@[simp] theorem length_clearBit : (clearBit v k).length = v.length := by simp [clearBit]

theorem getD_modify (f : UInt8 → UInt8) (hk : k < v.length) (j : ℕ) :
    (v.modify k f).getD j 0 = if j = k then f (v.getD j 0) else v.getD j 0 := by
  by_cases hj : j < v.length
  · simp only [List.getD_eq_getElem?_getD, List.getElem?_modify, List.getElem?_eq_getElem hj]
    by_cases hjk : j = k
    · simp [hjk]
    · simp [hjk, Ne.symm hjk]
  · have hjk : j ≠ k := by omega
    simp [List.getD_eq_getElem?_getD, Ne.symm hjk, hjk]

/-- The bit of a byte after an operation with the mask of another. -/
theorem bitOf_modify (f : UInt8 → UInt8) (hk : k < 8 * v.length) {b : Bool}
    (hf : ∀ x, ∀ j < 8, byteBit (f x) j = if j = k % 8 then b else byteBit x j) :
    bitOf (v.modify (k / 8) f) = Function.update (bitOf v) k b := by
  funext j
  rw [bitOf, getD_modify f (by omega)]
  by_cases hj : j = k
  · rw [hj, Function.update_self, if_pos rfl, hf _ _ (by omega), if_pos rfl]
  · rw [Function.update_of_ne hj]
    by_cases hdiv : j / 8 = k / 8
    · rw [if_pos hdiv, hf _ _ (by omega), if_neg (by omega)]
      rfl
    · rw [if_neg hdiv]
      rfl

theorem bitOf_setBit (hk : k < 8 * v.length) : bitOf (setBit v k) = Function.update (bitOf v) k true := by
  apply bitOf_modify _ hk
  intro x j hj
  rw [byteBit_or, byteBit_bitMask (by omega) hj]
  by_cases hjk : j = k % 8
  · simp [hjk]
  · simp [hjk]

theorem bitOf_clearBit (hk : k < 8 * v.length) : bitOf (clearBit v k) = Function.update (bitOf v) k false := by
  apply bitOf_modify _ hk
  intro x j hj
  rw [byteBit_and, byteBit_not _ hj, byteBit_bitMask (by omega) hj]
  by_cases hjk : j = k % 8
  · simp [hjk]
  · simp [hjk]

@[simp] theorem bitOf_replicate_zero (n k : ℕ) : bitOf (List.replicate n 0) k = false := by
  have hzero : (List.replicate n (0 : UInt8)).getD (k / 8) 0 = 0 := by
    rw [List.getD_eq_getElem?_getD, List.getElem?_replicate]
    split_ifs <;> rfl
  rw [bitOf, hzero, byteBit_zero]

/-- The bytes of `l` go over those of `v` from offset `o` on. -/
def overwrite (v : List UInt8) (o : ℕ) (l : List UInt8) : List UInt8 := v.take o ++ l ++ v.drop (o + l.length)

theorem length_overwrite (h : o + l.length ≤ v.length) : (overwrite v o l).length = v.length := by
  simp only [overwrite, List.length_append, List.length_take, List.length_drop]
  omega

theorem getD_overwrite (h : o + l.length ≤ v.length) (j : ℕ) :
    (overwrite v o l).getD j 0 = if o ≤ j ∧ j < o + l.length then l.getD (j - o) 0 else v.getD j 0 := by
  have htake : (v.take o).length = o := by
    rw [List.length_take]
    omega
  simp only [overwrite, List.getD_eq_getElem?_getD, List.append_assoc]
  by_cases hlo : j < o
  · rw [List.getElem?_append_left (by omega), List.getElem?_take_of_lt hlo, if_neg (by omega)]
  · rw [List.getElem?_append_right (by omega), htake]
    by_cases hhi : j < o + l.length
    · rw [List.getElem?_append_left (by omega), if_pos (by omega)]
    · rw [List.getElem?_append_right (by omega), List.getElem?_drop, if_neg (by omega),
        show o + l.length + (j - o - l.length) = j by omega]

/-! ### Buffers -/

namespace Bytes

variable {n : ℕ}

/-- Bit `k` of a buffer. -/
def bit (b : Bytes n) (k : ℕ) : Bool := byteBit (b.byte (k / 8)) (k % 8)

/-- The buffer with the bits of `f`. -/
def ofBits (f : ℕ → Bool) : Bytes n := fun k => packByte fun o => f (8 * k.1 + o)

theorem bit_ofBits (f : ℕ → Bool) (hk : k < 8 * n) : (ofBits f : Bytes n).bit k = f k := by
  have hlt : k / 8 < n := by omega
  rw [bit, byte, dif_pos hlt, ofBits, byteBit_packByte _ (by omega), Nat.div_add_mod]

theorem ext_bits {b c : Bytes n} (h : ∀ k < 8 * n, b.bit k = c.bit k) : b = c := by
  apply ext
  intro k hk
  apply byte_ext
  intro o ho
  have := h (8 * k + o) (by omega)
  rwa [bit, bit, show (8 * k + o) / 8 = k by omega, show (8 * k + o) % 8 = o by omega] at this

/-- A piece of an array as a buffer. -/
theorem bit_ofList_drop (v : List UInt8) (o : ℕ) (hk : k < 8 * n) (h : o + n ≤ v.length) :
    (ofList ((v.drop o).take n) : Bytes n).bit k = bitOf v (8 * o + k) := by
  have hlen : ((v.drop o).take n).length = n := by
    rw [List.length_take, List.length_drop]
    omega
  have hlt : k / 8 < n := by omega
  rw [bit, bitOf, ofList, byte_splice _ _ _ hlt, hlen, if_pos (by omega), Nat.sub_zero,
    show (8 * o + k) / 8 = o + k / 8 by omega, show (8 * o + k) % 8 = k % 8 by omega]
  simp only [List.getD_eq_getElem?_getD, List.getElem?_take_of_lt hlt, List.getElem?_drop]

/-- A buffer as a piece of an array. -/
theorem bitOf_overwrite (v : List UInt8) (b : Bytes n) (h : o + n ≤ v.length) (j : ℕ) :
    bitOf (overwrite v o b.toList) j = if 8 * o ≤ j ∧ j < 8 * (o + n) then b.bit (j - 8 * o) else bitOf v j := by
  have hlen := length_toList b
  rw [bitOf, getD_overwrite (by omega), hlen]
  by_cases hin : 8 * o ≤ j ∧ j < 8 * (o + n)
  · rw [if_pos hin, if_pos (by omega), toList, slice_getD _ _ (by omega), Nat.zero_add, bit,
      show (j - 8 * o) / 8 = j / 8 - o by omega, show (j - 8 * o) % 8 = j % 8 by omega]
  · rw [if_neg hin, if_neg (by omega)]
    rfl

end Bytes

end Os161
