import Os161.Spec.Memmove

/-! `memmove` is one copy of the whole area, whichever loop it takes. -/

namespace Os161

namespace LibcString

variable {w dst src n len : ℕ} {mem : ℕ → UInt8}

/-- No address wraps in an area that does not. -/
theorem assign_eq (hd : dst + n * w ≤ 4294967296) (hs : src + n * w ≤ 4294967296) (hw : 0 < w) {i : ℕ} (hi : i < n) :
    assign w dst src mem i = copyCells w mem (dst + i * w) (src + i * w) := by
  have hlt : i * w + w ≤ n * w := by
    rw [← Nat.succ_mul]
    exact Nat.mul_le_mul_right w hi
  rw [assign, elemAddr, elemAddr, Nat.mod_eq_of_lt (by omega), Nat.mod_eq_of_lt (by omega)]

theorem forwards_eq (hd : dst + n * w ≤ 4294967296) (hs : src + n * w ≤ 4294967296) (hw : 0 < w) (h : dst ≤ src) :
    forwards w dst src n mem = copyCells (n * w) mem dst src := by
  rw [← copyUp_eq h, forwards, copyUp]
  apply List.foldl_ext
  intro m i hi
  exact assign_eq hd hs hw (List.mem_range.mp hi)

theorem backwards_eq_copyDown (hd : dst + n * w ≤ 4294967296) (hs : src + n * w ≤ 4294967296) (hw : 0 < w) :
    backwards w dst src n mem = copyDown w mem dst src n := by
  induction n generalizing mem with
  | zero => rfl
  | succ n ih =>
    rw [backwards, copyDown, assign_eq hd hs hw (Nat.lt_succ_self n)]
    rw [Nat.succ_mul] at hd hs
    exact ih (by omega) (by omega)

theorem backwards_eq (hd : dst + n * w ≤ 4294967296) (hs : src + n * w ≤ 4294967296) (hw : 0 < w) (h : src ≤ dst) :
    backwards w dst src n mem = copyCells (n * w) mem dst src := by
  rw [backwards_eq_copyDown hd hs hw, copyDown_eq h]

section
variable (hd : dst + len ≤ 4294967296) (hs : src + len ≤ 4294967296)
include hd hs

theorem forwards_bytes (h : dst ≤ src) : forwards 1 dst src len mem = copyCells len mem dst src := by
  rw [forwards_eq (by omega) (by omega) Nat.one_pos h, Nat.mul_one]

theorem forwards_words (h : dst ≤ src) (ha : Aligned dst src len) :
    forwards 4 dst src (len / 4) mem = copyCells len mem dst src := by
  have hlen := ha.2.2
  rw [forwards_eq (by omega) (by omega) (by omega) h, show len / 4 * 4 = len by omega]

theorem backwards_bytes (h : src ≤ dst) : backwards 1 dst src len mem = copyCells len mem dst src := by
  rw [backwards_eq (by omega) (by omega) Nat.one_pos h, Nat.mul_one]

theorem backwards_words (h : src ≤ dst) (ha : Aligned dst src len) :
    backwards 4 dst src (len / 4) mem = copyCells len mem dst src := by
  have hlen := ha.2.2
  rw [backwards_eq (by omega) (by omega) (by omega) h, show len / 4 * 4 = len by omega]

theorem memmove_eq : memmove dst src len mem = (dst, copyCells len mem dst src) := by
  unfold memmove memcpy
  split_ifs with hlt ha ha
  · rw [forwards_words hd hs hlt.le ha]
  · rw [forwards_bytes hd hs hlt.le]
  · rw [backwards_words hd hs (not_lt.mp hlt) ha]
  · rw [backwards_bytes hd hs (not_lt.mp hlt)]

end

/-- However the areas overlap, the destination gets what the source held, and nothing else
changes. -/
theorem memmove_moves (dst src len : ℕ) (mem : ℕ → UInt8) (hd : dst + len ≤ 4294967296)
    (hs : src + len ≤ 4294967296) : Moves dst src len mem where
  returned := by rw [memmove_eq hd hs]
  moved i hi := by
    have hin : copyCells len mem dst src (dst + i) = mem (src + (dst + i - dst)) := copyCells_of_mem (by omega)
    rw [memmove_eq hd hs]
    rwa [Nat.add_sub_cancel_left] at hin
  kept a ha := by
    rw [memmove_eq hd hs]
    exact copyCells_of_not_mem (by omega)
  up h ha := by rw [forwards_words hd hs h.le ha, forwards_bytes hd hs h.le]
  down h ha := by rw [backwards_words hd hs h ha, backwards_bytes hd hs h]

/-- Two words up by one word, in a memory where each byte tells its address. -/
theorem memmove_moves_overlap : (4 + 8 ≤ 4294967296 ∧ 0 + 8 ≤ 4294967296) ∧ Moves 4 0 8 fun a => UInt8.ofNat a :=
  ⟨by decide, memmove_moves 4 0 8 _ (by decide) (by decide)⟩

end LibcString

end Os161
