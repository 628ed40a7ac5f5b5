import Mathlib.Tactic

/-! A ring of `n` slots between a tail and a head, where the slot before the tail stays
free: what is in it, and what happens when an end moves on. -/

namespace Os161

namespace Ring

variable {α : Type*} {n head tail i : ℕ} {buf : ℕ → α}

/-- The slot after `i`. -/
def next (n i : ℕ) : ℕ := (i + 1) % n

/-- How many slots from the tail on are before the head. -/
def size (n head tail : ℕ) : ℕ := (head + n - tail) % n

/-- Slot `i` from the tail on. -/
def slot (n tail i : ℕ) : ℕ := (tail + i) % n

/-- The first `k` slots from the tail on. -/
def contents (n : ℕ) (buf : ℕ → α) (tail k : ℕ) : List α := (List.range k).map fun i => buf (slot n tail i)

theorem next_lt (hi : i < n) : next n i < n := Nat.mod_lt _ (by omega)

theorem next_eq (hi : i < n) : next n i = if i + 1 = n then 0 else i + 1 := by
  unfold next
  split_ifs with h
  · rw [h, Nat.mod_self]
  · exact Nat.mod_eq_of_lt (by omega)

theorem size_eq (hh : head < n) (ht : tail < n) : size n head tail = if tail ≤ head then head - tail else head + n - tail := by
  unfold size
  split_ifs with h
  · rw [Nat.mod_eq_sub_mod (by omega), Nat.mod_eq_of_lt (by omega)]
    omega
  · exact Nat.mod_eq_of_lt (by omega)

theorem slot_eq (ht : tail < n) (hi : i ≤ n) : slot n tail i = if tail + i < n then tail + i else tail + i - n := by
  unfold slot
  split_ifs with h
  · exact Nat.mod_eq_of_lt h
  · rw [Nat.mod_eq_sub_mod (by omega), Nat.mod_eq_of_lt (by omega)]

theorem size_lt (hh : head < n) : size n head tail < n := Nat.mod_lt _ (by omega)

theorem size_self (hh : head < n) : size n head head = 0 := by
  rw [size_eq hh hh, if_pos le_rfl, Nat.sub_self]

/-- The ring is full when the head would come to the tail. -/
theorem next_eq_tail_iff (hh : head < n) (ht : tail < n) : next n head = tail ↔ size n head tail + 1 = n := by
  rw [next_eq hh, size_eq hh ht]
  split_ifs <;> omega

theorem size_next_head (hh : head < n) (ht : tail < n) (hroom : size n head tail + 1 < n) :
    size n (next n head) tail = size n head tail + 1 := by
  have hnext := next_lt hh
  rw [size_eq hh ht] at hroom ⊢
  rw [size_eq hnext ht, next_eq hh]
  split_ifs at hroom ⊢ <;> omega

theorem size_next_tail (hh : head < n) (ht : tail < n) (hpos : 0 < size n head tail) :
    size n head (next n tail) + 1 = size n head tail := by
  have hnext := next_lt ht
  rw [size_eq hh ht] at hpos ⊢
  rw [size_eq hh hnext, next_eq ht]
  split_ifs at hpos ⊢ <;> omega

theorem slot_zero (ht : tail < n) : slot n tail 0 = tail := Nat.mod_eq_of_lt ht

theorem slot_size (hh : head < n) (ht : tail < n) : slot n tail (size n head tail) = head := by
  rw [slot_eq ht (size_lt hh).le, size_eq hh ht]
  split_ifs <;> omega

theorem slot_next (n tail i : ℕ) : slot n (next n tail) i = slot n tail (i + 1) := by
  unfold slot next
  rw [Nat.mod_add_mod, Nat.add_assoc, Nat.add_comm 1 i]

/-- The slots before the head are not the one at the head. -/
theorem slot_ne_head (hh : head < n) (ht : tail < n) (hi : i < size n head tail) : slot n tail i ≠ head := by
  have hlt : size n head tail < n := size_lt hh
  rw [slot_eq ht (by omega)]
  rw [size_eq hh ht] at hi
  split_ifs at hi ⊢ <;> omega

/-- Behind the tail no slot is the one at the tail. -/
theorem slot_succ_ne_tail (ht : tail < n) (hi : i + 1 < n) : slot n tail (i + 1) ≠ tail := by
  rw [slot_eq ht hi.le]
  split_ifs <;> omega

theorem contents_succ (ht : tail < n) (k : ℕ) : contents n buf tail (k + 1) = buf tail :: contents n buf (next n tail) k := by
  unfold contents
  rw [List.range_succ_eq_map, List.map_cons, List.map_map, slot_zero ht]
  simp only [Function.comp_def, slot_next]

/-- A store at the head does not touch what is before it. -/
theorem contents_update_head (hh : head < n) (ht : tail < n) (a : α) :
    contents n (Function.update buf head a) tail (size n head tail) = contents n buf tail (size n head tail) := by
  apply List.map_congr_left
  intro i hi
  exact Function.update_of_ne (slot_ne_head hh ht (List.mem_range.mp hi)) a buf

/-- The slot at the head is the next one in line. -/
theorem contents_grow (hh : head < n) (ht : tail < n) : contents n buf tail (size n head tail + 1) =
    contents n buf tail (size n head tail) ++ [buf head] := by
  unfold contents
  rw [List.range_succ, List.map_append, List.map_cons, List.map_nil, slot_size hh ht]

end Ring

end Os161
