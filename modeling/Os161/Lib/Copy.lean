import Mathlib.Tactic

/-! Copies within one memory, element by element. A copy of overlapping areas gives what
one copy of the whole would give if it goes away from the overlap. -/

namespace Os161

variable {α : Type*}

/-- The `w` cells from `s` on are read, and then written from `d` on. -/
def copyCells (w : ℕ) (m : ℕ → α) (d s : ℕ) : ℕ → α := fun a => if d ≤ a ∧ a < d + w then m (s + (a - d)) else m a

/-- `n` elements of `w` cells, the first one first. -/
def copyUp (w : ℕ) (m : ℕ → α) (d s n : ℕ) : ℕ → α :=
  (List.range n).foldl (fun m i => copyCells w m (d + i * w) (s + i * w)) m

/-- The same with the last one first. -/
def copyDown (w : ℕ) (m : ℕ → α) (d s : ℕ) : ℕ → ℕ → α
  | 0 => m
  | i + 1 => copyDown w (copyCells w m (d + i * w) (s + i * w)) d s i

theorem copyCells_zero (m : ℕ → α) (d s : ℕ) : copyCells 0 m d s = m := by
  funext a
  exact if_neg (by omega)

theorem copyCells_of_mem {w : ℕ} {m : ℕ → α} {d s a : ℕ} (h : d ≤ a ∧ a < d + w) : copyCells w m d s a = m (s + (a - d)) :=
  if_pos h

theorem copyCells_of_not_mem {w : ℕ} {m : ℕ → α} {d s a : ℕ} (h : ¬ (d ≤ a ∧ a < d + w)) : copyCells w m d s a = m a :=
  if_neg h

/-- The next element behind a part that was copied upwards has not been written. -/
theorem copyCells_snoc {w n : ℕ} {m : ℕ → α} {d s : ℕ} (h : d ≤ s) :
    copyCells w (copyCells n m d s) (d + n) (s + n) = copyCells (n + w) m d s := by
  funext a
  by_cases hlast : d + n ≤ a ∧ a < d + n + w
  · rw [copyCells_of_mem hlast, copyCells_of_not_mem (by omega), copyCells_of_mem (by omega)]
    congr 1
    omega
  · rw [copyCells_of_not_mem hlast]
    by_cases hpart : d ≤ a ∧ a < d + n
    · rw [copyCells_of_mem hpart, copyCells_of_mem (by omega)]
    · rw [copyCells_of_not_mem hpart, copyCells_of_not_mem (by omega)]

/-- Nor has the part in front of one that was copied first. -/
theorem copyCells_cons {w n : ℕ} {m : ℕ → α} {d s : ℕ} (h : s ≤ d) :
    copyCells n (copyCells w m (d + n) (s + n)) d s = copyCells (n + w) m d s := by
  funext a
  by_cases hpart : d ≤ a ∧ a < d + n
  · rw [copyCells_of_mem hpart, copyCells_of_not_mem (by omega), copyCells_of_mem (by omega)]
  · rw [copyCells_of_not_mem hpart]
    by_cases hlast : d + n ≤ a ∧ a < d + n + w
    · rw [copyCells_of_mem hlast, copyCells_of_mem (by omega)]
      congr 1
      omega
    · rw [copyCells_of_not_mem hlast, copyCells_of_not_mem (by omega)]

theorem copyUp_eq {w : ℕ} {m : ℕ → α} {d s : ℕ} (h : d ≤ s) (n : ℕ) : copyUp w m d s n = copyCells (n * w) m d s := by
  induction n with
  | zero => rw [Nat.zero_mul, copyCells_zero, copyUp, List.range_zero, List.foldl_nil]
  | succ n ih =>
    rw [copyUp] at ih ⊢
    rw [List.range_succ, List.foldl_append, ih, List.foldl_cons, List.foldl_nil, copyCells_snoc h, Nat.succ_mul]

theorem copyDown_eq {w : ℕ} {d s : ℕ} (h : s ≤ d) (m : ℕ → α) (n : ℕ) :
    copyDown w m d s n = copyCells (n * w) m d s := by
  induction n generalizing m with
  | zero => rw [copyDown, Nat.zero_mul, copyCells_zero]
  | succ n ih => rw [copyDown, ih, copyCells_cons h, Nat.succ_mul]

end Os161
