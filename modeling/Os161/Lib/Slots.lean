import Mathlib.Tactic

/-! Arrays with holes: a thing is put into the first hole, or at the end if there is
none, and leaves a hole when it goes. -/

namespace Os161

variable {α : Type*}

/-- What is in slot `i`. -/
def slotAt (l : List (Option α)) (i : ℕ) : Option α := l[i]?.join

/-- The first hole, or the end. -/
def firstHole (l : List (Option α)) : ℕ := l.findIdx Option.isNone

/-- Put `a` into slot `i`, where `i` may be the end. -/
def setSlot (l : List (Option α)) (i : ℕ) (a : α) : List (Option α) :=
  if i < l.length then l.set i (some a) else l ++ [some a]

/-- Leave a hole in slot `i`. -/
def clearSlot (l : List (Option α)) (i : ℕ) : List (Option α) := l.set i none

variable {l : List (Option α)} {i : ℕ}

theorem firstHole_le (l : List (Option α)) : firstHole l ≤ l.length := List.findIdx_le_length

theorem slotAt_eq_some {a : α} : slotAt l i = some a ↔ l[i]? = some (some a) := Option.join_eq_some_iff

theorem slotAt_firstHole (l : List (Option α)) : slotAt l (firstHole l) = none := by
  unfold slotAt firstHole
  by_cases h : l.findIdx Option.isNone < l.length
  · rw [List.getElem?_eq_getElem h]
    have := List.findIdx_getElem (w := h)
    simpa using this
  · rw [List.getElem?_eq_none (Nat.le_of_not_lt h)]
    rfl

@[simp] theorem slotAt_nil (i : ℕ) : slotAt ([] : List (Option α)) i = none := rfl

theorem slotAt_setSlot (hi : i ≤ l.length) (a : α) (j : ℕ) :
    slotAt (setSlot l i a) j = if j = i then some a else slotAt l j := by
  unfold slotAt setSlot
  split_ifs with hlt hj hj
  · subst hj
    rw [List.getElem?_set_self hlt]
    rfl
  · rw [List.getElem?_set_ne (Ne.symm hj)]
  · subst hj
    have : j = l.length := by omega
    subst this
    simp
  · rw [List.getElem?_append]
    split_ifs with hjl
    · rfl
    · rw [List.getElem?_eq_none (by simp; omega), List.getElem?_eq_none (by omega)]

theorem slotAt_clearSlot (l : List (Option α)) (i j : ℕ) :
    slotAt (clearSlot l i) j = if j = i then none else slotAt l j := by
  unfold slotAt clearSlot
  split_ifs with hj
  · subst hj
    rw [List.getElem?_set_self']
    cases l[j]? <;> rfl
  · rw [List.getElem?_set_ne (Ne.symm hj)]

end Os161
