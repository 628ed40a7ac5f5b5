import Mathlib.Data.Fintype.Card
import Mathlib.Tactic

/-! How many things of a finite type have a property, when one of them changes. -/

namespace Os161

variable {T : Type*} [Fintype T]

/-- The number of things with the property `p`. -/
def count (p : T → Prop) [DecidablePred p] : ℕ := (Finset.univ.filter p).card

section
variable {p q : T → Prop} [DecidablePred p] [DecidablePred q]

theorem count_le_card : count p ≤ Fintype.card T := Finset.card_le_univ _

theorem count_eq_zero (h : ∀ t, ¬ p t) : count p = 0 := by
  rw [count, Finset.card_eq_zero, Finset.filter_eq_empty_iff]
  intro t _
  exact h t

theorem count_pos {t : T} (h : p t) : 0 < count p :=
  Finset.card_pos.mpr ⟨t, Finset.mem_filter.mpr ⟨Finset.mem_univ t, h⟩⟩

variable [DecidableEq T]

theorem count_eq_add_erase (a : T) :
    count p = (if p a then 1 else 0) + ((Finset.univ.erase a).filter p).card := by
  rw [count, ← Finset.insert_erase (Finset.mem_univ a), Finset.filter_insert]
  split_ifs with h
  · rw [Finset.card_insert_of_notMem (by simp), Finset.erase_insert_eq_erase, Nat.add_comm]
    simp
  · simp

/-- Two properties that differ at `a` only. -/
theorem count_change (a : T) (h : ∀ t, t ≠ a → (p t ↔ q t)) :
    count p + (if q a then 1 else 0) = count q + (if p a then 1 else 0) := by
  have hrest : (Finset.univ.erase a).filter p = (Finset.univ.erase a).filter q := by
    apply Finset.filter_congr
    intro t ht
    exact h t (Finset.ne_of_mem_erase ht)
  rw [count_eq_add_erase (p := p) a, count_eq_add_erase (p := q) a, hrest]
  omega

end

end Os161
