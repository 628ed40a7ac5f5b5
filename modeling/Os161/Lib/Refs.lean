import Mathlib.Tactic

/-! A reference count whose last reference is not dropped but handed to a reclaimer,
which has to look at the count again: meanwhile the object may have been found and
referenced once more. -/

namespace Os161

/-- The count of an object, the references there are, and the reclaimers that carry one. -/
structure Refs where
  count : ℕ
  held : ℕ
  pending : ℕ
  deriving DecidableEq

namespace Refs

/-- No such object, yet or any more. -/
def none : Refs := ⟨0, 0, 0⟩

/-- A new object, with one reference for its maker. -/
def new : Refs := ⟨1, 1, 0⟩

def incref (r : Refs) : Refs := { r with count := r.count + 1, held := r.held + 1 }

/-- A reference is dropped, or the last one is handed on. -/
def decref (r : Refs) : Refs :=
  if 1 < r.count then { r with count := r.count - 1, held := r.held - 1 }
  else { r with held := r.held - 1, pending := r.pending + 1 }

/-- The reclaimer finds other references and drops its own. -/
def busy (r : Refs) : Refs := { r with count := r.count - 1, pending := r.pending - 1 }

/-- The count is right, and there is one reclaimer at most. -/
structure Ok (r : Refs) : Prop where
  count : r.count = r.held + r.pending
  pending : r.pending ≤ 1

variable {r : Refs}

theorem none_ok : none.Ok := ⟨rfl, by decide⟩

theorem new_ok : new.Ok := ⟨rfl, by decide⟩

theorem Ok.incref (h : r.Ok) : r.incref.Ok := by
  refine ⟨?_, h.pending⟩
  have := h.count
  simp only [Refs.incref]
  omega

theorem Ok.decref (h : r.Ok) (hheld : 0 < r.held) : r.decref.Ok := by
  have hcount := h.count
  have hpending := h.pending
  unfold Refs.decref
  split_ifs with hmany
  · exact ⟨by simp only; omega, hpending⟩
  · exact ⟨by simp only; omega, by simp only; omega⟩

theorem Ok.busy (h : r.Ok) (hpending : 0 < r.pending) : r.busy.Ok := by
  have hcount := h.count
  have hone := h.pending
  refine ⟨?_, ?_⟩ <;> simp only [Refs.busy] <;> omega

/-- A reclaimer that finds the count at one has the only reference. -/
theorem Ok.last (h : r.Ok) (hpending : 0 < r.pending) (hone : r.count = 1) : r.held = 0 := by
  have := h.count
  omega

/-- Otherwise there are others. -/
theorem Ok.others (h : r.Ok) (hpending : 0 < r.pending) (hne : r.count ≠ 1) : 1 < r.count := by
  have := h.count
  omega

theorem Ok.count_pos (h : r.Ok) (huse : 0 < r.held ∨ 0 < r.pending) : 0 < r.count := by
  have := h.count
  omega

end Refs

end Os161
