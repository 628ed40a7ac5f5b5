import Os161.Lib.Count

/-! Any number of agents that share a memory: each has its own place in its program, and a
move of one changes that place and the memory. -/

namespace Os161

variable {T P M : Type*}

structure Agents (T P M : Type*) where
  pc : T → P
  mem : M

namespace Agents

section
variable [Fintype T]

/-- How many agents are at a place with the property `p`. -/
def countAt (p : P → Bool) (pc : T → P) : ℕ := count fun a => p (pc a) = true

theorem le_countAt (p : P → Bool) (pc : T → P) (a : T) : (p (pc a)).toNat ≤ countAt p pc := by
  cases ha : p (pc a) with
  | false => exact Nat.zero_le _
  | true => exact count_pos (p := fun a => p (pc a) = true) ha

end

variable [DecidableEq T] {s t : Agents T P M} {a : T} {move : T → P → M → Option (P × M)}

/-- Agent `a` moves. -/
def run (move : T → P → M → Option (P × M)) (s : Agents T P M) (a : T) : Option (Agents T P M) :=
  (move a (s.pc a) s.mem).map fun r => ⟨Function.update s.pc a r.1, r.2⟩

/-- What a move of `a` leads to. -/
theorem run_cases (h : s.run move a = some t) :
    ∃ p m, move a (s.pc a) s.mem = some (p, m) ∧ t = ⟨Function.update s.pc a p, m⟩ := by
  obtain ⟨r, hmove, rfl⟩ := Option.map_eq_some_iff.mp h
  exact ⟨r.1, r.2, hmove, rfl⟩

/-- What holds of each agent and the memory is kept if the one that moves establishes it
again and no other is disturbed. -/
theorem forall_update {I : T → P → M → Prop} (h : ∀ b, I b (s.pc b) s.mem) {p : P} {m : M} (hlocal : I a p m)
    (hframe : ∀ b, b ≠ a → I b (s.pc b) s.mem → I b (s.pc b) m) (b : T) : I b (Function.update s.pc a p b) m := by
  by_cases hb : b = a
  · subst hb
    rw [Function.update_self]
    exact hlocal
  · rw [Function.update_of_ne hb]
    exact hframe b hb (h b)

theorem countAt_update [Fintype T] (p : P → Bool) (pc : T → P) (a : T) (x : P) :
    countAt p (Function.update pc a x) + (p (pc a)).toNat = countAt p pc + (p x).toNat := by
  have h := count_change (p := fun b => p (Function.update pc a x b) = true) (q := fun b => p (pc b) = true) a
    fun b hb => by rw [Function.update_of_ne hb]
  rw [Function.update_self] at h
  cases hx : p x <;> cases ha : p (pc a) <;> simp [hx, ha] at h ⊢ <;> exact h

theorem countAt_same [Fintype T] {p : P → Bool} {pc : T → P} {a : T} {x : P} (h : p x = p (pc a)) :
    countAt p (Function.update pc a x) = countAt p pc := by
  have := countAt_update p pc a x
  rw [h] at this
  omega

end Agents

end Os161
