import Os161.Lib.Op

/-! Memory that may run out: a block is got or not, as an oracle says for each attempt in
turn, and it is given back once. What is still out is kept as a list, the newest first, so
that a routine which gives back all it got leaves the list as it was. -/

namespace Os161

structure Blocks where
  /-- the blocks that are out -/
  live : List ℕ
  /-- the next block -/
  next : ℕ
  /-- the number of attempts so far -/
  tries : ℕ

namespace Blocks

variable {ε : Type}

/-- A block, or nothing if the oracle says so. -/
def alloc (okay : ℕ → Bool) : Op Blocks ε (Option ℕ) := do
  let b ← Op.get
  if okay b.tries = true then do
    Op.set ⟨b.next :: b.live, b.next + 1, b.tries + 1⟩
    pure (some b.next)
  else do
    Op.set { b with tries := b.tries + 1 }
    pure none

/-- To give back a block that is not out is an error. -/
def free (block : ℕ) : Op Blocks ε Unit := do
  let b ← Op.get
  Op.kassert (block ∈ b.live)
  Op.set { b with live := b.live.erase block }

variable {okay : ℕ → Bool} {b : Blocks} {c : Prop} {E : ε → Blocks → Prop}

theorem alloc_wp {Q : Option ℕ → Blocks → Prop} (hnone : okay b.tries = false → Q none { b with tries := b.tries + 1 })
    (hsome : okay b.tries = true → Q (some b.next) ⟨b.next :: b.live, b.next + 1, b.tries + 1⟩) :
    (alloc okay).wp c Q E b := by
  unfold alloc
  simp only [Op.wp_bind, Op.wp_get]
  rw [Op.wp_ite]
  exact ⟨hsome, fun h => hnone (by simpa using h)⟩

/-- The newest block is given back. -/
theorem free_wp {Q : Unit → Blocks → Prop} {block : ℕ} {l : List ℕ} (hlive : b.live = block :: l)
    (hQ : Q () { b with live := l }) : (free block).wp c Q E b := by
  unfold free
  simp only [Op.wp_bind, Op.wp_get]
  refine (Op.wp_kassert_of (by simp [hlive])).mpr ?_
  rw [Op.wp_set, hlive, List.erase_cons_head]
  exact hQ

/-- Of `n` attempts none failed. -/
def AllGot (okay : ℕ → Bool) (first n : ℕ) : Prop := ∀ k < n, okay (first + k) = true

instance (okay : ℕ → Bool) (first n : ℕ) : Decidable (AllGot okay first n) :=
  inferInstanceAs (Decidable (∀ k < n, _))

theorem AllGot.zero (okay : ℕ → Bool) (first : ℕ) : AllGot okay first 0 := fun _ hk => absurd hk (Nat.not_lt_zero _)

theorem allGot_succ {first n : ℕ} : AllGot okay first (n + 1) ↔ AllGot okay first n ∧ okay (first + n) = true := by
  constructor
  · exact fun h => ⟨fun k hk => h k (by omega), h n (by omega)⟩
  · rintro ⟨h, hn⟩ k hk
    rcases Nat.lt_succ_iff_lt_or_eq.mp hk with hk | rfl
    · exact h k hk
    · exact hn

theorem allGot_add {first m n : ℕ} : AllGot okay first (m + n) ↔ AllGot okay first m ∧ AllGot okay (first + m) n := by
  induction n with
  | zero => simp [AllGot.zero]
  | succ n ih => rw [← Nat.add_assoc, allGot_succ, ih, allGot_succ, and_assoc, Nat.add_assoc]

end Blocks

end Os161
