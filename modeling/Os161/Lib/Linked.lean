import Os161.Lib.Op

/-! Singly linked lists through a `next` function that end in a null pointer, and
loops that follow them. The list is what a proof speaks about; the pointers are
what the program has. -/

namespace Os161

variable {α : Type*}

/-- The pointers from `p` on visit the elements of the list and end in `nil`. -/
def Linked (nil : α) (next : α → α) : α → List α → Prop
  | p, [] => p = nil
  | p, x :: l => p = x ∧ x ≠ nil ∧ Linked nil next (next x) l

namespace Linked

variable {nil : α} {next next' : α → α} {p x : α} {l l' : List α}

theorem unique (h : Linked nil next p l) (h' : Linked nil next p l') : l = l' := by
  induction l generalizing p l' with
  | nil =>
    cases l' with
    | nil => rfl
    | cons y l' => exact absurd (h'.1.symm.trans h) h'.2.1
  | cons x l ih =>
    cases l' with
    | nil => exact absurd (h.1.symm.trans h') h.2.1
    | cons y l' =>
      obtain ⟨rfl, -, hl⟩ := h
      obtain ⟨rfl, -, hl'⟩ := h'
      rw [ih hl hl']

/-- From each of its elements the rest of the list is linked. -/
theorem suffix (h : Linked nil next p (l ++ x :: l')) : Linked nil next (next x) l' := by
  induction l generalizing p with
  | nil => exact h.2.2
  | cons y l ih => exact ih h.2.2

/-- A list that ends visits nothing twice: what comes after an element is determined
by it. -/
theorem nodup (h : Linked nil next p l) : l.Nodup := by
  induction l generalizing p with
  | nil => exact List.nodup_nil
  | cons x l ih =>
    refine List.nodup_cons.mpr ⟨fun hx => ?_, ih h.2.2⟩
    obtain ⟨l₁, l₂, rfl⟩ := List.append_of_mem hx
    have hsame := h.2.2.unique h.2.2.suffix
    have hlen := congrArg List.length hsame
    simp only [List.length_append, List.length_cons] at hlen
    omega

theorem congr (h : Linked nil next p l) (hn : ∀ x ∈ l, next' x = next x) : Linked nil next' p l := by
  induction l generalizing p with
  | nil => exact h
  | cons x l ih =>
    refine ⟨h.1, h.2.1, ?_⟩
    rw [hn x List.mem_cons_self]
    exact ih h.2.2 fun y hy => hn y (List.mem_cons_of_mem x hy)

theorem head_eq (h : Linked nil next p l) : p = l.headD nil := by
  cases l with
  | nil => exact h
  | cons x l => exact h.1

/-- A new first element. -/
theorem push (h : Linked nil next p l) (hx : x ≠ nil) (hnext : next' x = p)
    (hn : ∀ y ∈ l, next' y = next y) : Linked nil next' x (x :: l) := by
  refine ⟨rfl, hx, ?_⟩
  rw [hnext]
  exact h.congr hn

end Linked

namespace Op

variable {σ ε β : Type} {α : Type} [DecidableEq α]

/-- `for (p = head; p != nil; p = next(p))`, with an accumulator; `done` is a break.
The bound on the number of turns is for lists that do not end. -/
def forLinked (nil : α) (next : σ → α → α) (body : α → β → Op σ ε (ForInStep β)) : ℕ → α → β → Op σ ε β
  | 0, p, b => if p = nil then pure b else panic
  | fuel + 1, p, b =>
    if p = nil then pure b
    else do
      match ← body p b with
      | .done b => pure b
      | .yield b => do
        let s ← get
        forLinked nil next body fuel (next s p) b

/-- The rule for such a loop over a list that the body does not change: `I` is the
invariant, which may speak of the elements to come. -/
theorem wp_forLinked {nil : α} {next : σ → α → α} {body : α → β → Op σ ε (ForInStep β)} {c : Prop}
    {R : β → σ → Prop} {E : ε → σ → Prop} {s : σ} (I : List α → β → Prop)
    (hstep : ∀ x rest b, I (x :: rest) b → (body x b).wp c (fun r t => t = s ∧ match r with
      | .done b => R b s
      | .yield b => I rest b) E s)
    (hend : ∀ b, I [] b → R b s) {fuel : ℕ} {p : α} {l : List α} {b : β} (hfuel : l.length ≤ fuel)
    (hl : Linked nil (next s) p l) (h : I l b) : (forLinked nil next body fuel p b).wp c R E s := by
  induction l generalizing fuel p b with
  | nil =>
    have hp : p = nil := hl
    cases fuel with
    | zero =>
      rw [forLinked, if_pos hp]
      exact hend b h
    | succ fuel =>
      rw [forLinked, if_pos hp]
      exact hend b h
  | cons x l ih =>
    obtain ⟨rfl, hne, hrest⟩ := hl
    cases fuel with
    | zero => exact absurd hfuel (by simp)
    | succ fuel =>
      rw [forLinked, if_neg hne, wp_bind]
      refine (hstep p l b h).mono (fun r t hr => ?_) fun _ _ he => he
      obtain ⟨rfl, hr⟩ := hr
      cases r with
      | done b => exact hr
      | yield b =>
        simp only [wp_bind, wp_get]
        exact ih (Nat.le_of_succ_le_succ hfuel) hrest hr

/-- A loop that looks for an element with `good`. -/
theorem wp_forLinked_find {nil : α} {next : σ → α → α} {body : α → Option α → Op σ ε (ForInStep (Option α))}
    {c : Prop} {R : Option α → σ → Prop} {E : ε → σ → Prop} {s : σ} {fuel : ℕ} {p : α} {l : List α}
    (good : α → Prop)
    (hbody : ∀ x ∈ l, (body x none).wp c (fun r t => t = s ∧
      ((r = .done (some x) ∧ good x) ∨ (r = .yield none ∧ ¬ good x))) E s)
    (hsome : ∀ x ∈ l, good x → R (some x) s) (hnone : (∀ x ∈ l, ¬ good x) → R none s)
    (hfuel : l.length ≤ fuel) (hl : Linked nil (next s) p l) :
    (forLinked nil next body fuel p none).wp c R E s := by
  refine wp_forLinked (fun rest b => b = none ∧ ∃ seen, l = seen ++ rest ∧ ∀ x ∈ seen, ¬ good x)
    (fun x rest b hI => ?_) (fun b hI => ?_) hfuel hl ⟨rfl, [], rfl, fun _ hx => absurd hx List.not_mem_nil⟩
  · obtain ⟨rfl, seen, hsplit, hseen⟩ := hI
    have hx : x ∈ l := by simp [hsplit]
    refine (hbody x hx).mono (fun r t hr => ?_) fun _ _ he => he
    obtain ⟨rfl, ⟨rfl, hgood⟩ | ⟨rfl, hbad⟩⟩ := hr
    · exact ⟨rfl, hsome x hx hgood⟩
    · refine ⟨rfl, rfl, seen ++ [x], by simp [hsplit], fun y hy => ?_⟩
      rcases List.mem_append.mp hy with hy | hy
      · exact hseen y hy
      · rw [List.mem_singleton.mp hy]
        exact hbad
  · obtain ⟨rfl, seen, hsplit, hseen⟩ := hI
    rw [List.append_nil] at hsplit
    exact hnone (hsplit ▸ hseen)

end Op

end Os161
