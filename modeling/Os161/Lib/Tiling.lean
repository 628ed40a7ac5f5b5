import Mathlib.Tactic

/-! Items laid end to end from an address on. -/

namespace Os161

/-- The blocks at `x` and `y` do not overlap. -/
def Apart (x n y m : ℕ) : Prop := x + n ≤ y ∨ y + m ≤ x

section
variable {β : Type*} (len : β → ℕ)

/-- The items with their addresses. -/
def laid : ℕ → List β → List (ℕ × β)
  | _, [] => []
  | a, b :: bs => (a, b) :: laid (a + len b) bs

/-- The room that the items take. -/
def room (bs : List β) : ℕ := (bs.map len).sum

variable {len} {a x : ℕ} {b : β} {A B bs : List β}

@[simp] theorem room_nil : room len ([] : List β) = 0 := rfl

@[simp] theorem room_cons : room len (b :: bs) = len b + room len bs := rfl

@[simp] theorem room_append : room len (A ++ B) = room len A + room len B := by
  rw [room, List.map_append, List.sum_append]
  rfl

theorem laid_append : laid len a (A ++ B) = laid len a A ++ laid len (a + room len A) B := by
  induction A generalizing a with
  | nil => rfl
  | cons b A ih =>
    rw [List.cons_append, laid, laid, ih, List.cons_append, room_cons, Nat.add_assoc]

theorem laid_bounds (h : (x, b) ∈ laid len a bs) : a ≤ x ∧ x + len b ≤ a + room len bs := by
  induction bs generalizing a with
  | nil => exact absurd h List.not_mem_nil
  | cons c bs ih =>
    rw [room_cons]
    rcases List.mem_cons.mp h with he | h
    · obtain ⟨rfl, rfl⟩ := Prod.mk.inj he
      omega
    · have := ih h
      omega

theorem laid_middle : (a + room len A, b) ∈ laid len a (A ++ b :: B) := by
  rw [laid_append]
  exact List.mem_append_right _ List.mem_cons_self

theorem mem_of_laid (h : (x, b) ∈ laid len a bs) : b ∈ bs := by
  induction bs generalizing a with
  | nil => exact absurd h List.not_mem_nil
  | cons c bs ih =>
    rcases List.mem_cons.mp h with he | h
    · obtain ⟨-, rfl⟩ := Prod.mk.inj he
      exact List.mem_cons_self
    · exact List.mem_cons_of_mem c (ih h)

/-- Where an item lies, those before it and behind it lie elsewhere. -/
theorem exists_split (h : (x, b) ∈ laid len a bs) : ∃ A B, bs = A ++ b :: B ∧ x = a + room len A := by
  induction bs generalizing a with
  | nil => exact absurd h List.not_mem_nil
  | cons c bs ih =>
    rcases List.mem_cons.mp h with he | h
    · obtain ⟨rfl, rfl⟩ := Prod.mk.inj he
      exact ⟨[], bs, rfl, rfl⟩
    · obtain ⟨A, B, rfl, rfl⟩ := ih h
      exact ⟨c :: A, B, rfl, by rw [room_cons]; omega⟩

theorem laid_pairwise : (laid len a bs).Pairwise fun p q => p.1 + len p.2 ≤ q.1 := by
  induction bs generalizing a with
  | nil => exact List.Pairwise.nil
  | cons c bs ih => exact List.pairwise_cons.mpr ⟨fun q hq => (laid_bounds hq).1, ih⟩

theorem laid_apart {p q : ℕ × β} (hp : p ∈ laid len a bs) (hq : q ∈ laid len a bs) (hne : p ≠ q) :
    Apart p.1 (len p.2) q.1 (len q.2) := by
  have hpair : (laid len a bs).Pairwise fun p q => Apart p.1 (len p.2) q.1 (len q.2) :=
    laid_pairwise.imp Or.inl
  have : Std.Symm fun p q : ℕ × β => Apart p.1 (len p.2) q.1 (len q.2) := ⟨fun _ _ => Or.symm⟩
  exact hpair.forall hp hq hne

/-- Items that take room are told apart by their addresses. -/
theorem laid_inj {c : β} (hpos : ∀ d ∈ bs, 0 < len d) (hb : (x, b) ∈ laid len a bs) (hc : (x, c) ∈ laid len a bs) :
    b = c := by
  by_contra hne
  have h1 := hpos b (mem_of_laid hb)
  have h2 := hpos c (mem_of_laid hc)
  rcases laid_apart hb hc (fun he => hne (congrArg Prod.snd he)) with h | h <;> simp only at h <;> omega

end

end Os161
