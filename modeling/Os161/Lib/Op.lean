import Mathlib.Tactic

/-! Operations of a kernel on its state: one returns a value, or an error number
with the changes made so far, or panics. Proofs go by weakest preconditions. -/

namespace Os161

inductive Res (σ ε α : Type) where
  | ok (a : α) (s : σ)
  | err (e : ε) (s : σ)
  | panic

/-- The same outcome, seen in another state. -/
def Res.map {σ τ ε α : Type} (f : σ → τ) : Res σ ε α → Res τ ε α
  | .ok a s => .ok a (f s)
  | .err e s => .err e (f s)
  | .panic => .panic

/-- Which way it ended, for runs on given inputs. -/
def Res.isOk {σ ε α : Type} : Res σ ε α → Bool
  | .ok _ _ => true
  | .err _ _ => false
  | .panic => false

def Res.isErr {σ ε α : Type} : Res σ ε α → Bool
  | .ok _ _ => false
  | .err _ _ => true
  | .panic => false

theorem Res.exists_of_isOk {σ ε α : Type} {r : Res σ ε α} (h : r.isOk = true) : ∃ a t, r = .ok a t := by
  cases r with
  | ok a t => exact ⟨a, t, rfl⟩
  | err e t => exact absurd h (by simp [Res.isOk])
  | panic => exact absurd h (by simp [Res.isOk])

theorem Res.exists_of_isErr {σ ε α : Type} {r : Res σ ε α} (h : r.isErr = true) : ∃ e t, r = .err e t := by
  cases r with
  | ok a t => exact absurd h (by simp [Res.isErr])
  | err e t => exact ⟨e, t, rfl⟩
  | panic => exact absurd h (by simp [Res.isErr])

def Op (σ ε α : Type) : Type := σ → Res σ ε α

namespace Op

variable {σ ρ ε α β : Type}

instance : Monad (Op σ ε) where
  pure a := fun s => .ok a s
  bind x f := fun s =>
    match x s with
    | .ok a t => f a t
    | .err e t => .err e t
    | .panic => .panic

def get : Op σ ε σ := fun s => .ok s s

def set (t : σ) : Op σ ε Unit := fun _ => .ok () t

def modify (f : σ → σ) : Op σ ε Unit := fun s => .ok () (f s)

/-- Return an error number. -/
def fail (e : ε) : Op σ ε α := fun s => .err e s

def panic : Op σ ε α := fun _ => .panic

/-- `KASSERT` -/
def kassert (p : Prop) [Decidable p] : Op σ ε Unit := if p then pure () else panic

/-- Run `x` and look at its return value. -/
def attempt (x : Op σ ε α) : Op σ ε (Except ε α) := fun s =>
  match x s with
  | .ok a t => .ok (.ok a) t
  | .err e t => .ok (.error e) t
  | .panic => .panic

/-- Run `x` on a part of the state, given with the way to put the part back. -/
def zoom (part : σ → ρ) (put : σ → ρ → σ) (x : Op ρ ε α) : Op σ ε α := fun s =>
  match x (part s) with
  | .ok a r => .ok a (put s r)
  | .err e r => .err e (put s r)
  | .panic => .panic

/-- The weakest precondition of `x`: if it returns a value `Q` holds then, if it
returns an error `E` holds, and `c` is what a panic counts for. -/
def wp (c : Prop) (x : Op σ ε α) (Q : α → σ → Prop) (E : ε → σ → Prop) (s : σ) : Prop :=
  match x s with
  | .ok a t => Q a t
  | .err e t => E e t
  | .panic => c

variable {c : Prop} {Q Q' : α → σ → Prop} {R : β → σ → Prop} {E E' : ε → σ → Prop} {s : σ}

theorem wp.mono {x : Op σ ε α} (h : x.wp c Q E s) (hQ : ∀ a t, Q a t → Q' a t)
    (hE : ∀ e t, E e t → E' e t) : x.wp c Q' E' s := by
  unfold wp at h ⊢
  cases hx : x s <;> simp only [hx] at h ⊢
  · exact hQ _ _ h
  · exact hE _ _ h
  · exact h

/-- What holds in every state holds after any operation. -/
theorem wp_always {x : Op σ ε α} (hQ : ∀ a t, Q a t) (hE : ∀ e t, E e t) : x.wp True Q E s := by
  unfold wp
  cases x s with
  | ok a t => exact hQ a t
  | err e t => exact hE e t
  | panic => trivial

/-- What does not panic is right whatever a panic counts for. -/
theorem wp.weaken {x : Op σ ε α} (h : x.wp False Q E s) : x.wp c Q E s := by
  unfold wp at h ⊢
  cases hx : x s <;> simp only [hx] at h ⊢
  · exact h
  · exact h

@[simp] theorem wp_pure (a : α) : (pure a : Op σ ε α).wp c Q E s ↔ Q a s := Iff.rfl

@[simp] theorem wp_bind (x : Op σ ε α) (f : α → Op σ ε β) :
    (x >>= f).wp c R E s ↔ x.wp c (fun a t => (f a).wp c R E t) E s := by
  simp only [wp, bind]
  cases x s <;> rfl

@[simp] theorem wp_get {Q : σ → σ → Prop} : (get : Op σ ε σ).wp c Q E s ↔ Q s s := Iff.rfl

@[simp] theorem wp_set {Q : Unit → σ → Prop} (t : σ) : (set t : Op σ ε Unit).wp c Q E s ↔ Q () t :=
  Iff.rfl

@[simp] theorem wp_modify {Q : Unit → σ → Prop} (f : σ → σ) :
    (modify f : Op σ ε Unit).wp c Q E s ↔ Q () (f s) := Iff.rfl

@[simp] theorem wp_fail (e : ε) : (fail e : Op σ ε α).wp c Q E s ↔ E e s := Iff.rfl

@[simp] theorem wp_panic : (panic : Op σ ε α).wp c Q E s ↔ c := Iff.rfl

theorem wp_ite (p : Prop) [Decidable p] (x y : Op σ ε α) :
    (if p then x else y).wp c Q E s ↔ (p → x.wp c Q E s) ∧ (¬ p → y.wp c Q E s) := by
  split_ifs with hp <;> simp [hp]

/-- An assertion has to be shown where a panic counts for nothing. -/
@[simp] theorem wp_kassert {Q : Unit → σ → Prop} (p : Prop) [Decidable p] :
    (kassert p : Op σ ε Unit).wp False Q E s ↔ p ∧ Q () s := by
  unfold kassert
  rw [wp_ite, wp_pure, wp_panic]
  tauto

/-- It may be taken for granted where a panic is as good as any end. -/
@[simp] theorem wp_kassert_true {Q : Unit → σ → Prop} (p : Prop) [Decidable p] :
    (kassert p : Op σ ε Unit).wp True Q E s ↔ (p → Q () s) := by
  unfold kassert
  rw [wp_ite, wp_pure, wp_panic]
  tauto

/-- One that holds does nothing. -/
theorem wp_kassert_of {Q : Unit → σ → Prop} {p : Prop} [Decidable p] (hp : p) :
    (kassert p : Op σ ε Unit).wp c Q E s ↔ Q () s := by
  unfold kassert
  rw [if_pos hp, wp_pure]

/-- Otherwise it is a panic that has to be accounted for. -/
theorem wp_kassert_cases {Q : Unit → σ → Prop} {p : Prop} [Decidable p] :
    (kassert p : Op σ ε Unit).wp c Q E s ↔ (p → Q () s) ∧ (¬ p → c) := by
  unfold kassert
  rw [wp_ite, wp_pure, wp_panic]

@[simp] theorem wp_attempt {Q : Except ε α → σ → Prop} (x : Op σ ε α) :
    x.attempt.wp c Q E s ↔ x.wp c (fun a => Q (.ok a)) (fun e => Q (.error e)) s := by
  simp only [wp, attempt]
  cases x s <;> rfl

@[simp] theorem wp_zoom (part : σ → ρ) (put : σ → ρ → σ) (x : Op ρ ε α) :
    (zoom part put x).wp c Q E s ↔
      x.wp c (fun a r => Q a (put s r)) (fun e r => E e (put s r)) (part s) := by
  simp only [wp, zoom]
  cases x (part s) <;> rfl

/-- The rule for a loop with an accumulator: `I` is the invariant, which may speak
of what is left to do. -/
theorem wp_foldlM {ι : Type} {f : β → ι → Op σ ε β} (I : List ι → β → σ → Prop)
    (hstep : ∀ i rest b s, I (i :: rest) b s → (f b i).wp c (I rest) E s)
    (hend : ∀ b s, I [] b s → R b s) {l : List ι} {b : β} (h : I l b s) :
    (l.foldlM f b).wp c R E s := by
  induction l generalizing b s with
  | nil => exact hend b s h
  | cons i rest ih =>
    rw [List.foldlM_cons, wp_bind]
    exact (hstep i rest b s h).mono (fun _ _ hI => ih hI) fun _ _ he => he

/-- The same for a loop that counts up to `n`. -/
theorem wp_foldlM_range {f : β → ℕ → Op σ ε β} {n : ℕ} (I : ℕ → β → σ → Prop)
    (hstep : ∀ k < n, ∀ b s, I k b s → (f b k).wp c (I (k + 1)) E s)
    (hend : ∀ b s, I n b s → R b s) {b : β} (h : I 0 b s) : ((List.range n).foldlM f b).wp c R E s := by
  apply wp_foldlM (fun rest b s => ∃ k ≤ n, rest = List.range' k (n - k) ∧ I k b s)
  · rintro i rest b s ⟨k, hk, hrest, hI⟩
    have hlt : k < n := by
      by_contra hge
      rw [Nat.sub_eq_zero_of_le (by omega)] at hrest
      exact List.cons_ne_nil _ _ hrest
    rw [show n - k = (n - (k + 1)) + 1 by omega, List.range'_succ, List.cons.injEq] at hrest
    obtain ⟨rfl, rfl⟩ := hrest
    exact (hstep i hlt b s hI).mono (fun _ _ hI' => ⟨i + 1, hlt, rfl, hI'⟩) fun _ _ he => he
  · rintro b s ⟨k, hk, hrest, hI⟩
    have hkn : k = n := by
      have := congrArg List.length hrest
      rw [List.length_range'] at this
      simp only [List.length_nil] at this
      omega
    exact hend b s (hkn ▸ hI)
  · exact ⟨0, Nat.zero_le n, by rw [List.range_eq_range', Nat.sub_zero], h⟩

/-- What `wp` says of the outcome. -/
theorem wp.cases {x : Op σ ε α} (h : x.wp c Q E s) :
    (∃ a t, x s = .ok a t ∧ Q a t) ∨ (∃ e t, x s = .err e t ∧ E e t) ∨ (x s = .panic ∧ c) := by
  unfold wp at h
  cases hx : x s <;> simp only [hx] at h
  · exact Or.inl ⟨_, _, rfl, h⟩
  · exact Or.inr (Or.inl ⟨_, _, rfl, h⟩)
  · exact Or.inr (Or.inr ⟨rfl, h⟩)

theorem wp_of_ok {x : Op σ ε α} {a : α} {t : σ} (h : x s = .ok a t) : x.wp c Q E s ↔ Q a t := by
  unfold wp
  rw [h]

theorem wp_of_err {x : Op σ ε α} {e : ε} {t : σ} (h : x s = .err e t) : x.wp c Q E s ↔ E e t := by
  unfold wp
  rw [h]

/-- The state that is left, whether the operation succeeds or not. -/
def after (x : Op σ ε α) (s : σ) : Option σ :=
  match x s with
  | .ok _ t => some t
  | .err _ t => some t
  | .panic => none

theorem wp.after {x : Op σ ε α} {P : σ → Prop} (h : x.wp c (fun _ t => P t) (fun _ t => P t) s) {t : σ}
    (ht : x.after s = some t) : P t := by
  unfold Op.after at ht
  obtain ⟨_, u, hu, hP⟩ | ⟨_, u, hu, hP⟩ | ⟨hu, -⟩ := h.cases
  · rw [hu, Option.some.injEq] at ht
    exact ht ▸ hP
  · rw [hu, Option.some.injEq] at ht
    exact ht ▸ hP
  · rw [hu] at ht
    exact absurd ht (by simp)

/-! Operations that keep a relation between the state before and the state after,
where the relation is reflexive and transitive. -/

/-- If `x` returns, with a value or with an error, its states are related by `R`. -/
def Keeps (R : σ → σ → Prop) (x : Op σ ε α) : Prop :=
  ∀ s, x.wp True (fun _ t => R s t) (fun _ t => R s t) s

section
variable {R : σ → σ → Prop}

theorem Keeps.wp {x : Op σ ε α} (h : x.Keeps R) (hQ : ∀ a t, R s t → Q a t) (hE : ∀ e t, R s t → E e t) :
    x.wp True Q E s := (h s).mono hQ hE

theorem Keeps.mono {R' : σ → σ → Prop} {x : Op σ ε α} (h : x.Keeps R) (hR : ∀ s t, R s t → R' s t) :
    x.Keeps R' := by
  intro s
  exact h.wp (fun _ t => hR s t) fun _ t => hR s t

theorem keeps_panic : (panic : Op σ ε α).Keeps R := fun _ => trivial

theorem Keeps.attempt {x : Op σ ε α} (h : x.Keeps R) : x.attempt.Keeps R := by
  intro s
  rw [wp_attempt]
  exact h s

theorem Keeps.ite {p : Prop} [Decidable p] {x y : Op σ ε α} (hx : x.Keeps R) (hy : y.Keeps R) :
    (if p then x else y).Keeps R := by
  split_ifs
  · exact hx
  · exact hy

theorem keeps_modify {f : σ → σ} (h : ∀ s, R s (f s)) : (modify f : Op σ ε Unit).Keeps R := h

variable [IsPreorder σ R]

theorem keeps_pure (a : α) : (pure a : Op σ ε α).Keeps R := refl_of R

theorem keeps_fail (e : ε) : (fail e : Op σ ε α).Keeps R := refl_of R

theorem keeps_get : (get : Op σ ε σ).Keeps R := refl_of R

theorem keeps_kassert (p : Prop) [Decidable p] : (kassert p : Op σ ε Unit).Keeps R :=
  Keeps.ite (keeps_pure ()) keeps_panic

theorem Keeps.bind {x : Op σ ε α} {f : α → Op σ ε β} (hx : x.Keeps R) (hf : ∀ a, (f a).Keeps R) :
    (x >>= f).Keeps R := by
  intro s
  rw [wp_bind]
  apply hx.wp
  · intro a t hst
    exact (hf a).wp (fun _ u htu => trans_of R hst htu) fun _ u htu => trans_of R hst htu
  · intro e t hst
    exact hst

theorem keeps_foldlM {ι : Type} {f : β → ι → Op σ ε β} (hf : ∀ b i, (f b i).Keeps R) (l : List ι) (b : β) :
    (l.foldlM f b).Keeps R := by
  induction l generalizing b with
  | nil => exact keeps_pure b
  | cons i rest ih =>
    rw [List.foldlM_cons]
    exact (hf b i).bind ih

end

/-! Operations that return no error. -/

/-- From a state with `I` the operation returns no error, and `I` holds afterwards. -/
def Sure (I : σ → Prop) (x : Op σ ε α) : Prop := ∀ s, I s → x.wp True (fun _ t => I t) (fun _ _ => False) s

section
variable {I : σ → Prop}

theorem sure_pure (a : α) : (pure a : Op σ ε α).Sure I := fun _ hs => hs

theorem sure_panic : (panic : Op σ ε α).Sure I := fun _ _ => trivial

theorem sure_get : (get : Op σ ε σ).Sure I := fun _ hs => hs

theorem sure_modify {f : σ → σ} (hf : ∀ s, I s → I (f s)) : (modify f : Op σ ε Unit).Sure I := hf

theorem Sure.ite {p : Prop} [Decidable p] {x y : Op σ ε α} (hx : x.Sure I) (hy : y.Sure I) :
    (if p then x else y).Sure I := by
  split_ifs
  · exact hx
  · exact hy

theorem Sure.bind {x : Op σ ε α} {f : α → Op σ ε β} (hx : x.Sure I) (hf : ∀ a, (f a).Sure I) : (x >>= f).Sure I := by
  intro s hs
  rw [wp_bind]
  apply (hx s hs).mono
  · intro a t ht
    exact hf a t ht
  · intro e t ht
    exact ht

theorem sure_foldlM {ι : Type} {f : β → ι → Op σ ε β} (hf : ∀ b i, (f b i).Sure I) (l : List ι) (b : β) :
    (l.foldlM f b).Sure I := by
  induction l generalizing b with
  | nil => exact sure_pure b
  | cons i rest ih =>
    rw [List.foldlM_cons]
    exact (hf b i).bind ih

end

/-- Two things that are known of one operation. -/
theorem wp.and {x : Op σ ε α} (h : x.wp c Q E s) (h' : x.wp c Q' E' s) :
    x.wp c (fun a t => Q a t ∧ Q' a t) (fun e t => E e t ∧ E' e t) s := by
  unfold wp at h h' ⊢
  cases hx : x s <;> simp only [hx] at h h' ⊢
  · exact ⟨h, h'⟩
  · exact ⟨h, h'⟩
  · exact h

/-! An outcome that is known. -/

theorem eq_ok_of_wp {x : Op σ ε α} {a : α} {t : σ}
    (h : x.wp False (fun b u => b = a ∧ u = t) (fun _ _ => False) s) : x s = .ok a t := by
  obtain ⟨b, u, hx, rfl, rfl⟩ | ⟨_, _, _, hno⟩ | ⟨_, hno⟩ := h.cases
  · exact hx
  · exact hno.elim
  · exact hno.elim

theorem eq_err_of_wp {x : Op σ ε α} {e : ε} {t : σ}
    (h : x.wp False (fun _ _ => False) (fun d u => d = e ∧ u = t) s) : x s = .err e t := by
  obtain ⟨_, _, _, hno⟩ | ⟨d, u, hx, rfl, rfl⟩ | ⟨_, hno⟩ := h.cases
  · exact hno.elim
  · exact hx
  · exact hno.elim

/-- Two outcomes that are the same but for the state. -/
theorem map_of_wp {τ : Type} {x : Op σ ε α} {f : σ → τ} {r : Res τ ε α}
    (h : x.wp False (fun a t => r = .ok a (f t)) (fun e t => r = .err e (f t)) s) : r = (x s).map f := by
  obtain ⟨a, t, hx, hr⟩ | ⟨e, t, hx, hr⟩ | ⟨_, hno⟩ := h.cases
  · rw [hx, hr]
    rfl
  · rw [hx, hr]
    rfl
  · exact hno.elim

/-! A state that is a view of another one. -/

section
variable {τ : Type} {f : σ → τ}

theorem zoom_map {part : σ → ρ} {put : σ → ρ → σ} {part' : τ → ρ} {put' : τ → ρ → τ} (x : Op ρ ε α)
    (hpart : part' (f s) = part s) (hput : ∀ r, put' (f s) r = f (put s r)) :
    x.zoom part' put' (f s) = (x.zoom part put s).map f := by
  unfold zoom
  rw [hpart]
  cases x (part s) <;> simp only [Res.map, hput]

theorem bind_map {x : Op τ ε α} {y : Op σ ε α} {k : α → Op τ ε β} {k' : α → Op σ ε β}
    (hx : x (f s) = (y s).map f) (hk : ∀ a t, y s = .ok a t → k a (f t) = (k' a t).map f) :
    (x >>= k) (f s) = ((y >>= k') s).map f := by
  simp only [bind]
  rw [hx]
  cases hy : y s with
  | ok a t => exact hk a t hy
  | err e t => rfl
  | panic => rfl

theorem pure_map (a : α) : (pure a : Op τ ε α) (f s) = ((pure a : Op σ ε α) s).map f := rfl

theorem fail_map (e : ε) : (fail e : Op τ ε α) (f s) = ((fail e : Op σ ε α) s).map f := rfl

theorem ite_map (p : Prop) [Decidable p] {x y : Op τ ε α} {x' y' : Op σ ε α} (hx : x (f s) = (x' s).map f)
    (hy : y (f s) = (y' s).map f) : (if p then x else y) (f s) = ((if p then x' else y') s).map f := by
  split_ifs
  · exact hx
  · exact hy

theorem foldlM_map {ι : Type} {g : β → ι → Op τ ε β} {g' : β → ι → Op σ ε β}
    (h : ∀ b i s, g b i (f s) = (g' b i s).map f) (l : List ι) (b : β) : (l.foldlM g b) (f s) = (l.foldlM g' b s).map f := by
  induction l generalizing b s with
  | nil => rfl
  | cons i rest ih =>
    rw [List.foldlM_cons, List.foldlM_cons]
    exact bind_map (h b i s) fun c t _ => ih c

theorem get_bind (k : σ → Op σ ε α) : (get >>= k) s = k s s := rfl

theorem kassert_eq_ok {p : Prop} [Decidable p] {a : Unit} {t : σ} (h : (kassert p : Op σ ε Unit) s = .ok a t) :
    p ∧ t = s := by
  unfold kassert at h
  split_ifs at h with hp
  · cases h
    exact ⟨hp, rfl⟩
  · cases h

/-- The same assertion on two states. -/
theorem kassert_map {p q : Prop} [Decidable p] [Decidable q] (hpq : p ↔ q) :
    (kassert p : Op τ ε Unit) (f s) = ((kassert q : Op σ ε Unit) s).map f := by
  unfold kassert
  by_cases hq : q
  · rw [if_pos hq, if_pos (hpq.mpr hq)]
    rfl
  · rw [if_neg hq, if_neg fun hp => hq (hpq.mp hp)]
    rfl

end

end Op

end Os161
