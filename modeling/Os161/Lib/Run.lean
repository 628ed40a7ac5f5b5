import Mathlib.Tactic

/-! Runs of a labelled partial step function. A label that is not enabled ends
the run, so a statement over all label lists is one over all runs. -/

namespace Os161

section
variable {σ α : Type*} (step : σ → α → Option σ)

/-- The state a list of labels leads to, if each of them is enabled in turn. -/
def exec : σ → List α → Option σ
  | s, [] => some s
  | s, e :: es => (step s e).bind fun t => exec t es

/-- Every state visited from `s` along `evs` satisfies `P`. -/
def AllStates (P : σ → Prop) : σ → List α → Prop
  | s, [] => P s
  | s, e :: es => P s ∧ ∀ t, step s e = some t → AllStates P t es

/-- Every step taken from `s` along `evs` satisfies `ok`, read in the state
before the step. -/
def AllSteps (ok : σ → α → Prop) : σ → List α → Prop
  | _, [] => True
  | s, e :: es => ∀ t, step s e = some t → ok s e ∧ AllSteps ok t es

variable {step}

theorem AllStates.head {P : σ → Prop} {s : σ} {evs : List α} (h : AllStates step P s evs) : P s := by
  cases evs with
  | nil => exact h
  | cons e es => exact h.1

theorem AllStates.mono {P Q : σ → Prop} (hPQ : ∀ s, P s → Q s) {s : σ} {evs : List α}
    (h : AllStates step P s evs) : AllStates step Q s evs := by
  induction evs generalizing s with
  | nil => exact hPQ s h
  | cons e es ih => exact ⟨hPQ s h.1, fun t ht => ih (h.2 t ht)⟩

theorem AllSteps.and {ok ok' : σ → α → Prop} {s : σ} {evs : List α} (h : AllSteps step ok s evs)
    (h' : AllSteps step ok' s evs) : AllSteps step (fun s e => ok s e ∧ ok' s e) s evs := by
  induction evs generalizing s with
  | nil => trivial
  | cons e es ih =>
    intro t ht
    exact ⟨⟨(h t ht).1, (h' t ht).1⟩, ih (h t ht).2 (h' t ht).2⟩

/-- The invariant rule: what holds at the start and is kept by every allowed
step holds in every state of every run made of allowed steps. -/
theorem allStates_of_inv {I : σ → Prop} {ok : σ → α → Prop}
    (hstep : ∀ s e t, I s → ok s e → step s e = some t → I t) {s : σ} (hs : I s) {evs : List α}
    (hok : AllSteps step ok s evs) : AllStates step I s evs := by
  induction evs generalizing s with
  | nil => exact hs
  | cons e es ih =>
    refine ⟨hs, fun t ht => ih (hstep s e t hs (hok t ht).1 ht) (hok t ht).2⟩

theorem allSteps_true {s : σ} {evs : List α} : AllSteps step (fun _ _ => True) s evs := by
  induction evs generalizing s with
  | nil => trivial
  | cons e es ih => exact fun t _ => ⟨trivial, ih⟩

/-- The invariant rule when every step is allowed. -/
theorem allStates_of_step {I : σ → Prop} (hstep : ∀ s e t, I s → step s e = some t → I t)
    {s : σ} (hs : I s) (evs : List α) : AllStates step I s evs :=
  allStates_of_inv (fun s e t h (_ : True) ht => hstep s e t h ht) hs allSteps_true

/-- The same for what can be said of every step. -/
theorem allSteps_of_step {I : σ → Prop} {ok : σ → α → Prop}
    (hstep : ∀ s e t, I s → step s e = some t → ok s e ∧ I t) {s : σ} (hs : I s) (evs : List α) :
    AllSteps step ok s evs := by
  induction evs generalizing s with
  | nil => trivial
  | cons e es ih => exact fun t ht => ⟨(hstep s e t hs ht).1, ih (hstep s e t hs ht).2⟩

/-- The converse reading of a run: if a step into a state that satisfies `P`
must have been a good one, a run whose states all satisfy `P` has good steps only. -/
theorem allSteps_of_states {I P : σ → Prop} {ok good : σ → α → Prop}
    (hstep : ∀ s e t, I s → ok s e → step s e = some t → P t → good s e ∧ I t)
    {s : σ} (hs : I s) {evs : List α} (hok : AllSteps step ok s evs) (hP : AllStates step P s evs) :
    AllSteps step good s evs := by
  induction evs generalizing s with
  | nil => trivial
  | cons e es ih =>
    intro t ht
    obtain ⟨hg, hI⟩ := hstep s e t hs (hok t ht).1 ht (hP.2 t ht).head
    exact ⟨hg, ih hI (hok t ht).2 (hP.2 t ht)⟩

/-- The good steps of a concrete run are checked by running it. -/
instance decidableAllSteps {ok : σ → α → Prop} [∀ s e, Decidable (ok s e)] :
    (s : σ) → (evs : List α) → Decidable (AllSteps step ok s evs)
  | _, [] => isTrue trivial
  | s, e :: es =>
    match hs : step s e with
    | none => isTrue fun _ ht => by cases hs.symm.trans ht
    | some t =>
      have : Decidable (AllSteps step ok t es) := decidableAllSteps t es
      decidable_of_iff (ok s e ∧ AllSteps step ok t es)
        ⟨fun h _ hu => Option.some.inj (hs.symm.trans hu) ▸ h, fun h => h t hs⟩

theorem AllStates.exec {P : σ → Prop} {s t : σ} {evs : List α} (h : AllStates step P s evs)
    (ht : exec step s evs = some t) : P t := by
  induction evs generalizing s with
  | nil => cases ht; exact h
  | cons e es ih =>
    obtain ⟨u, hu, hr⟩ := Option.bind_eq_some_iff.mp ht
    exact ih (h.2 u hu) hr

end

end Os161
