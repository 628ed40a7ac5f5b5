import Os161.Lib.Op

/-! A quantity of the state, such as a count of references or the depth of a lock, and
what an operation adds to it. -/

namespace Os161

namespace Op

variable {σ τ ε α β G : Type} [AddCommGroup G] {q : σ → G}

/-- If `x` returns `a` it has added `ok a` to the quantity, and `err` if it returns an
error. -/
def Adds (q : σ → G) (x : Op σ ε α) (ok : α → G) (err : G) : Prop :=
  ∀ s, x.wp True (fun a t => q t = q s + ok a) (fun _ t => q t = q s + err) s

/-- What was added, by the outcome. -/
def sides (ok : α → G) (err : G) : Except ε α → G
  | .ok a => ok a
  | .error _ => err

variable {x y : Op σ ε α} {ok : α → G} {err : G}

theorem adds_panic : (panic : Op σ ε α).Adds q ok err := fun _ => trivial

theorem adds_pure {a : α} (h : ok a = 0) : (pure a : Op σ ε α).Adds q ok err := by
  intro s
  rw [wp_pure, h, add_zero]

theorem adds_fail {e : ε} (h : err = 0) : (fail e : Op σ ε α).Adds q ok err := by
  intro s
  rw [wp_fail, h, add_zero]

theorem adds_modify {f : σ → σ} {ok : Unit → G} (h : ∀ s, q (f s) = q s + ok ()) :
    (modify f : Op σ ε Unit).Adds q ok err := h

theorem Adds.congr (hx : x.Adds q ok err) {ok' : α → G} {err' : G} (hok : ∀ a, ok' a = ok a) (herr : err' = err) :
    x.Adds q ok' err' := by
  intro s
  apply (hx s).mono
  · intro a t ht
    rw [ht, hok]
  · intro e t ht
    rw [ht, herr]

theorem Adds.ite {p : Prop} [Decidable p] (hx : p → x.Adds q ok err) (hy : ¬ p → y.Adds q ok err) :
    (if p then x else y).Adds q ok err := by
  split_ifs with hp
  · exact hx hp
  · exact hy hp

theorem adds_kassert (p : Prop) [Decidable p] : (kassert p : Op σ ε Unit).Adds q 0 err :=
  Adds.ite (fun _ => adds_pure rfl) fun _ => adds_panic

theorem Adds.attempt (hx : x.Adds q ok err) {err' : G} : x.attempt.Adds q (sides ok err) err' := by
  intro s
  rw [wp_attempt]
  exact hx s

/-- What follows has to make up for what was added before. -/
theorem Adds.bind {f : α → Op σ ε β} {ok' : β → G} (hx : x.Adds q ok err)
    (hf : ∀ a, (f a).Adds q (fun b => ok' b - ok a) (err - ok a)) : (x >>= f).Adds q ok' err := by
  intro s
  rw [wp_bind]
  apply (hx s).mono
  · intro a t ht
    apply (hf a t).mono
    · intro b u hu
      rw [hu, ht, add_assoc, add_sub_cancel]
    · intro e u hu
      rw [hu, ht, add_assoc, add_sub_cancel]
  · intro e t ht
    exact ht

/-- What follows may look at the state. -/
theorem adds_get_bind {f : σ → Op σ ε β} {ok : β → G}
    (h : ∀ s, (f s).wp True (fun b t => q t = q s + ok b) (fun _ t => q t = q s + err) s) :
    (get >>= f).Adds q ok err := h

/-- A part of the state that the quantity depends on. -/
theorem Adds.zoom {part : σ → τ} {put : σ → τ → σ} {p : τ → G} {x : Op τ ε α} (hx : x.Adds p ok err)
    (hput : ∀ s r, q (put s r) = q s + (p r - p (part s))) : (x.zoom part put).Adds q ok err := by
  intro s
  rw [wp_zoom]
  apply (hx (part s)).mono
  · intro a r hr
    rw [hput, hr, add_sub_cancel_left]
  · intro e r hr
    rw [hput, hr, add_sub_cancel_left]

end Op

end Os161
