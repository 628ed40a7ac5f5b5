import Mathlib.Tactic

/-! Accounting of a pool of units that are marked used: each used unit has exactly
one reference, or is pending, that is, handed out and not referenced yet. -/

namespace Os161

variable {R B : Type*}

/-- `used` holds of exactly the units that some `r` refers to and of the pending
ones; no unit has two references, and a pending one has none. -/
structure Owned (refs : R → B → Prop) (used : B → Prop) (pend : List B) : Prop where
  exact : ∀ b, used b ↔ (∃ r, refs r b) ∨ b ∈ pend
  unique : ∀ r r' b, refs r b → refs r' b → r = r'
  apart : ∀ b ∈ pend, ∀ r, ¬ refs r b
  nodup : pend.Nodup

namespace Owned

variable {refs refs' : R → B → Prop} {used used' : B → Prop} {pend : List B} {b : B} {r : R}

theorem congr (h : Owned refs used pend) (hr : ∀ r b, refs' r b ↔ refs r b) (hu : ∀ b, used' b ↔ used b) :
    Owned refs' used' pend where
  exact b := by simp only [hu, h.exact, hr]
  unique r r' b h1 h2 := h.unique r r' b ((hr r b).mp h1) ((hr r' b).mp h2)
  apart b hb r hrb := h.apart b hb r ((hr r b).mp hrb)
  nodup := h.nodup

theorem used_of_ref (h : Owned refs used pend) (hr : refs r b) : used b :=
  (h.exact b).mpr (Or.inl ⟨r, hr⟩)

theorem not_ref_of_unused (h : Owned refs used pend) (hu : ¬ used b) (r : R) : ¬ refs r b :=
  fun hr => hu (h.used_of_ref hr)

/-- An unused unit is handed out. -/
theorem alloc (h : Owned refs used pend) (hu : ¬ used b) (hu' : ∀ x, used' x ↔ used x ∨ x = b) :
    Owned refs used' (b :: pend) where
  exact x := by
    rw [hu', h.exact, List.mem_cons]
    tauto
  unique := h.unique
  apart x hx r := by
    rcases List.mem_cons.mp hx with rfl | hx
    · exact h.not_ref_of_unused hu r
    · exact h.apart x hx r
  nodup := List.nodup_cons.mpr ⟨fun hb => hu ((h.exact b).mpr (Or.inr hb)), h.nodup⟩

/-- A pending unit gets its reference. -/
theorem attach (h : Owned refs used (b :: pend)) (hne : ∀ r' ≠ r, ∀ x, refs' r' x ↔ refs r' x)
    (hno : ∀ x, ¬ refs r x) (hnew : ∀ x, refs' r x ↔ x = b) : Owned refs' used pend := by
  have hr (r' : R) (x : B) : refs' r' x ↔ refs r' x ∨ (r' = r ∧ x = b) := by
    by_cases he : r' = r
    · subst he
      simp [hno, hnew]
    · simp [hne r' he, he]
  have hb := h.apart b List.mem_cons_self
  refine ⟨fun x => ?_, fun r₁ r₂ x h1 h2 => ?_, fun x hx r' hrx => ?_, (List.nodup_cons.mp h.nodup).2⟩
  · simp only [h.exact, hr, List.mem_cons]
    constructor
    · rintro (⟨r', hx⟩ | rfl | hx)
      · exact Or.inl ⟨r', Or.inl hx⟩
      · exact Or.inl ⟨r, Or.inr ⟨rfl, rfl⟩⟩
      · exact Or.inr hx
    · rintro (⟨r', hx | ⟨-, hx⟩⟩ | hx)
      · exact Or.inl ⟨r', hx⟩
      · exact Or.inr (Or.inl hx)
      · exact Or.inr (Or.inr hx)
  · rcases (hr r₁ x).mp h1 with h1 | ⟨e1, hx⟩ <;> rcases (hr r₂ x).mp h2 with h2 | ⟨e2, hx'⟩
    · exact h.unique r₁ r₂ x h1 h2
    · exact absurd (hx' ▸ h1) (hb r₁)
    · exact absurd (hx ▸ h2) (hb r₂)
    · rw [e1, e2]
  · rcases (hr r' x).mp hrx with hrx | ⟨-, rfl⟩
    · exact h.apart x (List.mem_cons_of_mem b hx) r' hrx
    · exact (List.nodup_cons.mp h.nodup).1 hx

/-- A reference goes away and its unit becomes unused. -/
theorem free (h : Owned refs used pend) (hrb : refs r b) (hone : ∀ x, refs r x → x = b)
    (hne : ∀ r' ≠ r, ∀ x, refs' r' x ↔ refs r' x) (hno : ∀ x, ¬ refs' r x) (hu : ∀ x, used' x ↔ used x ∧ x ≠ b) :
    Owned refs' used' pend := by
  have hr (r' : R) (x : B) : refs' r' x ↔ refs r' x ∧ r' ≠ r := by
    by_cases he : r' = r
    · simp [he, hno]
    · simp [hne r' he, he]
  refine ⟨fun x => ?_, fun r₁ r₂ x h1 h2 => h.unique r₁ r₂ x ((hr r₁ x).mp h1).1 ((hr r₂ x).mp h2).1,
    fun x hx r' hrx => h.apart x hx r' ((hr r' x).mp hrx).1, h.nodup⟩
  simp only [hu, h.exact, hr]
  constructor
  · rintro ⟨⟨r', hx⟩ | hx, hne⟩
    · exact Or.inl ⟨r', hx, fun he => hne (hone x (he ▸ hx))⟩
    · exact Or.inr hx
  · rintro (⟨r', hx, hne⟩ | hx)
    · exact ⟨Or.inl ⟨r', hx⟩, fun he => hne (h.unique r' r b (he ▸ hx) hrb)⟩
    · exact ⟨Or.inr hx, fun he => h.apart b (he ▸ hx) r hrb⟩

/-- A pending unit is given back. -/
theorem giveBack (h : Owned refs used (b :: pend)) (hu : ∀ x, used' x ↔ used x ∧ x ≠ b) :
    Owned refs used' pend where
  exact x := by
    have hb := h.apart b List.mem_cons_self
    have hnot := (List.nodup_cons.mp h.nodup).1
    rw [hu, h.exact, List.mem_cons]
    constructor
    · rintro ⟨hx | rfl | hx, hne⟩
      · exact Or.inl hx
      · exact absurd rfl hne
      · exact Or.inr hx
    · rintro (⟨r, hx⟩ | hx)
      · exact ⟨Or.inl ⟨r, hx⟩, fun he => hb r (he ▸ hx)⟩
      · exact ⟨Or.inr (Or.inr hx), fun he => hnot (he ▸ hx)⟩
  unique := h.unique
  apart x hx := h.apart x (List.mem_cons_of_mem b hx)
  nodup := (List.nodup_cons.mp h.nodup).2

end Owned

/-- Counting after a change in one place. -/
theorem countP_range_change {p q : ℕ → Bool} {n k : ℕ} (hk : k < n) (hpq : ∀ l < n, l ≠ k → q l = p l) :
    (List.range n).countP q + (p k).toNat = (List.range n).countP p + (q k).toNat := by
  induction n with
  | zero => omega
  | succ n ih =>
    simp only [List.range_succ, List.countP_append, List.countP_singleton]
    by_cases hkn : k = n
    · subst hkn
      have hsame : (List.range k).countP q = (List.range k).countP p := by
        apply List.countP_congr
        intro l hl
        have hl := List.mem_range.mp hl
        rw [hpq l (by omega) (by omega)]
      rw [hsame]
      cases p k <;> cases q k <;> simp
    · have := ih (by omega) fun l hl hlk => hpq l (by omega) hlk
      rw [hpq n (by omega) (Ne.symm hkn)]
      omega

end Os161
