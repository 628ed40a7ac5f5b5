import Mathlib.Tactic

/-! Things that sit in lists, each of them in one list and once. A placement is
kept when some of the things of one list move to another, when a new thing comes
in and when one goes away; the order inside a list never matters. -/

namespace Os161

variable {P T : Type*}

/-- Every live thing is in exactly one of the lists `A p`, once, and nothing else
is in any of them. -/
structure Placed (A : P → List T) (live : T → Prop) : Prop where
  nodup : ∀ p, (A p).Nodup
  unique : ∀ p q t, t ∈ A p → t ∈ A q → p = q
  cover : ∀ t, live t ↔ ∃ p, t ∈ A p

namespace Placed

variable {A A' : P → List T} {live : T → Prop}

/-- Where a thing is after `ts` moved from `p` to `q`. -/
theorem mem_transfer (h : Placed A live) {p q : P} {ts : List T} (hpq : p ≠ q)
    (hp : (A p).Perm (ts ++ A' p)) (hq : (A' q).Perm (A q ++ ts))
    (ho : ∀ r, r ≠ p → r ≠ q → (A' r).Perm (A r)) (t : T) (r : P) :
    t ∈ A' r ↔ (t ∈ ts ∧ r = q) ∨ (t ∉ ts ∧ t ∈ A r) := by
  have hts : t ∈ ts → t ∈ A p := fun ht => hp.mem_iff.mpr (List.mem_append_left _ ht)
  have hdis : t ∈ ts → t ∉ A' p := fun ht ht' =>
    (List.nodup_append.mp (hp.nodup_iff.mp (h.nodup p))).2.2 t ht t ht' rfl
  by_cases hrp : r = p
  · subst hrp
    rw [hp.mem_iff, List.mem_append]
    tauto
  · by_cases hrq : r = q
    · subst hrq
      rw [hq.mem_iff, List.mem_append]
      tauto
    · rw [(ho r hrp hrq).mem_iff]
      have : t ∈ ts → t ∉ A r := fun ht ht' => hrp (h.unique r p t ht' (hts ht))
      tauto

/-- Some things move from one list to another. -/
theorem transfer (h : Placed A live) {p q : P} {l : List T} (hpq : p ≠ q)
    (hp : (A p).Perm (l ++ A' p)) (hq : (A' q).Perm (A q ++ l))
    (ho : ∀ r, r ≠ p → r ≠ q → (A' r).Perm (A r)) : Placed A' live := by
  have key := h.mem_transfer hpq hp hq ho
  have hts : ∀ t ∈ l, t ∈ A p := fun t ht => hp.mem_iff.mpr (List.mem_append_left _ ht)
  refine ⟨fun r => ?_, fun r r' t hr hr' => ?_, fun t => ?_⟩
  · by_cases hrp : r = p
    · subst hrp
      exact (List.nodup_append.mp (hp.nodup_iff.mp (h.nodup r))).2.1
    · by_cases hrq : r = q
      · subst hrq
        rw [hq.nodup_iff, List.nodup_append]
        refine ⟨h.nodup r, (List.nodup_append.mp (hp.nodup_iff.mp (h.nodup p))).1, ?_⟩
        rintro t ht u hu rfl
        exact hpq (h.unique p r t (hts t hu) ht)
      · exact (ho r hrp hrq).nodup_iff.mpr (h.nodup r)
  · rcases (key t r).mp hr with ⟨h1, h2⟩ | ⟨h1, h2⟩ <;> rcases (key t r').mp hr' with ⟨h3, h4⟩ | ⟨h3, h4⟩
    · rw [h2, h4]
    · exact absurd h1 h3
    · exact absurd h3 h1
    · exact h.unique r r' t h2 h4
  · rw [h.cover]
    constructor
    · rintro ⟨r, hr⟩
      by_cases ht : t ∈ l
      · exact ⟨q, (key t q).mpr (Or.inl ⟨ht, rfl⟩)⟩
      · exact ⟨r, (key t r).mpr (Or.inr ⟨ht, hr⟩)⟩
    · rintro ⟨r, hr⟩
      rcases (key t r).mp hr with ⟨ht, -⟩ | ⟨-, ht⟩
      · exact ⟨p, hts t ht⟩
      · exact ⟨r, ht⟩

theorem congr_live (h : Placed A live) {live' : T → Prop} (hl : ∀ t, live' t ↔ live t) : Placed A live' :=
  ⟨h.nodup, h.unique, fun t => (hl t).trans (h.cover t)⟩

/-- What is live may be left to the lists. -/
theorem self (h : Placed A live) : Placed A fun t => ∃ p, t ∈ A p := h.congr_live fun t => (h.cover t).symm

/-- Only the order inside the lists changes. -/
theorem perm (h : Placed A live) (ho : ∀ r, (A' r).Perm (A r)) : Placed A' live where
  nodup r := (ho r).nodup_iff.mpr (h.nodup r)
  unique p q t hp hq := h.unique p q t ((ho p).mem_iff.mp hp) ((ho q).mem_iff.mp hq)
  cover t := by simp only [h.cover, (ho _).mem_iff]

/-- A thing that was not live comes in. -/
theorem insert (h : Placed A live) {q : P} {t : T} (ht : ¬ live t) (hq : (A' q).Perm (A q ++ [t]))
    (ho : ∀ r, r ≠ q → (A' r).Perm (A r)) : Placed A' (fun u => live u ∨ u = t) := by
  have hnot : ∀ r, t ∉ A r := fun r hr => ht ((h.cover t).mpr ⟨r, hr⟩)
  have key : ∀ u r, u ∈ A' r ↔ u ∈ A r ∨ (u = t ∧ r = q) := by
    intro u r
    by_cases hrq : r = q
    · subst hrq
      simp [hq.mem_iff]
    · simp [(ho r hrq).mem_iff, hrq]
  refine ⟨fun r => ?_, fun r r' u hr hr' => ?_, fun u => ?_⟩
  · by_cases hrq : r = q
    · subst hrq
      rw [hq.nodup_iff, (List.perm_append_singleton t _).nodup_iff, List.nodup_cons]
      exact ⟨hnot r, h.nodup r⟩
    · exact (ho r hrq).nodup_iff.mpr (h.nodup r)
  · rcases (key u r).mp hr with h1 | ⟨h1, h2⟩ <;> rcases (key u r').mp hr' with h3 | ⟨h3, h4⟩
    · exact h.unique r r' u h1 h3
    · exact absurd (h3 ▸ h1) (hnot r)
    · exact absurd (h1 ▸ h3) (hnot r')
    · rw [h2, h4]
  · simp only [h.cover, key]
    constructor
    · rintro (⟨r, hr⟩ | hu)
      · exact ⟨r, Or.inl hr⟩
      · exact ⟨q, Or.inr ⟨hu, rfl⟩⟩
    · rintro ⟨r, hr | ⟨hu, -⟩⟩
      · exact Or.inl ⟨r, hr⟩
      · exact Or.inr hu

/-- A thing goes away. -/
theorem remove (h : Placed A live) {p : P} {t : T} (hp : (A p).Perm (t :: A' p))
    (ho : ∀ r, r ≠ p → (A' r).Perm (A r)) : Placed A' (fun u => live u ∧ u ≠ t) := by
  have htp : t ∈ A p := hp.mem_iff.mpr List.mem_cons_self
  have hnd := List.nodup_cons.mp (hp.nodup_iff.mp (h.nodup p))
  have key : ∀ u r, u ∈ A' r ↔ u ∈ A r ∧ u ≠ t := by
    intro u r
    by_cases hrp : r = p
    · subst hrp
      rw [hp.mem_iff, List.mem_cons]
      constructor
      · exact fun hu => ⟨Or.inr hu, fun hut => hnd.1 (hut ▸ hu)⟩
      · exact fun hu => hu.1.resolve_left hu.2
    · rw [(ho r hrp).mem_iff]
      exact ⟨fun hu => ⟨hu, fun hut => hrp (h.unique r p t (hut ▸ hu) htp)⟩, fun hu => hu.1⟩
  refine ⟨fun r => ?_, fun r r' u hr hr' => ?_, fun u => ?_⟩
  · by_cases hrp : r = p
    · subst hrp
      exact hnd.2
    · exact (ho r hrp).nodup_iff.mpr (h.nodup r)
  · exact h.unique r r' u ((key u r).mp hr).1 ((key u r').mp hr').1
  · simp only [h.cover, key]
    constructor
    · rintro ⟨⟨r, hr⟩, hu⟩
      exact ⟨r, hr, hu⟩
    · rintro ⟨r, hr, hu⟩
      exact ⟨⟨r, hr⟩, hu⟩

end Placed

end Os161
