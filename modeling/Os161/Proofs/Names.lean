import Os161.Proofs.Directory

/-! The map of the directory when its slots change. -/

namespace Os161

namespace Vol

variable {V V' : Vol} {δ : ℕ → ℤ} {i j k l : ℕ} {n : List UInt8} {name : CStr}

theorem Dir.distinct (h : V.Dir δ) (hk : V.Entry n i k) (hl : V.Entry n j l) : k = l := by
  obtain ⟨hk, hi0, hki, hkn⟩ := hk
  obtain ⟨hl, hj0, hlj, hln⟩ := hl
  exact h.names k hk l hl (hki.symm ▸ hi0) (hlj.symm ▸ hj0) (hkn.trans hln.symm)

theorem names_eq_none : V.names n = none ↔ ∀ i k, ¬ V.Entry n i k := by
  rw [names, List.findSome?_eq_none_iff]
  simp only [List.mem_range, ite_eq_right_iff, reduceCtorEq, imp_false]
  constructor
  · rintro h i k ⟨hk, hi0, rfl, hn⟩
    exact h k hk ⟨hi0, hn⟩
  · rintro h k hk ⟨h0, hn⟩
    exact h _ k ⟨hk, h0, rfl, hn⟩

theorem exists_entry (h : V.names n = some i) : ∃ k, V.Entry n i k := by
  obtain ⟨k, hk, hi⟩ := List.exists_of_findSome?_eq_some h
  obtain ⟨hcond, hi⟩ := Option.ite_none_right_eq_some.mp hi
  obtain rfl := Option.some.inj hi
  exact ⟨k, List.mem_range.mp hk, hcond.1, rfl, hcond.2⟩

theorem Dir.names_eq_some (h : V.Dir δ) : V.names n = some i ↔ ∃ k, V.Entry n i k := by
  refine ⟨exists_entry, ?_⟩
  rintro ⟨k, hk⟩
  cases hn : V.names n with
  | none => exact absurd hk (names_eq_none.mp hn i k)
  | some j =>
    obtain ⟨l, hl⟩ := exists_entry hn
    obtain rfl := h.distinct hk hl
    rw [← hk.2.2.1, ← hl.2.2.1]

theorem finite_names (V : Vol) : {n | V.names n ≠ none}.Finite := by
  refine ((List.finite_toSet (List.range V.nslots)).image fun k => sfdName (V.slot k)).subset ?_
  intro n hn
  obtain ⟨i, hi⟩ := Option.ne_none_iff_exists'.mp hn
  obtain ⟨k, hk, -, -, hname⟩ := exists_entry hi
  exact ⟨k, List.mem_range.mpr hk, hname⟩

theorem SameDir.names (h : V.SameDir V') : V'.names = V.names := by
  funext n
  unfold Vol.names
  rw [h.nslots, ← List.head?_filterMap, ← List.head?_filterMap]
  refine congrArg List.head? (List.filterMap_congr fun k hk => ?_)
  rw [h.slot k (List.mem_range.mp hk)]

theorem SameDir.entry (h : V.SameDir V') : V'.Entry n i k ↔ V.Entry n i k := by
  unfold Entry
  rw [h.nslots]
  refine and_congr_right fun hk => ?_
  rw [h.slot k hk]

theorem SameDir.terminated (h : V.SameDir V') (hV : V.Terminated) : V'.Terminated := by
  intro k hk h0
  rw [h.nslots] at hk
  rw [h.slot k hk] at h0 ⊢
  exact hV k hk h0

/-- An entry in the new directory is the new one, or was there. -/
theorem DirSet.entry {e : List UInt8} (h : V.DirSet V' k e) :
    V'.Entry n i l ↔ (l = k ∧ i ≠ 0 ∧ sfdIno e = i ∧ sfdName e = n) ∨ (l ≠ k ∧ V.Entry n i l) := by
  unfold Entry
  by_cases hlk : l = k
  · obtain ⟨hk, hself⟩ := h.self
    simp [hlk, hk, hself]
  · simp only [hlk, false_and, false_or, ne_eq, not_false_eq_true, true_and]
    rw [h.lt hlk]
    refine and_congr_right fun hl => ?_
    rw [h.of_ne ((h.lt hlk).mpr hl) hlk]

/-- A new name for a file. -/
theorem DirSet.names_add (h : V.DirSet V' k (mkDirentry i name.chars)) (hV : V.Dir 0) (hV' : V'.Dir δ)
    (hi0 : i ≠ 0) (hi : i < 4294967296) (hshort : name.chars.length ≤ 59)
    (hfree : k < V.nslots → sfdIno (V.slot k) = 0) (hfresh : V.names name.chars = none) :
    V'.names = Function.update V.names name.chars (some i) := by
  have hent (n : List UInt8) (j : ℕ) : (∃ l, V'.Entry n j l) ↔ (n = name.chars ∧ j = i) ∨ ∃ l, V.Entry n j l := by
    simp only [h.entry, sfdIno_mkDirentry hi, sfdName_mkDirentry hshort]
    constructor
    · rintro ⟨l, ⟨-, -, rfl, rfl⟩ | ⟨-, hl⟩⟩
      · exact Or.inl ⟨rfl, rfl⟩
      · exact Or.inr ⟨l, hl⟩
    · rintro (⟨rfl, rfl⟩ | ⟨l, hl⟩)
      · exact ⟨k, Or.inl ⟨rfl, hi0, rfl, rfl⟩⟩
      · refine ⟨l, Or.inr ⟨?_, hl⟩⟩
        rintro rfl
        exact hl.2.1 (hl.2.2.1.symm.trans (hfree hl.1))
  funext n
  refine Option.ext fun j => ?_
  rw [hV'.names_eq_some, hent]
  by_cases hn : n = name.chars
  · subst hn
    have hno : ¬ ∃ l, V.Entry name.chars j l := fun hl => hl.elim (names_eq_none.mp hfresh j)
    rw [Function.update_self]
    simp [hno, eq_comm]
  · rw [Function.update_of_ne hn, hV.names_eq_some]
    simp [hn]

/-- A name is erased. -/
theorem DirSet.names_erase (h : V.DirSet V' k noDirentry) (hV : V.Dir 0) (hV' : V'.Dir δ) (hk : V.Entry n i k) :
    V'.names = Function.update V.names n none := by
  have hent (m : List UInt8) (j : ℕ) : (∃ l, V'.Entry m j l) ↔ m ≠ n ∧ ∃ l, V.Entry m j l := by
    simp only [h.entry, sfdIno_noDirentry]
    constructor
    · rintro ⟨l, ⟨-, hj0, rfl, -⟩ | ⟨hlk, hl⟩⟩
      · exact absurd rfl hj0
      · refine ⟨?_, l, hl⟩
        rintro rfl
        exact hlk (hV.distinct hl hk)
    · rintro ⟨hmn, l, hl⟩
      refine ⟨l, Or.inr ⟨?_, hl⟩⟩
      rintro rfl
      exact hmn (hl.2.2.2.symm.trans hk.2.2.2)
  funext m
  refine Option.ext fun j => ?_
  rw [hV'.names_eq_some, hent]
  by_cases hm : m = n
  · subst hm
    rw [Function.update_self]
    simp
  · rw [Function.update_of_ne hm, hV.names_eq_some]
    simp [hm]

theorem DirSet.terminated_add (h : V.DirSet V' k (mkDirentry i name.chars)) (hi : i < 4294967296)
    (hshort : name.chars.length ≤ 59) (hV : V.Terminated) : V'.Terminated := by
  intro l hl h0
  by_cases hlk : l = k
  · subst hlk
    rw [h.self.2, sfdIno_mkDirentry hi]
    exact ⟨name, hshort, rfl⟩
  · rw [h.of_ne hl hlk] at h0 ⊢
    exact hV l ((h.lt hlk).mp hl) h0

theorem DirSet.terminated_erase (h : V.DirSet V' k noDirentry) (hV : V.Terminated) : V'.Terminated := by
  intro l hl h0
  by_cases hlk : l = k
  · subst hlk
    rw [h.self.2] at h0
    exact absurd sfdIno_noDirentry h0
  · rw [h.of_ne hl hlk] at h0 ⊢
    exact hV l ((h.lt hlk).mp hl) h0

/-- The directory becomes the map `m`. -/
structure Becomes (V V' : Vol) (m : List UInt8 → Option ℕ) : Prop where
  names : V'.names = m
  terminated : V.Terminated → V'.Terminated

theorem Becomes.trans {V'' : Vol} {m m' : List UInt8 → Option ℕ} (h : V.Becomes V' m) (h' : V'.Becomes V'' m') :
    V.Becomes V'' m' :=
  ⟨h'.names, fun hV => h'.terminated (h.terminated hV)⟩

theorem SameDir.becomes (h : V.SameDir V') : V.Becomes V' V.names := ⟨h.names, h.terminated⟩

/-- Before and after a change the directory may be moved. -/
theorem Becomes.around {V₀ V'' : Vol} {f : (List UInt8 → Option ℕ) → List UInt8 → Option ℕ} (h : V.Becomes V' (f V.names))
    (h₀ : V₀.SameDir V) (h' : V'.SameDir V'') : V₀.Becomes V'' (f V₀.names) := by
  have := (h₀.becomes.trans h).trans h'.becomes
  rwa [h.names, h₀.names] at this

end Vol

end Os161
