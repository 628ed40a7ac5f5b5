import Os161.Spec.Qsort

/-! `qsort` sorts. The partition keeps the values up to the pivot value in front of `head`
and the greater ones behind `tail`, and follows the pivot when it is moved. -/

namespace Os161

variable {α : Type} {f : α → α → ℤ} {data : List α} {x y : α} {aa bb : ℕ}

namespace IsComparison

theorem self (hf : IsComparison f) (a : α) : f a a = 0 := by
  have h := hf.sign a a
  omega

/-- What is not greater the one way is greater the other way. -/
theorem le_symm (hf : IsComparison f) {a b : α} (h : 0 ≤ f a b) : f b a ≤ 0 := by
  have h' := hf.sign a b
  have h'' := hf.sign b a
  omega

theorem compare (hf : IsComparison f) (hx : data[aa]? = some x) (hy : data[bb]? = some y) :
    qsortCompare f data aa bb = some (f x y) := by
  unfold qsortCompare
  split_ifs with h
  · have hxy : x = y := by
      rw [h, hy] at hx
      exact (Option.some.inj hx).symm
    rw [hxy, hf.self]
  · simp [hx, hy]

end IsComparison

theorem qsortExchange_eq (hx : data[aa]? = some x) (hy : data[bb]? = some y) :
    qsortExchange data aa bb = some ((data.set aa y).set bb x) := by
  simp [qsortExchange, hx, hy]

theorem exchanged_perm (hx : data[aa]? = some x) (hy : data[bb]? = some y) :
    ((data.set aa y).set bb x).Perm data := by
  obtain ⟨ha, rfl⟩ := List.getElem?_eq_some_iff.mp hx
  obtain ⟨hb, rfl⟩ := List.getElem?_eq_some_iff.mp hy
  exact List.set_set_perm ha hb

theorem exchanged_at (hx : data[aa]? = some x) (hy : data[bb]? = some y) (i : ℕ) :
    ((data.set aa y).set bb x)[i]? = if i = bb then some x else if i = aa then some y else data[i]? := by
  have ha := (List.getElem?_eq_some_iff.mp hx).1
  have hb := (List.getElem?_eq_some_iff.mp hy).1
  rw [List.getElem?_set, List.getElem?_set, List.length_set]
  split_ifs <;> grind

/-! ### The partition -/

/-- `pv` is the pivot value, wherever it is by now. -/
structure Partition.Inv (f : α → α → ℤ) (data : List α) (pv : α) (s : Partition α) : Prop where
  perm : s.data.Perm data
  pivot : s.data[s.pivot]? = some pv
  low : ∀ i x, i < s.head → s.data[i]? = some x → f x pv ≤ 0
  high : ∀ i x, s.tail < i → s.data[i]? = some x → 0 < f x pv
  order : s.head ≤ s.tail + 1
  bound : s.tail < s.data.length

variable {s : Partition α} {pv : α}

theorem Partition.Inv.exchanged (h : s.Inv f data pv) (hlt : s.head < s.tail) (hx : s.data[s.head]? = some x)
    (hy : s.data[s.tail]? = some y) (hback : f y pv ≤ 0) (hfront : 0 < f x pv) :
    Partition.Inv f data pv ⟨(s.data.set s.head y).set s.tail x,
      if s.pivot = s.head then s.tail else if s.pivot = s.tail then s.head else s.pivot, s.head + 1, s.tail - 1⟩ := by
  have hat := exchanged_at hx hy
  refine ⟨(exchanged_perm hx hy).trans h.perm, ?_, fun i z hi hz => ?_, fun i z hi hz => ?_, ?_, ?_⟩
  · -- The pivot has followed its value.
    have hp := h.pivot
    simp only [hat]
    split_ifs <;> grind
  · rw [hat] at hz
    have := h.low i z
    simp only at hi
    split_ifs at hz <;> grind
  · rw [hat] at hz
    have := h.high i z
    simp only at hi
    split_ifs at hz <;> grind
  · simp only
    omega
  · have := h.bound
    simp only [List.length_set]
    omega

theorem Partition.Inv.step (hf : IsComparison f) (h : s.Inv f data pv) (hlt : s.head < s.tail) :
    ∃ s', s.step f = some s' ∧ s'.Inv f data pv ∧ s'.tail - s'.head < s.tail - s.head := by
  obtain ⟨y, hy⟩ : ∃ y, s.data[s.tail]? = some y := ⟨_, List.getElem?_eq_getElem h.bound⟩
  obtain ⟨x, hx⟩ : ∃ x, s.data[s.head]? = some x := ⟨_, List.getElem?_eq_getElem (hlt.trans h.bound)⟩
  have hstep : s.step f = if f x pv ≤ 0 then some { s with head := s.head + 1 }
      else if 0 < f y pv then some { s with tail := s.tail - 1 }
      else some ⟨(s.data.set s.head y).set s.tail x,
        if s.pivot = s.head then s.tail else if s.pivot = s.tail then s.head else s.pivot, s.head + 1, s.tail - 1⟩ := by
    simp [Partition.step, hf.compare hx h.pivot, hf.compare hy h.pivot, qsortExchange_eq hx hy]
  have hbound := h.bound
  by_cases hfront : f x pv ≤ 0
  · rw [if_pos hfront] at hstep
    refine ⟨_, hstep, ⟨h.perm, h.pivot, fun i z hi hz => ?_, h.high, by simp only; omega, h.bound⟩, by simp only; omega⟩
    simp only at hi hz
    rcases Nat.lt_succ_iff_lt_or_eq.mp hi with hi | rfl
    · exact h.low i z hi hz
    · grind
  · rw [if_neg hfront] at hstep
    by_cases hback : 0 < f y pv
    · rw [if_pos hback] at hstep
      refine ⟨_, hstep, ⟨h.perm, h.pivot, h.low, fun i z hi hz => ?_, by simp only; omega, by simp only; omega⟩,
        by simp only; omega⟩
      simp only at hi hz
      by_cases hit : i = s.tail
      · grind
      · exact h.high i z (by omega) hz
    · rw [if_neg hback] at hstep
      exact ⟨_, hstep, h.exchanged hlt hx hy (by omega) (by omega), by simp only; omega⟩

theorem Partition.Inv.loop (hf : IsComparison f) (turns : ℕ) (h : s.Inv f data pv) (hturns : s.tail - s.head < turns) :
    ∃ s', s.loop f turns = some s' ∧ s'.Inv f data pv ∧ s'.tail ≤ s'.head := by
  induction turns generalizing s with
  | zero => omega
  | succ turns ih =>
    unfold Partition.loop
    split_ifs with hlt
    · obtain ⟨s', hstep, hinv, hless⟩ := h.step hf hlt
      obtain ⟨s'', hloop, hend⟩ := ih hinv (by omega)
      exact ⟨s'', by simp [hstep, hloop], hend⟩
    · exact ⟨s, rfl, h, by omega⟩

/-- After step 3 the values up to the pivot value are in front of `tail`. -/
structure Partition.Split (f : α → α → ℤ) (data : List α) (pv : α) (s : Partition α) : Prop where
  perm : s.data.Perm data
  pivot : s.data[s.pivot]? = some pv
  low : ∀ i x, i < s.tail → s.data[i]? = some x → f x pv ≤ 0
  high : ∀ i x, s.tail ≤ i → s.data[i]? = some x → 0 < f x pv
  bound : s.tail ≤ s.data.length

theorem partitionAround_split (hf : IsComparison f) (data : List α) (hlen : 1 < data.length) :
    ∃ s pv, partitionAround f data = some s ∧ s.Split f data pv := by
  obtain ⟨pv, hpv⟩ : ∃ pv, data[data.length / 2]? = some pv := ⟨_, List.getElem?_eq_getElem (by omega)⟩
  have hstart : Partition.Inv f data pv ⟨data, data.length / 2, 0, data.length - 1⟩ := by
    refine ⟨.refl _, hpv, fun i x hi => absurd hi (Nat.not_lt_zero i), fun i x hi hx => ?_, by simp, by simp only; omega⟩
    have hlt := (List.getElem?_eq_some_iff.mp hx).1
    simp only at hi hlt
    omega
  obtain ⟨s, hloop, hinv, hend⟩ := hstart.loop hf data.length (by simp only; omega)
  have hbound := hinv.bound
  have horder := hinv.order
  by_cases hcross : s.tail < s.head
  · refine ⟨{ s with tail := s.tail + 1 }, pv, by simp [partitionAround, hloop, hcross], hinv.perm, hinv.pivot, ?_, ?_, ?_⟩
    · intro i x hi hx
      exact hinv.low i x (by simp only at hi; omega) hx
    · intro i x hi hx
      exact hinv.high i x (by simp only at hi; omega) hx
    · exact hbound
  · have hmeet : s.head = s.tail := by omega
    obtain ⟨x, hx⟩ : ∃ x, s.data[s.head]? = some x := ⟨_, List.getElem?_eq_getElem (by omega)⟩
    by_cases hle : f x pv ≤ 0
    · refine ⟨{ s with tail := s.tail + 1 }, pv, ?_, hinv.perm, hinv.pivot, ?_, ?_, hbound⟩
      · simp [partitionAround, hloop, hcross, hf.compare hx hinv.pivot, hle]
      · intro i z hi hz
        simp only at hi hz
        by_cases hit : i = s.tail
        · grind
        · exact hinv.low i z (by omega) hz
      · intro i z hi hz
        exact hinv.high i z (by simp only at hi; omega) hz
    · refine ⟨s, pv, ?_, hinv.perm, hinv.pivot, fun i z hi => hinv.low i z (by omega), ?_, hbound.le⟩
      · simp [partitionAround, hloop, hcross, hf.compare hx hinv.pivot, hle]
      · intro i z hi hz
        by_cases hit : i = s.tail
        · grind
        · exact hinv.high i z (by omega) hz

/-! ### The pivot is the greatest value -/

/-- The last entry becomes one of the greatest. -/
theorem pivotToEnd_spec (hf : IsComparison f) {p : ℕ} (hp : data[p]? = some pv)
    (hmax : ∀ z ∈ data, f z pv ≤ 0) :
    ∃ r m, pivotToEnd f data p = some r ∧ r.Perm data ∧ r[r.length - 1]? = some m ∧ ∀ z ∈ r, f z m ≤ 0 := by
  have hlt := (List.getElem?_eq_some_iff.mp hp).1
  obtain ⟨y, hy⟩ : ∃ y, data[data.length - 1]? = some y := ⟨_, List.getElem?_eq_getElem (by omega)⟩
  unfold pivotToEnd
  by_cases hbefore : p < data.length - 1
  · rw [if_pos hbefore, hf.compare hp hy, Option.bind_eq_bind, Option.bind_some]
    by_cases hgt : 0 < f pv y
    · rw [if_pos hgt, qsortExchange_eq hp hy]
      have hperm := exchanged_perm hp hy
      refine ⟨_, pv, rfl, hperm, ?_, fun z hz => hmax z (hperm.mem_iff.mp hz)⟩
      rw [exchanged_at hp hy, if_pos (by simp)]
    · rw [if_neg hgt]
      exact ⟨data, y, rfl, .refl _, hy, fun z hz => hf.trans z pv y (hmax z hz) (by omega)⟩
  · rw [if_neg hbefore]
    have hlast : p = data.length - 1 := by omega
    exact ⟨data, pv, rfl, .refl _, hlast ▸ hp, hmax⟩

/-- What is lopped off is as great as the last one. -/
theorem lopEqual_spec (hf : IsComparison f) (data : List α) (m : α) (tail : ℕ) (hlt : tail < data.length)
    (heq : ∀ i z, tail ≤ i → data[i]? = some z → f m z ≤ 0) :
    ∃ t, lopEqual f data tail = some t ∧ t ≤ tail ∧ ∀ i z, t ≤ i → data[i]? = some z → f m z ≤ 0 := by
  induction tail with
  | zero => exact ⟨0, rfl, le_refl 0, heq⟩
  | succ tail ih =>
    obtain ⟨x, hx⟩ : ∃ x, data[tail]? = some x := ⟨_, List.getElem?_eq_getElem (by omega)⟩
    obtain ⟨y, hy⟩ : ∃ y, data[tail + 1]? = some y := ⟨_, List.getElem?_eq_getElem hlt⟩
    unfold lopEqual
    rw [hf.compare hx hy, Option.bind_eq_bind, Option.bind_some]
    by_cases h0 : f x y = 0
    · rw [if_pos h0]
      have hx' : f m x ≤ 0 := hf.trans m y x (heq _ _ le_rfl hy) (hf.le_symm h0.ge)
      obtain ⟨t, ht, hle, hall⟩ := ih (by omega) fun i z hi hz => by
        by_cases hit : i = tail
        · grind
        · exact heq i z (by omega) hz
      exact ⟨t, ht, hle.trans (Nat.le_succ tail), hall⟩
    · rw [if_neg h0]
      exact ⟨tail + 1, rfl, le_rfl, heq⟩

/-! ### The recursion -/

/-- `r` has the values of `data` in order. -/
structure IsSorting (f : α → α → ℤ) (data r : List α) : Prop where
  perm : r.Perm data
  sorted : r.Pairwise fun a b => f a b ≤ 0

variable {sort : List α → Option (List α)}

theorem IsSorting.append (hf : IsComparison f) {l l' r r' : List α} {m : α} (h : IsSorting f l r) (h' : IsSorting f l' r')
    (hlow : ∀ a ∈ l, f a m ≤ 0) (hhigh : ∀ b ∈ l', f m b ≤ 0) : IsSorting f (l ++ l') (r ++ r') := by
  refine ⟨h.perm.append h'.perm, List.pairwise_append.mpr ⟨h.sorted, h'.sorted, fun a ha b hb => ?_⟩⟩
  exact hf.trans a m b (hlow a (h.perm.mem_iff.mp ha)) (hhigh b (h'.perm.mem_iff.mp hb))

/-- Values between which there is no difference are in order. -/
theorem isSorting_equal (hf : IsComparison f) {l : List α} {m : α} (hle : ∀ a ∈ l, f a m ≤ 0) (hge : ∀ a ∈ l, f m a ≤ 0) :
    IsSorting f l l :=
  ⟨.refl l, List.pairwise_of_forall_mem_list fun a ha b hb => hf.trans a m b (hle a ha) (hge b hb)⟩

theorem sortParts_spec (hf : IsComparison f) (hs : s.Split f data pv)
    (hsort : ∀ l : List α, l.length < data.length → ∃ r, sort l = some r ∧ IsSorting f l r) :
    ∃ r, sortParts f sort s = some r ∧ IsSorting f data r := by
  have hlength := hs.perm.length_eq
  have hpivot := (List.getElem?_eq_some_iff.mp hs.pivot).1
  have hlow : ∀ a ∈ s.data.take s.tail, f a pv ≤ 0 := by
    intro a ha
    obtain ⟨i, hi, rfl⟩ := List.mem_take_iff_getElem.mp ha
    exact hs.low i _ (by omega) (List.getElem?_eq_getElem _)
  unfold sortParts
  by_cases hall : s.tail = s.data.length
  · rw [if_pos hall]
    rw [hall, List.take_length] at hlow
    obtain ⟨r, m, hend, hperm, hm, hmax⟩ := pivotToEnd_spec hf hs.pivot hlow
    obtain ⟨t, hlop, hle, heq⟩ := lopEqual_spec hf r m (r.length - 1)
      (by have := hperm.length_eq; omega) fun i z hi hz => by
        have hlt := (List.getElem?_eq_some_iff.mp hz).1
        have hi : i = r.length - 1 := by omega
        rw [hi, hm, Option.some.injEq] at hz
        rw [← hz, hf.self]
    have hback : ∀ b ∈ r.drop t, f m b ≤ 0 := by
      intro b hb
      obtain ⟨i, hi, rfl⟩ := List.mem_drop_iff_getElem.mp hb
      exact heq (t + i) _ (by omega) (List.getElem?_eq_getElem _)
    have hequal : IsSorting f (r.drop t) (r.drop t) :=
      isSorting_equal hf (fun a ha => hmax a (List.mem_of_mem_drop ha)) hback
    have hdata : ∀ r', IsSorting f r r' → IsSorting f data r' := fun r' h => ⟨(h.perm.trans hperm).trans hs.perm, h.sorted⟩
    rw [hend, Option.bind_eq_bind, Option.bind_some, hlop, Option.bind_eq_bind, Option.bind_some]
    by_cases ht : 0 < t
    · obtain ⟨front, hfront, hsorted⟩ := hsort (r.take t) (by rw [List.length_take]; have := hperm.length_eq; omega)
      have happ := hsorted.append hf hequal (fun a ha => hmax a (List.mem_of_mem_take ha)) hback
      rw [List.take_append_drop] at happ
      rw [if_pos ht, hfront]
      exact ⟨_, rfl, hdata _ happ⟩
    · rw [if_neg ht]
      have ht : t = 0 := by omega
      rw [ht, List.drop_zero] at hequal
      exact ⟨r, rfl, hdata r hequal⟩
  · rw [if_neg hall]
    have hhigh : ∀ b ∈ s.data.drop s.tail, f pv b ≤ 0 := by
      intro b hb
      obtain ⟨i, hi, rfl⟩ := List.mem_drop_iff_getElem.mp hb
      exact hf.le_symm (hs.high (s.tail + i) _ (by omega) (List.getElem?_eq_getElem _)).le
    -- The pivot itself is in the front portion.
    have hpos : 0 < s.tail := by
      by_contra h0
      have := hs.high s.pivot pv (by omega) hs.pivot
      rw [hf.self] at this
      omega
    have hlt : s.tail < s.data.length := by
      have := hs.bound
      omega
    obtain ⟨front, hfront, hsorted⟩ := hsort (s.data.take s.tail) (by rw [List.length_take]; omega)
    obtain ⟨back, hback, hsorted'⟩ := hsort (s.data.drop s.tail) (by rw [List.length_drop]; omega)
    have happ := hsorted.append hf hsorted' hlow hhigh
    rw [List.take_append_drop] at happ
    rw [if_pos ⟨hpos, hlt⟩, hfront, hback]
    exact ⟨_, rfl, happ.perm.trans hs.perm, happ.sorted⟩

theorem qsortDepth_spec (hf : IsComparison f) (depth : ℕ) (data : List α) (hdepth : data.length < depth) :
    ∃ r, qsortDepth f depth data = some r ∧ IsSorting f data r := by
  induction depth generalizing data with
  | zero => omega
  | succ depth ih =>
    unfold qsortDepth
    by_cases hshort : data.length ≤ 1
    · rw [if_pos hshort]
      refine ⟨data, rfl, .refl data, ?_⟩
      cases data with
      | nil => exact List.Pairwise.nil
      | cons a l =>
        have hl : l = [] := List.length_eq_zero_iff.mp (by simpa using hshort)
        rw [hl]
        exact List.pairwise_singleton _ a
    · rw [if_neg hshort]
      obtain ⟨s, pv, hsplit, hs⟩ := partitionAround_split hf data (by omega)
      obtain ⟨r, hparts, hr⟩ := sortParts_spec hf hs fun l hl => ih l (by omega)
      have hrest : (do let s ← partitionAround f data; sortParts f (qsortDepth f depth) s) = some r := by
        simp [hsplit, hparts]
      rw [hrest]
      by_cases htwo : data.length = 2
      · rw [if_pos htwo]
        obtain ⟨a, b, rfl⟩ := List.length_eq_two.mp htwo
        rw [hf.compare (x := a) (y := b) rfl rfl, Option.bind_eq_bind, Option.bind_some]
        by_cases hgt : 0 < f a b
        · rw [if_pos hgt]
          refine ⟨[b, a], rfl, .swap a b [], ?_⟩
          simpa using hf.le_symm hgt.le
        · rw [if_neg hgt]
          exact ⟨r, rfl, hr⟩
      · rw [if_neg htwo]
        exact ⟨r, rfl, hr⟩

/-- `qsort` returns for every array and every total preorder, without an assertion having
failed, and the array is then in order and has the values that it had. -/
theorem qsort_sorts (f : α → α → ℤ) (hf : IsComparison f) (data : List α) :
    ∃ r, qsort f data = some r ∧ r.Perm data ∧ r.IsChain fun a b => f a b ≤ 0 := by
  obtain ⟨r, hr, hperm, hsorted⟩ := qsortDepth_spec hf (data.length + 1) data (Nat.lt_succ_self _)
  exact ⟨r, hr, hperm, hsorted.isChain⟩

/-- The difference compares integers. -/
theorem isComparison_sub : IsComparison fun a b : ℤ => a - b := ⟨fun a b => by omega, fun a b c => by omega⟩

theorem qsort_sorts_ints : IsComparison (fun a b : ℤ => a - b) ∧
    ∃ r, qsort (fun a b : ℤ => a - b) [3, 1, 2, 3, 1] = some r ∧ r.Perm [3, 1, 2, 3, 1] ∧
      r.IsChain fun a b => a - b ≤ 0 :=
  ⟨isComparison_sub, qsort_sorts (fun a b => a - b) isComparison_sub [3, 1, 2, 3, 1]⟩

example : qsort (fun a b : ℤ => a - b) [3, 1, 2, 3, 1] = some [1, 1, 2, 3, 3] := by decide

end Os161
