import Os161.Spec.ThreadCount

/-! `thread_count` counts the menu thread and the forked threads, if the reset comes
after the last start-up thread has looked at it: before the reset the count is zero, so
that a start-up thread that looks leaves it alone. -/

namespace Os161

variable {n : ℕ} {s t : ThreadCount n}

/-- A forked thread that is there and has not passed the decrement. -/
def CountPc.counted : CountPc → Bool
  | .running | .exiting | .decrement | .decremented _ => true
  | _ => false

/-- A thread in the critical section. -/
def CountPc.inside : CountPc → Bool
  | .decrement | .decremented _ | .increment | .incremented _ => true
  | _ => false

def CountPc.loaded : CountPc → Option ℕ
  | .decremented c | .incremented c => some c
  | _ => none

theorem CountPc.inside_of_loaded {pc : CountPc} {c : ℕ} (h : pc.loaded = some c) : pc.inside = true := by
  cases pc <;> simp [CountPc.loaded] at h <;> rfl

namespace ThreadCount

/-- The forked threads that count. -/
def live (s : ThreadCount n) : ℕ := count fun p => (s.pc (.inr p)).counted = true

/-- Until the reset only the start-up threads do anything, and they do not count. -/
structure Before (s : ThreadCount n) : Prop where
  reset : s.reset = false
  count : s.threadCount = 0
  locked : s.locked = false
  forked : s.forked = 0
  passed : s.passed = 0
  free : ∀ p, s.pc (.inr p) = .free
  startup : ∀ i, s.pc (.inl i) = .hatching ∨ s.pc (.inl i) = .running ∨ s.pc (.inl i) = .gone

/-- Afterwards only forked threads do. -/
structure After (s : ThreadCount n) : Prop where
  reset : s.reset = true
  startup : ∀ i, s.pc (.inl i) = .gone
  count : s.threadCount = 1 + s.live
  forked : s.forked = s.passed + s.live
  locked : ∀ t, (s.pc t).inside = true → s.locked = true
  alone : ∀ t u, (s.pc t).inside = true → (s.pc u).inside = true → t = u
  loaded : ∀ t c, (s.pc t).loaded = some c → c = s.threadCount

theorem live_le : s.live ≤ stackPages := by
  have := count_le_card (p := fun p => (s.pc (.inr p)).counted = true)
  rwa [Fintype.card_fin] at this

/-- How the number changes when one thread moves on. -/
theorem live_goto (s : ThreadCount n) (p : Fin stackPages) (pc : CountPc) :
    (s.goto (.inr p) pc).live + (if (s.pc (.inr p)).counted = true then 1 else 0) =
      s.live + (if pc.counted = true then 1 else 0) := by
  have h := count_change (p := fun q => ((s.goto (.inr p) pc).pc (.inr q)).counted = true)
    (q := fun q => (s.pc (.inr q)).counted = true) p (by
      intro q hq
      simp only [goto, Function.update_of_ne (fun h => hq (Sum.inr.inj h))])
  simpa only [live, goto, Function.update_self] using h

theorem boot_before : (threadCountBoot n).Before :=
  ⟨rfl, rfl, rfl, rfl, rfl, fun _ => rfl, fun _ => .inl rfl⟩

theorem Before.right (h : s.Before) : s.Right := by
  constructor
  · intro hr
    rw [h.reset] at hr
    cases hr
  · intro hr
    rw [h.reset] at hr
    cases hr

theorem After.right (h : s.After) : s.Right := by
  have hcount := h.count
  have hforked := h.forked
  constructor
  · intro _ _
    omega
  · intro _ _ hnone
    have hlive : s.live = 0 := by
      apply count_eq_zero
      intro p
      rcases hnone p with hp | hp <;> simp [hp, CountPc.counted]
    omega

theorem Before.pc_cases (h : s.Before) (q : CountThread n) :
    s.pc q = .hatching ∨ s.pc q = .running ∨ s.pc q = .gone ∨ s.pc q = .free := by
  cases q with
  | inl i => rcases h.startup i with hi | hi | hi <;> simp [hi]
  | inr p => simp [h.free p]

theorem Before.step {e : CountEv n} (h : s.Before) (hok : s.Hatched e) (ht : countStep s e = some t) :
    t.Before ∨ t.After := by
  have hfree (q : Fin stackPages) : s.pc (.inr q) = .free := h.free q
  cases e with
  | V i =>
    simp only [countStep] at ht
    split_ifs at ht with hpc
    cases ht
    refine .inl ⟨h.reset, h.count, h.locked, h.forked, h.passed, fun p => hfree p, ?_⟩
    intro j
    by_cases hj : j = i
    · subst hj
      simp [goto]
    · simpa [goto, hj] using h.startup j
  | P =>
    simp only [countStep] at ht
    split_ifs at ht with hw
    cases ht
    exact .inl ⟨h.reset, h.count, h.locked, h.forked, h.passed, h.free, h.startup⟩
  | reset =>
    simp only [countStep] at ht
    split_ifs at ht with hw
    cases ht
    have hlive : s.live = 0 := count_eq_zero (by simp [hfree, CountPc.counted])
    have hout (q : CountThread n) : (s.pc q).inside = false ∧ (s.pc q).loaded = none := by
      cases q with
      | inl i => rw [hok i]; exact ⟨rfl, rfl⟩
      | inr p => rw [hfree p]; exact ⟨rfl, rfl⟩
    refine .inr ⟨rfl, hok, ?_, ?_, ?_, ?_, ?_⟩
    · show 1 = 1 + s.live
      rw [hlive]
    · show s.forked = s.passed + s.live
      rw [hlive, h.forked, h.passed]
    · intro q hq
      exact absurd hq (by simp [hout q])
    · intro q r hq
      exact absurd hq (by simp [hout q])
    · intro q c hq
      exact absurd hq (by simp [hout q])
  | fork p =>
    simp [countStep, h.reset] at ht
  | test q =>
    simp only [countStep] at ht
    split_ifs at ht with hpc hcount
    · exact absurd h.count hcount
    · cases ht
      cases q with
      | inr p => simp [hfree p] at hpc
      | inl i =>
        refine .inl ⟨h.reset, h.count, h.locked, h.forked, h.passed, fun p => hfree p, ?_⟩
        intro j
        by_cases hj : j = i
        · subst hj
          simp [goto]
        · simpa [goto, hj] using h.startup j
  | acquire q => rcases h.pc_cases q with hq | hq | hq | hq <;> simp [countStep, hq] at ht
  | load q => rcases h.pc_cases q with hq | hq | hq | hq <;> simp [countStep, hq] at ht
  | store q => rcases h.pc_cases q with hq | hq | hq | hq <;> simp [countStep, hq] at ht
  | exorcise p => simp [countStep, hfree p] at ht

/-- The rule for a step of the forked thread `p`: the count follows the number of threads
that count, and the thread is alone in the critical section. -/
theorem After.move (h : s.After) {p : Fin stackPages} {pc : CountPc} (hpc : t.pc = Function.update s.pc (.inr p) pc)
    (hreset : t.reset = s.reset)
    (hcount : t.threadCount + (if (s.pc (.inr p)).counted = true then 1 else 0) =
      s.threadCount + (if pc.counted = true then 1 else 0))
    (hforked : t.forked + s.passed + (if (s.pc (.inr p)).counted = true then 1 else 0) =
      s.forked + t.passed + (if pc.counted = true then 1 else 0))
    (hlocked : pc.inside = true → t.locked = true)
    (hloaded : ∀ c, pc.loaded = some c → c = t.threadCount)
    (hothers : ∀ q, q ≠ .inr p → (s.pc q).inside = true →
      pc.inside = false ∧ t.locked = s.locked ∧ t.threadCount = s.threadCount) : t.After := by
  have hself : t.pc (.inr p) = pc := by rw [hpc, Function.update_self]
  have hother (q : CountThread n) (hq : q ≠ .inr p) : t.pc q = s.pc q := by rw [hpc, Function.update_of_ne hq]
  have hlive : t.live + (if (s.pc (.inr p)).counted = true then 1 else 0) =
      s.live + (if pc.counted = true then 1 else 0) := by
    rw [← live_goto s p pc, live, live, hpc]
    rfl
  have hcount' := h.count
  have hforked' := h.forked
  refine ⟨hreset.trans h.reset, ?_, by omega, by omega, ?_, ?_, ?_⟩
  · intro i
    rw [hother _ (by simp)]
    exact h.startup i
  · intro q hq
    by_cases hqp : q = .inr p
    · subst hqp
      rw [hself] at hq
      exact hlocked hq
    · rw [hother q hqp] at hq
      rw [(hothers q hqp hq).2.1]
      exact h.locked q hq
  · intro q r hq hr
    by_cases hqp : q = .inr p <;> by_cases hrp : r = .inr p
    · rw [hqp, hrp]
    · rw [hother r hrp] at hr
      rw [hqp, hself, (hothers r hrp hr).1] at hq
      cases hq
    · rw [hother q hqp] at hq
      rw [hrp, hself, (hothers q hqp hq).1] at hr
      cases hr
    · rw [hother q hqp] at hq
      rw [hother r hrp] at hr
      exact h.alone q r hq hr
  · intro q c hq
    by_cases hqp : q = .inr p
    · subst hqp
      rw [hself] at hq
      exact hloaded c hq
    · rw [hother q hqp] at hq
      rw [(hothers q hqp (CountPc.inside_of_loaded hq)).2.2]
      exact h.loaded q c hq

/-- A step outside the critical section. -/
theorem After.outside (h : s.After) {p : Fin stackPages} {pc : CountPc}
    (hcounted : pc.counted = (s.pc (.inr p)).counted) (hin : pc.inside = false) :
    (s.goto (.inr p) pc).After := by
  apply h.move (p := p)
  · rfl
  · rfl
  · rw [hcounted]
    rfl
  · rw [hcounted]
    rfl
  · intro hin'
    rw [hin] at hin'
    cases hin'
  · intro c hc
    rw [CountPc.inside_of_loaded hc] at hin
    cases hin
  · intro q _ _
    exact ⟨hin, rfl, rfl⟩

theorem After.acquire (h : s.After) (hfree : s.locked = false) {p : Fin stackPages} {pc : CountPc}
    (hcounted : pc.counted = (s.pc (.inr p)).counted) (hloaded : pc.loaded = none) :
    ({ s.goto (.inr p) pc with locked := true } : ThreadCount n).After := by
  apply h.move (p := p)
  · rfl
  · rfl
  · rw [hcounted]
    rfl
  · rw [hcounted]
    rfl
  · intro _
    rfl
  · intro c hc
    rw [hloaded] at hc
    cases hc
  · intro q _ hq
    rw [h.locked q hq] at hfree
    cases hfree

theorem After.load (h : s.After) {p : Fin stackPages} {pc : CountPc} (hin : (s.pc (.inr p)).inside = true)
    (hcounted : pc.counted = (s.pc (.inr p)).counted) (hloaded : pc.loaded = some s.threadCount) :
    (s.goto (.inr p) pc).After := by
  apply h.move (p := p)
  · rfl
  · rfl
  · rw [hcounted]
    rfl
  · rw [hcounted]
    rfl
  · intro _
    exact h.locked _ hin
  · intro c hc
    exact Option.some.inj (hc.symm.trans hloaded)
  · intro q hqp hq
    exact absurd (h.alone q _ hq hin) hqp

/-- The store changes the count by what the thread itself counts for. -/
theorem After.store (h : s.After) {p : Fin stackPages} {pc : CountPc} {c f d : ℕ}
    (hin : (s.pc (.inr p)).inside = true) (hout : pc.inside = false)
    (hcount : c + (if (s.pc (.inr p)).counted = true then 1 else 0) =
      s.threadCount + (if pc.counted = true then 1 else 0))
    (hforked : f + s.passed + (if (s.pc (.inr p)).counted = true then 1 else 0) =
      s.forked + d + (if pc.counted = true then 1 else 0)) :
    ({ s.goto (.inr p) pc with threadCount := c, locked := false, forked := f, passed := d } : ThreadCount n).After := by
  apply h.move (p := p)
  · rfl
  · rfl
  · exact hcount
  · exact hforked
  · intro hin'
    rw [hout] at hin'
    cases hin'
  · intro c hc
    rw [CountPc.inside_of_loaded hc] at hout
    cases hout
  · intro q hqp hq
    exact absurd (h.alone q _ hq hin) hqp

/-- The count never wraps: there are fewer stacks than numbers. -/
theorem After.bounds (h : s.After) : 1 ≤ s.threadCount ∧ s.threadCount < 4294967295 := by
  have hlive := live_le (s := s)
  have hcount := h.count
  unfold stackPages at hlive
  omega

theorem After.step {e : CountEv n} (h : s.After) (ht : countStep s e = some t) : t.After := by
  obtain ⟨hpos, hlt⟩ := h.bounds
  cases e with
  | V i => simp [countStep, h.startup i] at ht
  | P =>
    simp only [countStep] at ht
    split_ifs at ht with hw
    cases ht
    exact ⟨h.reset, h.startup, h.count, h.forked, h.locked, h.alone, h.loaded⟩
  | reset => simp [countStep, h.reset] at ht
  | fork p =>
    simp only [countStep] at ht
    split_ifs at ht with hfree
    cases ht
    exact h.outside (by rw [hfree.2]; rfl) rfl
  | test q =>
    cases q with
    | inl i => simp [countStep, h.startup i] at ht
    | inr p =>
      simp only [countStep] at ht
      split_ifs at ht with hpc hcount
      · cases ht
        exact h.outside (by rw [hpc]; rfl) rfl
      · omega
  | acquire q =>
    cases q with
    | inl i => simp [countStep, h.startup i] at ht
    | inr p =>
      simp only [countStep] at ht
      split_ifs at ht with hlocked
      rw [Bool.not_eq_true] at hlocked
      split at ht
      case h_1 hpc =>
        cases ht
        exact h.acquire hlocked (by rw [hpc]; rfl) rfl
      case h_2 hpc =>
        cases ht
        exact h.acquire hlocked (by rw [hpc]; rfl) rfl
      case h_3 => cases ht
  | load q =>
    cases q with
    | inl i => simp [countStep, h.startup i] at ht
    | inr p =>
      simp only [countStep] at ht
      split at ht
      case h_1 hpc =>
        cases ht
        exact h.load (by rw [hpc]; rfl) (by rw [hpc]; rfl) rfl
      case h_2 hpc =>
        cases ht
        exact h.load (by rw [hpc]; rfl) (by rw [hpc]; rfl) rfl
      case h_3 => cases ht
  | store q =>
    cases q with
    | inl i => simp [countStep, h.startup i] at ht
    | inr p =>
      simp only [countStep] at ht
      split at ht
      case h_1 c hpc =>
        obtain rfl : c = s.threadCount := h.loaded (.inr p) c (by rw [hpc]; rfl)
        generalize hc : (s.threadCount + 4294967295) % 4294967296 = c at ht
        cases ht
        have hmod : c + 1 = s.threadCount := by omega
        refine h.store (f := s.forked) (d := s.passed + 1) ?_ rfl ?_ ?_
        · rw [hpc]
          rfl
        · rw [hpc]
          exact hmod
        · rw [hpc]
          show s.forked + s.passed + 1 = s.forked + (s.passed + 1) + 0
          omega
      case h_2 c hpc =>
        cases ht
        obtain rfl : c = s.threadCount := h.loaded (.inr p) c (by rw [hpc]; rfl)
        have hmod : (s.threadCount + 1) % 4294967296 = s.threadCount + 1 := by omega
        refine h.store (f := s.forked + 1) (d := s.passed) ?_ rfl ?_ ?_
        · rw [hpc]
          rfl
        · rw [hpc]
          exact hmod
        · rw [hpc]
          show s.forked + 1 + s.passed + 0 = s.forked + s.passed + 1
          omega
      case h_3 => cases ht
  | exorcise p =>
    simp only [countStep] at ht
    split_ifs at ht with hpc
    cases ht
    exact h.outside (by rw [hpc]; rfl) rfl

end ThreadCount

/-- With the reset after the last test, `thread_count` is right in every state that any
interleaving of the boot CPU, the start-up threads and the forked threads reaches. -/
theorem thread_count_run (n : ℕ) (evs : List (CountEv n))
    (hok : AllSteps countStep ThreadCount.Hatched (threadCountBoot n) evs) :
    AllStates countStep ThreadCount.Right (threadCountBoot n) evs := by
  apply AllStates.mono (P := fun s => s.Before ∨ s.After)
  · rintro s (hs | hs)
    · exact hs.right
    · exact hs.right
  · apply allStates_of_inv _ (.inl ThreadCount.boot_before) hok
    rintro s e t (hs | hs) he ht
    · exact hs.step he ht
    · exact .inr (hs.step ht)

def someStack : Fin stackPages := ⟨0, by decide⟩

/-- One other CPU, whose start-up thread exits before the reset; then a thread is forked and exits. -/
def hatchedRun : List (CountEv 1) :=
  [.V 0, .test (.inl 0), .P, .reset, .fork someStack, .acquire (.inr someStack), .load (.inr someStack),
    .store (.inr someStack), .test (.inr someStack), .acquire (.inr someStack), .load (.inr someStack),
    .store (.inr someStack)]

theorem thread_count_run_hatched :
    ((exec countStep (threadCountBoot 1) hatchedRun).map fun s => (s.threadCount, s.forked, s.passed)) = some (1, 1, 1) ∧
    AllStates countStep ThreadCount.Right (threadCountBoot 1) hatchedRun :=
  ⟨by decide +kernel, thread_count_run 1 hatchedRun (by decide +kernel)⟩

/-- The start-up thread of the other CPU has done its `V` and is slow to get to its test. -/
def lateRun : List (CountEv 1) :=
  [.V 0, .P, .reset, .test (.inl 0), .acquire (.inl 0), .load (.inl 0), .store (.inl 0)]

theorem thread_count_zero : ¬ AllStates countStep ThreadCount.Right (threadCountBoot 1) lateRun := by
  intro h
  have hrun : (exec countStep (threadCountBoot 1) lateRun).map (fun s =>
      (s.reset, s.pc (.inl 0), s.threadCount, s.passed, s.forked)) = some (true, .gone, 0, 0, 0) := by
    decide +kernel
  obtain ⟨t, ht, hvals⟩ := Option.map_eq_some_iff.mp hrun
  simp only [Prod.mk.injEq] at hvals
  obtain ⟨hreset, hgone, hcount, hpassed, hforked⟩ := hvals
  have hright := (h.exec ht).count hreset (by
    intro i
    rw [Subsingleton.elim i 0]
    exact hgone)
  omega

end Os161
