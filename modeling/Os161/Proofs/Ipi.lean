import Os161.Spec.Ipi

/-! An interprocessor interrupt is not lost as long as no sender asserts the line
between the target's return from `interprocessor_interrupt` and its call of
`lamebus_clear_ipi`; one that does is. -/

namespace Os161

variable {S M : Type*}

/-- With a request pending and no sender between its two stores, the line is
asserted, or the target is in the handler and will still read the request. -/
def NoRequestLost (s : Ipi S M) : Prop :=
  s.pending ≠ 0 → (∀ t, s.sender t ≠ .marked) →
    s.line = true ∨ s.target = .entered ∨ s.target = .locked

/-- No sender asserts the line while the target is about to clear it. -/
def NotBeforeClear (s : Ipi S M) : IpiEv S M → Prop
  | .assert _ => s.target ≠ .returned
  | _ => True

instance (s : Ipi S M) : (e : IpiEv S M) → Decidable (NotBeforeClear s e)
  | .assert _ => inferInstanceAs (Decidable (s.target ≠ .returned))
  | .lock _ _ | .mark _ | .unlock _ | .enter | .targetLock | .read | .handle | .targetUnlock | .clear =>
    inferInstanceAs (Decidable True)

/-- `c_ipi_lock` excludes, the line stays up from the interrupt to the clear, and
a request that the line does not announce has a sender about to assert it. -/
structure IpiInv (s : Ipi S M) : Prop where
  sender : ∀ t, s.sender t ≠ .out → s.holder = some (some t)
  target : s.target = .locked ∨ (∃ b, s.target = .handling b) ∨ s.target = .handled →
    s.holder = some none
  line : s.target ≠ .out → s.line = true
  handled : s.target = .handled → s.pending = 0
  announced : s.target = .returned ∨ s.line = false → s.pending ≠ 0 → ∃ t, s.sender t = .marked

theorem ipiInv_init : IpiInv (Ipi.init : Ipi S M) where
  sender t h := absurd rfl h
  target h := by rcases h with h | ⟨b, h⟩ | h <;> cases h
  line h := absurd rfl h
  handled h := by cases h
  announced _ h := absurd rfl h

theorem IpiInv.noRequestLost {s : Ipi S M} (h : IpiInv s) : NoRequestLost s := by
  intro hp hm
  by_contra hn
  obtain ⟨t, ht⟩ := h.announced (Or.inr (Bool.eq_false_iff.mpr fun hl => hn (Or.inl hl))) hp
  exact hm t ht

/-- With the lock at a sender, the target is outside the sections it guards. -/
theorem IpiInv.target_out {s : Ipi S M} (h : IpiInv s) {t : S} (ht : s.sender t ≠ .out) :
    ¬ (s.target = .locked ∨ (∃ b, s.target = .handling b) ∨ s.target = .handled) := by
  intro hl
  have h1 := h.target hl
  rw [h.sender t ht] at h1
  cases h1

variable [DecidableEq S]

/-- The senders after one of them, which has the lock, moved. -/
theorem IpiInv.sender_update {s : Ipi S M} (h : IpiInv s) {t : S} (ht : s.sender t ≠ .out)
    (pc : SenderPc M) :
    ∀ u, Function.update s.sender t pc u ≠ .out → s.holder = some (some u) := by
  intro u hu
  by_cases hut : u = t
  · subst hut
    exact h.sender u ht
  · rw [Function.update_of_ne hut] at hu
    exact h.sender u hu

theorem ipiStep_inv {s s' : Ipi S M} {e : IpiEv S M} (h : IpiInv s) (hok : NotBeforeClear s e)
    (hs : ipiStep s e = some s') : IpiInv s' := by
  cases e with
  | lock t r =>
    simp only [ipiStep] at hs
    split at hs <;> try cases hs
    rename_i ht hh
    -- nobody else can be in a section while the lock is free
    have hout : ∀ u, s.sender u = .out := by
      intro u
      by_contra hu
      have := h.sender u hu
      rw [hh] at this
      cases this
    refine ⟨?_, ?_, h.line, h.handled, ?_⟩
    · intro u hu
      by_cases hut : u = t
      · rw [hut]
      · simp only [Function.update_of_ne hut] at hu
        exact absurd (hout u) hu
    · intro hl
      have := h.target hl
      rw [hh] at this
      cases this
    · intro hl hp
      obtain ⟨u, hu⟩ := h.announced hl hp
      rw [hout u] at hu
      cases hu
  | mark t =>
    simp only [ipiStep] at hs
    split at hs <;> try cases hs
    rename_i r ht
    obtain ⟨q, -, rfl⟩ := Option.map_eq_some_iff.mp hs
    have hne : s.sender t ≠ .out := by rw [ht]; simp
    refine ⟨h.sender_update hne _, h.target, h.line, ?_, ?_⟩
    · exact fun hh => absurd (Or.inr (Or.inr hh)) (h.target_out hne)
    · exact fun _ _ => ⟨t, Function.update_self _ _ _⟩
  | assert t =>
    simp only [ipiStep] at hs
    split at hs <;> try cases hs
    rename_i ht
    have hne : s.sender t ≠ .out := by rw [ht]; simp
    refine ⟨h.sender_update hne _, h.target, fun _ => rfl, h.handled, ?_⟩
    rintro (hr | hl)
    · exact absurd hr hok
    · cases hl
  | unlock t =>
    simp only [ipiStep] at hs
    split at hs <;> try cases hs
    rename_i ht
    have hne : s.sender t ≠ .out := by rw [ht]; simp
    have hh := h.sender t hne
    refine ⟨?_, ?_, h.line, h.handled, ?_⟩
    · intro u hu
      by_cases hut : u = t
      · subst hut
        simp at hu
      · simp only [Function.update_of_ne hut] at hu
        have := h.sender u hu
        rw [hh] at this
        cases this
        exact absurd rfl hut
    · exact fun hl => absurd hl (h.target_out hne)
    · intro hl hp
      obtain ⟨u, hu⟩ := h.announced hl hp
      have hut : u ≠ t := by rintro rfl; rw [ht] at hu; cases hu
      exact ⟨u, by simpa only [Function.update_of_ne hut] using hu⟩
  | enter =>
    simp only [ipiStep] at hs
    split_ifs at hs with hc
    cases hs
    refine ⟨h.sender, ?_, fun _ => hc.2, (by simp), ?_⟩
    · rintro (hl | ⟨b, hl⟩ | hl) <;> cases hl
    · rintro (hr | hl)
      · cases hr
      · rw [hc.2] at hl; cases hl
  | targetLock =>
    simp only [ipiStep] at hs
    split_ifs at hs with hc
    cases hs
    refine ⟨?_, fun _ => rfl, fun _ => h.line (by rw [hc.1]; simp), (by simp), ?_⟩
    · intro u hu
      have := h.sender u hu
      rw [hc.2] at this
      cases this
    · rintro (hr | hl)
      · cases hr
      · exact h.announced (Or.inr hl)
  | read =>
    simp only [ipiStep] at hs
    split_ifs at hs with hc
    cases hs
    refine ⟨h.sender, fun _ => h.target (Or.inl hc), fun _ => h.line (by rw [hc]; simp), (by simp), ?_⟩
    rintro (hr | hl)
    · cases hr
    · exact h.announced (Or.inr hl)
  | handle =>
    simp only [ipiStep] at hs
    split at hs <;> try cases hs
    rename_i bits hc
    have hline := h.line (by rw [hc]; simp)
    have hh := h.target (Or.inr (Or.inl ⟨bits, hc⟩))
    by_cases hb : bits.getLsbD ipiPanic ∨ bits.getLsbD ipiOffline
    · rw [if_pos hb] at hs
      cases hs
      refine ⟨?_, ?_, fun _ => hline, (by simp), ?_⟩
      · intro u hu
        have := h.sender u hu
        rw [hh] at this
        cases this
      · rintro (hl | ⟨b, hl⟩ | hl) <;> cases hl
      · rintro (hr | hl)
        · cases hr
        · rw [hline] at hl; cases hl
    · rw [if_neg hb] at hs
      cases hs
      exact ⟨h.sender, fun _ => hh, fun _ => hline, fun _ => rfl, fun _ hp => absurd rfl hp⟩
  | targetUnlock =>
    simp only [ipiStep] at hs
    split_ifs at hs with hc
    cases hs
    have hh := h.target (Or.inr (Or.inr hc))
    refine ⟨?_, ?_, fun _ => h.line (by rw [hc]; simp), (by simp), fun _ hp => absurd (h.handled hc) hp⟩
    · intro u hu
      have := h.sender u hu
      rw [hh] at this
      cases this
    · rintro (hl | ⟨b, hl⟩ | hl) <;> cases hl
  | clear =>
    simp only [ipiStep] at hs
    split_ifs at hs with hc
    cases hs
    refine ⟨h.sender, ?_, fun hn => absurd rfl hn, (by simp), fun _ => h.announced (Or.inl hc)⟩
    rintro (hl | ⟨b, hl⟩ | hl) <;> cases hl

/-- In every run in which no sender asserts the line between the target's return
from `interprocessor_interrupt` and its clear of the line, no request is lost. -/
theorem ipi_run (evs : List (IpiEv S M)) (hok : AllSteps ipiStep NotBeforeClear Ipi.init evs) :
    AllStates ipiStep NoRequestLost (Ipi.init : Ipi S M) evs :=
  (allStates_of_inv (fun _ _ _ h hok hs => ipiStep_inv h hok hs) ipiInv_init hok).mono
    fun _ h => h.noRequestLost

/-- Two senders, the second of which waits until the line was cleared. -/
theorem ipi_run_two_senders :
    AllStates ipiStep NoRequestLost (Ipi.init : Ipi ℕ ℕ)
      [.lock 1 (.code ipiUnidle), .mark 1, .assert 1, .unlock 1, .enter, .targetLock, .read, .handle,
        .targetUnlock, .lock 2 (.shootdown 7), .mark 2, .clear, .assert 2, .unlock 2] :=
  ipi_run _ (by decide)

/-- The second sender asserts the line just before the target clears it: its
request stays in `c_ipi_pending` with the line down and nobody on the way. -/
theorem ipi_request_lost :
    ∃ s : Ipi ℕ ℕ, exec ipiStep Ipi.init
        [.lock 1 (.code ipiUnidle), .mark 1, .assert 1, .unlock 1, .enter, .targetLock, .read, .handle,
          .targetUnlock, .lock 2 (.shootdown 7), .mark 2, .assert 2, .unlock 2, .clear] = some s ∧
      s.pending = 8 ∧ s.line = false ∧ s.target = .out ∧ (∀ t, s.sender t ≠ .marked) ∧
      ¬ NoRequestLost s := by
  have key : ∀ s : Ipi ℕ ℕ, s.pending = 8 → s.line = false → s.target = .out →
      (∀ t, s.sender t ≠ .marked) → ¬ NoRequestLost s := by
    intro s hp hl ht hm h
    rcases h (by rw [hp]; decide) hm with h1 | h1 | h1
    · rw [hl] at h1; cases h1
    · rw [ht] at h1; cases h1
    · rw [ht] at h1; cases h1
  refine ⟨_, rfl, rfl, rfl, rfl, ?_, key _ rfl rfl rfl ?_⟩
  all_goals
    intro t
    simp only [Function.update_apply]
    split_ifs <;> simp [Ipi.init]

end Os161
