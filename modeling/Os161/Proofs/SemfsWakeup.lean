import Os161.Spec.Semfs

/-! Wakeups of a semaphore file. `semfs_wakeup` wakes nobody when the old count is
not zero. That is right for as long as the readers that are already on their way will
take all there is. -/

namespace Os161

variable {T : Type*} {s t : SemfsSem T}

namespace SemfsSem

/-- While somebody sleeps, the woken readers on their way want all there is. -/
structure WakeInv (s : SemfsSem T) : Prop where
  enough : s.asleep ≠ [] → s.semsCount ≤ s.demand
  asleep_pos : ∀ e ∈ s.asleep, 0 < e.2
  woken_pos : ∀ e ∈ s.woken, 0 < e.2
  holder_pos : ∀ u resid, s.holder = some (u, .reread resid) → 0 < resid
  blocked : ∀ e ∈ s.blocked, ∀ resid, e.2 ≠ .reread resid

/-- A holder of the lock that was not woken wants nothing of what was announced. -/
theorem demand_eq (h : ∀ u resid, s.holder ≠ some (u, .reread resid)) :
    s.demand = (s.woken.map Prod.snd).sum := by
  unfold demand
  split
  · exact absurd ‹_› (h _ _)
  · rfl

theorem demand_reread {u : T} {resid : ℕ} (h : s.holder = some (u, .reread resid)) :
    s.demand = (s.woken.map Prod.snd).sum + resid := by
  rw [demand, h]

theorem WakeInv.create (n : UInt32) : (create n : SemfsSem T).WakeInv := by
  constructor <;> simp [SemfsSem.create]

theorem WakeInv.noLostWakeup (h : s.WakeInv) : s.NoLostWakeup := by
  intro hcount hasleep
  have hdemand := h.enough hasleep
  by_contra hno
  have hwoken : s.woken = [] := by
    by_contra hne
    exact hno (.inl hne)
  have hholder : ∀ u resid, s.holder ≠ some (u, .reread resid) := by
    intro u resid heq
    exact hno (.inr ⟨u, resid, heq⟩)
  rw [demand_eq hholder, hwoken] at hdemand
  simp only [List.map_nil, List.sum_nil] at hdemand
  omega

/-- A reader takes what it can; if it wants more there is nothing left. -/
theorem WakeInv.read (h : s.WakeInv) {u : T} {resid : ℕ}
    (hholder : s.holder = some (u, .read resid) ∨ s.holder = some (u, .reread resid)) :
    (semfsRead u resid s).WakeInv := by
  have hdemand : s.demand ≤ (s.woken.map Prod.snd).sum + resid := by
    rcases hholder with hr | hr
    · rw [demand_eq (by simp [hr])]
      omega
    · rw [demand_reread hr]
  have hread : s.holder = some (u, .read resid) → s.demand = (s.woken.map Prod.snd).sum := by
    intro hr
    rw [demand_eq (by simp [hr])]
  have henough := h.enough
  simp only [semfsRead]
  split_ifs with hdone
  · refine ⟨?_, h.asleep_pos, h.woken_pos, by simp, h.blocked⟩
    intro hasleep
    have hle := henough hasleep
    rw [demand_eq (by simp)]
    simp only
    rcases hholder with hr | hr
    · rw [hread hr] at hle
      omega
    · omega
  · refine ⟨?_, ?_, h.woken_pos, by simp, h.blocked⟩
    · intro _
      rw [demand_eq (by simp)]
      simp only
      omega
    · intro e he
      rcases List.mem_append.mp he with he | he
      · exact h.asleep_pos e he
      · rw [List.mem_singleton.mp he]
        simp only
        omega

/-- All a wakeup can do. -/
theorem semfsWakeup_cases {i newcount : ℕ} (ht : semfsWakeup i newcount s = some t) :
    (t = s ∧ (0 < s.semsCount ∨ newcount = 0 ∨ s.asleep = [])) ∨
    (newcount = 1 ∧ ∃ w ∈ s.asleep, t = { s with asleep := s.asleep.eraseIdx i, woken := s.woken ++ [w] }) ∨
    t = cvBroadcast s := by
  unfold semfsWakeup at ht
  split_ifs at ht with h0 h1
  · cases ht
    rcases h0 with h0 | h0
    · exact .inl ⟨rfl, .inl h0⟩
    · exact .inl ⟨rfl, .inr (.inl h0)⟩
  · unfold cvSignal at ht
    split at ht
    · cases ht
      exact .inl ⟨rfl, .inr (.inr ‹_›)⟩
    · obtain ⟨w, hw, rfl⟩ := Option.map_eq_some_iff.mp ht
      exact .inr (.inl ⟨h1, w, List.mem_of_getElem? hw, rfl⟩)
  · cases ht
    exact .inr (.inr rfl)

/-- The lock is given up by a call that was not woken. -/
theorem WakeInv.release (h : s.WakeInv) (hholder : ∀ u resid, s.holder ≠ some (u, .reread resid)) :
    ({ s with holder := none } : SemfsSem T).WakeInv := by
  refine ⟨?_, h.asleep_pos, h.woken_pos, by simp, h.blocked⟩
  intro hasleep
  rw [demand_eq (by simp), ← demand_eq hholder]
  exact h.enough hasleep

theorem WakeInv.post (h : s.WakeInv) {i : ℕ} {newcount : Option ℕ}
    (hholder : ∀ u resid, s.holder ≠ some (u, .reread resid))
    (hwanted : ∀ n, newcount = some n → 0 < s.semsCount → s.asleep ≠ [] → n ≤ s.demand)
    (ht : semfsPost i newcount s = some t) : t.WakeInv := by
  unfold semfsPost at ht
  cases newcount with
  | none =>
    cases ht
    exact h.release hholder
  | some n =>
    obtain ⟨u, hu, rfl⟩ := Option.map_eq_some_iff.mp ht
    obtain ⟨rfl, hcase⟩ | ⟨rfl, w, hw, rfl⟩ | rfl := semfsWakeup_cases hu
    · refine ⟨?_, h.asleep_pos, h.woken_pos, by simp, h.blocked⟩
      intro hasleep
      rw [demand_eq (by simp), ← demand_eq hholder]
      rcases hcase with hpos | rfl | hnil
      · exact hwanted n rfl hpos hasleep
      · exact Nat.zero_le _
      · exact absurd hnil hasleep
    · have hpos := h.asleep_pos w hw
      refine ⟨?_, ?_, ?_, by simp, h.blocked⟩
      · intro _
        rw [demand_eq (by simp)]
        simp only [List.map_append, List.sum_append, List.map_cons, List.map_nil, List.sum_cons, List.sum_nil]
        omega
      · intro e he
        exact h.asleep_pos e (List.mem_of_mem_eraseIdx he)
      · intro e he
        rcases List.mem_append.mp he with he | he
        · exact h.woken_pos e he
        · rw [List.mem_singleton.mp he]
          exact hpos
    · refine ⟨?_, ?_, ?_, by simp, h.blocked⟩
      · intro hne
        exact absurd rfl hne
      · intro e he
        cases he
      · intro e he
        rcases List.mem_append.mp he with he | he
        · exact h.woken_pos e he
        · exact h.asleep_pos e he

variable [DecidableEq T]

theorem WakeInv.call (h : s.WakeInv) {u : T} {c : SemCall} (hc : ∀ resid, c ≠ .reread resid)
    (ht : s.call u c = some t) : t.WakeInv := by
  unfold SemfsSem.call at ht
  split_ifs at ht
  cases ht
  refine ⟨h.enough, h.asleep_pos, h.woken_pos, h.holder_pos, ?_⟩
  intro e he
  rcases List.mem_append.mp he with he | he
  · exact h.blocked e he
  · rw [List.mem_singleton.mp he]
    exact hc

omit [DecidableEq T] in
theorem WakeInv.acquire_blocked (h : s.WakeInv) (hfree : s.holder = none) {u : T} {c : SemCall} {l : List (T × SemCall)}
    (hc : (u, c) ∈ s.blocked) (hl : ∀ e ∈ l, e ∈ s.blocked) :
    ({ s with holder := some (u, c), blocked := l } : SemfsSem T).WakeInv := by
  have hne := h.blocked _ hc
  refine ⟨?_, h.asleep_pos, h.woken_pos, ?_, fun e he => h.blocked e (hl e he)⟩
  · intro hasleep
    have hle := h.enough hasleep
    rw [demand_eq (by simp [hfree])] at hle
    rw [demand_eq]
    · exact hle
    · intro v resid heq
      cases heq
      exact hne _ rfl
  · intro v resid heq
    cases heq
    exact absurd rfl (hne _)

theorem WakeInv.acquire_woken (h : s.WakeInv) (hfree : s.holder = none) {u : T} {resid : ℕ}
    (hw : (u, resid) ∈ s.woken) :
    ({ s with holder := some (u, .reread resid), woken := s.woken.erase (u, resid) } : SemfsSem T).WakeInv := by
  refine ⟨?_, h.asleep_pos, ?_, ?_, h.blocked⟩
  · intro hasleep
    have hle := h.enough hasleep
    have hsum := ((List.perm_cons_erase hw).map Prod.snd).sum_eq
    rw [List.map_cons, List.sum_cons] at hsum
    rw [demand_eq (by simp [hfree])] at hle
    rw [demand_reread rfl]
    simp only at hle hsum ⊢
    omega
  · intro e he
    exact h.woken_pos e (List.mem_of_mem_erase he)
  · intro v r heq
    cases heq
    exact h.woken_pos _ hw

theorem mem_of_lookupThread {β : Type} {u : T} {l : List (T × β)} {e : T × β} (h : lookupThread u l = some e) :
    e ∈ l := List.mem_of_find?_eq_some h

theorem WakeInv.step {e : SemfsEv T} (h : s.WakeInv) (hok : s.Wanted e) (ht : semfsStep s e = some t) : t.WakeInv := by
  cases e with
  | read u resid => exact h.call (by simp) ht
  | write u resid => exact h.call (by simp) ht
  | truncate u len =>
    simp only [semfsStep] at ht
    split_ifs at ht
    · cases ht
      exact h
    · exact h.call (by simp) ht
  | acquire u =>
    simp only [semfsStep] at ht
    split_ifs at ht with hfree
    rw [not_not] at hfree
    split at ht
    case h_1 hb =>
      cases ht
      exact h.acquire_blocked hfree (mem_of_lookupThread hb) fun e he => List.mem_of_mem_erase he
    case h_2 hw =>
      cases ht
      exact h.acquire_woken hfree (mem_of_lookupThread hw)
    case h_3 => cases ht
  | run i =>
    simp only [semfsStep] at ht
    split at ht
    case h_1 => cases ht
    case h_2 u resid hr =>
      cases ht
      exact h.read (.inl hr)
    case h_3 u resid hr =>
      cases ht
      exact h.read (.inr hr)
    case h_4 hr => exact h.post (by simp [hr]) hok ht
    case h_5 hr => exact h.post (by simp [hr]) hok ht

end SemfsSem

/-- No wakeup is lost in any state of a run in which each count that is set over a nonzero
one, while readers sleep, is wanted by the readers that were woken. -/
theorem semfs_wakeup_run [DecidableEq T] (n : UInt32) (evs : List (SemfsEv T))
    (hok : AllSteps semfsStep SemfsSem.Wanted (SemfsSem.create n) evs) :
    AllStates semfsStep SemfsSem.NoLostWakeup (SemfsSem.create n) evs := by
  apply AllStates.mono (P := SemfsSem.WakeInv)
  · intro s hs
    exact hs.noLostWakeup
  · apply allStates_of_inv _ (.create n) hok
    intro s e t hs he ht
    exact hs.step he ht

/-- Two readers sleep; a write of 2 wakes both, and one of them takes its unit. -/
def wokenRun : List (SemfsEv ℕ) :=
  [.read 1 1, .acquire 1, .run 0, .read 2 1, .acquire 2, .run 0, .write 3 2, .acquire 3, .run 0, .acquire 2, .run 0]

theorem semfs_wakeup_run_broadcast :
    ((exec semfsStep (SemfsSem.create 0) wokenRun).map fun s => (s.semsCount, s.asleep, s.woken)) =
      some (1, [], [(1, 1)]) ∧
    AllStates semfsStep SemfsSem.NoLostWakeup (SemfsSem.create 0) wokenRun :=
  ⟨by decide +kernel, semfs_wakeup_run 0 wokenRun (by decide +kernel)⟩

/-- The same two units in two writes: the second wakes nobody, since the first unit is
still there. -/
def lostRun : List (SemfsEv ℕ) :=
  [.read 1 1, .acquire 1, .run 0, .read 2 1, .acquire 2, .run 0, .write 3 1, .acquire 3, .run 0,
    .write 3 1, .acquire 3, .run 0, .acquire 1, .run 0]

theorem semfs_wakeup_lost : ¬ AllStates semfsStep SemfsSem.NoLostWakeup (SemfsSem.create 0) lostRun := by
  intro h
  have hrun : ((exec semfsStep (SemfsSem.create 0) lostRun).map fun s => (s.semsCount, s.asleep, s.woken, s.holder.isNone)) =
      some (1, [(2, 1)], [], true) := by
    decide +kernel
  obtain ⟨t, ht, hvals⟩ := Option.map_eq_some_iff.mp hrun
  simp only [Prod.mk.injEq] at hvals
  obtain ⟨hcount, hasleep, hwoken, hholder⟩ := hvals
  rcases h.exec ht (by omega) (by simp [hasleep]) with hw | ⟨u, resid, hu⟩
  · exact hw hwoken
  · simp [hu] at hholder

end Os161
