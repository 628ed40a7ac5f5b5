import Os161.Spec.Synch

/-! The semaphore's accounting and its freedom from lost wakeups, over every
interleaving of `P` and `V`. -/

namespace Os161

variable {T : Type*}

/-- What every step keeps: the count is a machine word, it is the initial count
plus the completed `V` less the completed `P`, and no wakeup is lost. -/
structure SemInv (n : UInt32) (s : SemSys T) : Prop where
  word : s.sem.count < 2 ^ uintBits
  balance : s.sem.count + s.doneP = n.toNat + s.doneV
  wakeups : s.sem.NoLostWakeup

theorem semInv_init (n : UInt32) : SemInv n (SemSys.init n : SemSys T) :=
  ⟨n.toNat_lt, rfl, fun h => absurd rfl h⟩

theorem SemInv.pass {n : UInt32} {s : SemSys T} (h : SemInv n s) {sem : Gate T} {t : T}
    (hc : sem.count = s.sem.count) (hw : (sem.test t).NoLostWakeup) : SemInv n (s.pass sem t) := by
  have hword := h.word
  have hbal := h.balance
  by_cases h0 : sem.count = 0
  · have ht : (sem.test t).count = sem.count := by rw [Gate.test_zero h0]; rfl
    refine ⟨?_, ?_, hw⟩
    · show (sem.test t).count < _
      omega
    · show (sem.test t).count + (if sem.count = 0 then s.doneP else s.doneP + 1) = n.toNat + s.doneV
      rw [if_pos h0]
      omega
  · have ht : (sem.test t).count = sem.count - 1 := by rw [Gate.test_pos h0]
    refine ⟨?_, ?_, hw⟩
    · show (sem.test t).count < _
      omega
    · show (sem.test t).count + (if sem.count = 0 then s.doneP else s.doneP + 1) = n.toNat + s.doneV
      rw [if_neg h0]
      omega

theorem semStep_inv [DecidableEq T] {n : UInt32} {s s' : SemSys T} {e : SemEv T} (h : SemInv n s)
    (hs : semStep s e = some s') : SemInv n s' := by
  cases e with
  | p t =>
    simp only [semStep] at hs
    split_ifs at hs
    cases hs
    exact h.pass rfl (h.wakeups.test t)
  | retest t =>
    simp only [semStep] at hs
    split_ifs at hs with ht
    cases hs
    exact h.pass rfl (h.wakeups.retest ht)
  | v =>
    obtain ⟨g, hg, rfl⟩ := Option.map_eq_some_iff.mp hs
    obtain ⟨hlt, heq⟩ := Gate.post_cases h.word hg
    have hcount : g.count = s.sem.count + 1 := by rw [heq, Gate.wakeOne_count]
    have hbal := h.balance
    refine ⟨by rw [hcount]; exact hlt, ?_, h.wakeups.post h.word hg⟩
    show g.count + s.doneP = n.toNat + (s.doneV + 1)
    omega

/-- At every point of every run the count is the initial count plus the `V`
calls less the `P` calls that completed; while some thread is asleep it is at
most the number of woken threads that have not tested again; and with no such
thread a positive count means that nobody is asleep. -/
theorem semaphore_run [DecidableEq T] (n : UInt32) (evs : List (SemEv T)) :
    AllStates semStep (fun s =>
      (s.sem.count : ℤ) = n.toNat + s.doneV - s.doneP ∧
      (s.sem.asleep ≠ [] → s.sem.count ≤ s.sem.woken.length) ∧
      (s.sem.woken = [] → 0 < s.sem.count → s.sem.asleep = [])) (SemSys.init n) evs := by
  refine (allStates_of_step (fun s e t h ht => semStep_inv h ht) (semInv_init n) evs).mono ?_
  intro s h
  refine ⟨?_, h.wakeups, ?_⟩
  · have := h.balance
    omega
  · intro hw hc
    by_contra hne
    have := h.wakeups hne
    rw [hw, List.length_nil] at this
    omega

end Os161
