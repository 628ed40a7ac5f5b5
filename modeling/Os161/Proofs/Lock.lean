import Os161.Spec.Synch

/-! What `lock_do_i_hold` answers and whether a lock excludes, over every
interleaving. `lock_acquire` leaves `lock_thread` at the creator and
`lock_release` and `lock_destroy` do not ask who calls them, so both results are
conditional, and the runs that break them stand beside them. -/

namespace Os161

variable {T : Type*}

/-! ## What a step can do -/

/-- A pass of `lock_acquire` by `t`, on a lock that differs from the current one
only in who is woken. -/
inductive PassStep (s : LockSys T) (t : T) (s' : LockSys T) : Prop where
  | sleeps (g : Gate T) (hd : g.Distinct) (hc : s.lock.lockCount = 0) (hg : g.count = 0)
      (h : s' = { s with lock := { s.lock with gate := g } })
  | takes (g : Gate T) (hd : g.Distinct) (hc : s.lock.lockCount ≠ 0)
      (hg : g.count = s.lock.lockCount - 1) (hw : ¬ g.Waiting t)
      (h : s' = { s with lock := { s.lock with gate := g }, holders := t :: s.holders, last := some t })

theorem passStep (s : LockSys T) (t : T) {g : Gate T} (hd : g.Distinct)
    (hg : g.count = s.lock.lockCount) (hw : ¬ g.Waiting t) :
    PassStep s t (s.pass { s.lock with gate := g } t) := by
  by_cases h0 : g.count = 0
  · refine .sleeps (g.sleep t) (hd.sleep hw) (hg.symm.trans h0) h0 ?_
    simp only [LockSys.pass, Lock.lockCount, h0, ite_true, lockAcquire, Gate.test_zero h0]
  · refine .takes { g with count := g.count - 1 } hd (hg ▸ h0) (by rw [← hg]) hw ?_
    simp only [LockSys.pass, Lock.lockCount, h0, ite_false, lockAcquire, Gate.test_pos h0]

/-! ## Invariants -/

/-- Where a run stays while the creator `c` is the only one to take the lock. -/
structure CreatorInv (c : T) (s : LockSys T) : Prop where
  creator : s.lock.lockThread = c
  distinct : s.lock.gate.Distinct
  last : ∀ t, s.last = some t → t = c
  held : (s.lock.lockCount = 1 ∧ s.holders = []) ∨ (s.lock.lockCount = 0 ∧ s.holders = [c])

theorem CreatorInv.count_lt {c : T} {s : LockSys T} (h : CreatorInv c s) :
    s.lock.lockCount < 2 ^ uintBits := by
  have : s.lock.lockCount ≤ 1 := by rcases h.held with ⟨h, -⟩ | ⟨h, -⟩ <;> omega
  exact lt_of_le_of_lt this (by decide)

theorem creatorInv_init (c : T) : CreatorInv c (LockSys.init c) :=
  ⟨rfl, List.nodup_nil, (fun _ h => by cases h), Or.inl ⟨rfl, rfl⟩⟩

/-- At most one thread is between a returned `lock_acquire` and its release, and
a lock that was freed has no holder. -/
def Excludes (s : LockSys T) : Prop := s.holders.length ≤ 1 ∧ (s.freed = true → s.holders = [])

/-- The unit of the lock is in `lock_count` or with its one holder. -/
structure ExclInv (s : LockSys T) : Prop where
  distinct : s.lock.gate.Distinct
  unit : s.lock.lockCount + s.holders.length = 1
  freed : s.freed = true → s.holders = []

theorem ExclInv.count_lt {s : LockSys T} (h : ExclInv s) : s.lock.lockCount < 2 ^ uintBits := by
  have := h.unit
  exact lt_of_le_of_lt (by omega : s.lock.lockCount ≤ 1) (by decide)

theorem exclInv_init (c : T) : ExclInv (LockSys.init c) := ⟨List.nodup_nil, rfl, fun _ => rfl⟩

theorem ExclInv.excludes {s : LockSys T} (h : ExclInv s) : Excludes s :=
  ⟨by have := h.unit; omega, h.freed⟩

variable [DecidableEq T]

/-- Every step of the lock: a pass, a release that adds one whoever makes it, or
a destroy whoever holds the lock. -/
theorem lockStep_cases {s s' : LockSys T} {e : LockEv T} (hc : s.lock.lockCount < 2 ^ uintBits)
    (hd : s.lock.gate.Distinct) (h : lockStep s e = some s') :
    (∃ t, (e = .acquire t ∨ e = .retest t) ∧ PassStep s t s') ∨
    (∃ t g, e = .release t ∧ ¬ s.lock.gate.Waiting t ∧ s.lock.lockCount + 1 < 2 ^ uintBits ∧
      g.Distinct ∧ g.count = s.lock.lockCount + 1 ∧ (∀ u, g.Waiting u ↔ s.lock.gate.Waiting u) ∧
      s' = { s with lock := { s.lock with gate := g }, holders := s.holders.erase t }) ∨
    (∃ t, e = .destroy t ∧ s' = { s with freed := true }) := by
  cases e with
  | acquire t =>
    simp only [lockStep] at h
    split_ifs at h with hn
    cases h
    exact Or.inl ⟨t, Or.inl rfl, passStep s t hd rfl (fun hw => hn (Or.inr hw))⟩
  | retest t =>
    simp only [lockStep] at h
    split_ifs at h with hn
    cases h
    exact Or.inl ⟨t, Or.inr rfl, passStep s t (hd.resume t) rfl (hd.not_waiting_resume hn.2)⟩
  | release t =>
    simp only [lockStep] at h
    split_ifs at h with hn
    obtain ⟨l, hl, rfl⟩ := Option.map_eq_some_iff.mp h
    obtain ⟨g, hg, rfl⟩ := Option.map_eq_some_iff.mp hl
    obtain ⟨hlt, rfl⟩ := Gate.post_cases hc hg
    set g := { s.lock.gate with count := s.lock.gate.count + 1 }
    exact Or.inr (Or.inl ⟨t, g.wakeOne, rfl, fun hw => hn (Or.inr hw), hlt,
      Gate.Distinct.wakeOne (g := g) hd, Gate.wakeOne_count g, fun u => Gate.waiting_wakeOne g u, rfl⟩)
  | destroy t =>
    simp only [lockStep] at h
    split_ifs at h
    cases h
    exact Or.inr (Or.inr ⟨t, rfl, rfl⟩)

/-! ## Who holds the lock -/

theorem lockDoIHold_eq (l : Lock T) (t : T) :
    lockDoIHold l t = true ↔ l.lockCount ≠ 1 ∧ t = l.lockThread := by
  unfold lockDoIHold
  split_ifs <;> simp_all

/-- `lock_do_i_hold` gives every thread that can call it the right answer. -/
def Answers (s : LockSys T) : Prop :=
  ∀ t, ¬ s.lock.gate.Waiting t → (lockDoIHold s.lock t = true ↔ t ∈ s.holders)

/-- Only the thread whose `lock_acquire` returned last releases, and nobody
destroys the lock. -/
def LastReleases (s : LockSys T) : LockEv T → Prop
  | .release t => s.last = some t
  | .destroy _ => False
  | _ => True

instance (s : LockSys T) : (e : LockEv T) → Decidable (LastReleases s e)
  | .release t => inferInstanceAs (Decidable (s.last = some t))
  | .destroy _ => inferInstanceAs (Decidable False)
  | .acquire _ | .retest _ => inferInstanceAs (Decidable True)

/-- The lock is taken by its creator only, and released while it is held. -/
def CreatorOnly (s : LockSys T) : LockEv T → Prop
  | .acquire t | .retest t => s.lock.lockCount ≠ 0 → t = s.lock.lockThread
  | .release t => t ∈ s.holders
  | .destroy _ => True

instance (s : LockSys T) : (e : LockEv T) → Decidable (CreatorOnly s e)
  | .acquire t | .retest t => inferInstanceAs (Decidable (s.lock.lockCount ≠ 0 → t = s.lock.lockThread))
  | .release t => inferInstanceAs (Decidable (t ∈ s.holders))
  | .destroy _ => inferInstanceAs (Decidable True)

theorem CreatorInv.answers {c : T} {s : LockSys T} (h : CreatorInv c s) : Answers s := by
  intro t _
  rw [lockDoIHold_eq, h.creator]
  rcases h.held with ⟨h1, h2⟩ | ⟨h1, h2⟩
  · simp [h1, h2]
  · simp [h1, h2]

theorem creatorInv_step {c : T} {s s' : LockSys T} {e : LockEv T} (h : CreatorInv c s)
    (hok : LastReleases s e ∧ CreatorOnly s e) (hs : lockStep s e = some s') : CreatorInv c s' := by
  rcases lockStep_cases h.count_lt h.distinct hs with ⟨t, he, hp⟩ |
    ⟨t, g, rfl, -, -, hd, hg, -, rfl⟩ | ⟨t, rfl, -⟩
  · cases hp with
    | sleeps g hd hc hg heq =>
      subst heq
      refine ⟨h.creator, hd, h.last, ?_⟩
      rcases h.held with ⟨h1, -⟩ | ⟨-, h2⟩
      · omega
      · exact Or.inr ⟨hg, h2⟩
    | takes g hd hc hg hw heq =>
      have htc : t = c := by
        rw [← h.creator]
        rcases he with rfl | rfl <;> exact hok.2 hc
      subst heq
      refine ⟨h.creator, hd, fun u hu => by cases hu; exact htc, ?_⟩
      rcases h.held with ⟨h1, h2⟩ | ⟨h1, -⟩
      · exact Or.inr ⟨hg.trans (by omega), by rw [h2, htc]⟩
      · exact absurd h1 hc
  · refine ⟨h.creator, hd, h.last, ?_⟩
    rcases h.held with ⟨-, h2⟩ | ⟨h1, h2⟩
    · have hmem : t ∈ s.holders := hok.2
      rw [h2] at hmem
      exact absurd hmem List.not_mem_nil
    · have htc : t = c := h.last t hok.1
      exact Or.inl ⟨hg.trans (by omega), by rw [h2, htc, List.erase_cons_head]⟩
  · exact absurd hok.1 id

/-- A step into a state where every answer is right was the creator's: a lock
taken by anyone else answers that thread "no", and one released while it is free
answers the creator "yes". -/
theorem creatorOnly_of_answers {c : T} {s s' : LockSys T} {e : LockEv T} (h : CreatorInv c s)
    (hl : LastReleases s e) (hs : lockStep s e = some s') (ha : Answers s') : CreatorOnly s e := by
  rcases lockStep_cases h.count_lt h.distinct hs with ⟨t, he, hp⟩ |
    ⟨t, g, rfl, hnw, -, hd, hg, hw, rfl⟩ | ⟨t, rfl, -⟩
  · cases hp with
    | sleeps g hd hc hg heq => rcases he with rfl | rfl <;> exact fun h0 => absurd hc h0
    | takes g hd hc hg hw heq =>
      subst heq
      have hyes := (ha t hw).mpr (by simp)
      rw [lockDoIHold_eq] at hyes
      rcases he with rfl | rfl <;> exact fun _ => hyes.2
  · have htc : t = c := h.last t hl
    rcases h.held with ⟨h1, h2⟩ | ⟨-, h2⟩
    · have hno := ha t (fun hwt => hnw ((hw t).mp hwt))
      rw [lockDoIHold_eq] at hno
      have hmem := hno.mp ⟨by show g.count ≠ 1; omega, htc.trans h.creator.symm⟩
      rw [h2] at hmem
      exact absurd hmem List.not_mem_nil
    · show t ∈ s.holders
      rw [h2, htc]
      exact List.mem_singleton_self c
  · trivial

/-- `lock_do_i_hold` is right in every state of a run if and only if the only
thread that takes the lock in it is the one that created the lock, and it
releases the lock only while it holds it. -/
theorem lockDoIHold_run (c : T) (evs : List (LockEv T))
    (hl : AllSteps lockStep LastReleases (LockSys.init c) evs) :
    AllStates lockStep Answers (LockSys.init c) evs ↔
      AllSteps lockStep CreatorOnly (LockSys.init c) evs := by
  constructor
  · intro ha
    refine allSteps_of_states (I := CreatorInv c) ?_ (creatorInv_init c) hl ha
    intro s e s' h hle hs has
    have hg := creatorOnly_of_answers h hle hs has
    exact ⟨hg, creatorInv_step h ⟨hle, hg⟩ hs⟩
  · intro hg
    exact (allStates_of_inv (fun s e s' h hok hs => creatorInv_step h hok hs) (creatorInv_init c)
      (hl.and hg)).mono fun s h => h.answers

/-- The creator's own use of the lock is such a run. -/
theorem lockDoIHold_run_creator :
    AllStates lockStep Answers (LockSys.init 0) [.acquire 0, .release 0, .acquire 0] := by
  exact (lockDoIHold_run 0 _ (by decide)).mpr (by decide)

/-- Thread 1 acquires a lock that thread 0 created: `lock_do_i_hold` denies it
to thread 1, which holds it, and grants it to thread 0, which does not. -/
theorem lockDoIHold_wrong :
    AllSteps lockStep LastReleases (LockSys.init 0) [LockEv.acquire 1] ∧
    ∃ s, exec lockStep (LockSys.init 0) [LockEv.acquire 1] = some s ∧ s.holders = [1] ∧
      lockDoIHold s.lock 1 = false ∧ lockDoIHold s.lock 0 = true ∧
      ¬ AllStates lockStep Answers (LockSys.init 0) [LockEv.acquire 1] := by
  refine ⟨fun _ _ => ⟨trivial, trivial⟩, _, rfl, rfl, rfl, rfl, fun h => ?_⟩
  have := (h.exec rfl 1 (by decide)).mpr (by decide)
  exact absurd this (by decide)

/-! ## Exclusion -/

/-- Neither a release by a thread that does not hold the lock nor a destroy of a
held lock. -/
def NoMisuse (s : LockSys T) : LockEv T → Prop
  | .release t => t ∈ s.holders
  | .destroy _ => s.holders = []
  | _ => True

instance (s : LockSys T) : (e : LockEv T) → Decidable (NoMisuse s e)
  | .release t => inferInstanceAs (Decidable (t ∈ s.holders))
  | .destroy _ => inferInstanceAs (Decidable (s.holders = []))
  | .acquire _ | .retest _ => inferInstanceAs (Decidable True)

theorem exclInv_step {s s' : LockSys T} {e : LockEv T} (h : ExclInv s) (hok : NoMisuse s e)
    (hs : lockStep s e = some s') : ExclInv s' := by
  have hunit := h.unit
  have hnf : s.freed = false := by
    cases e <;> simp only [lockStep] at hs <;> split_ifs at hs <;> simp_all
  rcases lockStep_cases h.count_lt h.distinct hs with ⟨t, -, hp⟩ |
    ⟨t, g, rfl, -, -, hd, hg, -, rfl⟩ | ⟨t, rfl, rfl⟩
  · cases hp with
    | sleeps g hd hc hg heq =>
      subst heq
      refine ⟨hd, ?_, h.freed⟩
      show g.count + s.holders.length = 1
      omega
    | takes g hd hc hg hw heq =>
      subst heq
      refine ⟨hd, ?_, fun hf => by rw [show s.freed = true from hf] at hnf; cases hnf⟩
      show g.count + (s.holders.length + 1) = 1
      omega
  · have hpos := List.length_pos_of_mem (show t ∈ s.holders from hok)
    refine ⟨hd, ?_, fun hf => by rw [show s.freed = true from hf] at hnf; cases hnf⟩
    show g.count + (s.holders.erase t).length = 1
    rw [List.length_erase_of_mem hok]
    omega
  · exact ⟨h.distinct, h.unit, fun _ => hok⟩

/-- In every run in which only a holder releases and nobody destroys a held
lock, at most one thread holds the lock at a time and it is never freed while
one does. -/
theorem lock_excludes_run (c : T) (evs : List (LockEv T))
    (hok : AllSteps lockStep NoMisuse (LockSys.init c) evs) :
    AllStates lockStep Excludes (LockSys.init c) evs :=
  (allStates_of_inv (fun _ _ _ h hok hs => exclInv_step h hok hs) (exclInv_init c) hok).mono
    fun _ h => h.excludes

/-- Two threads that take turns. -/
theorem lock_excludes_turns :
    AllStates lockStep Excludes (LockSys.init 0)
      [.acquire 1, .acquire 2, .release 1, .retest 2, .release 2, .destroy 0] := by
  exact lock_excludes_run 0 _ (by decide)

/-- A release by a thread that does not hold the lock is not stopped: it raises
`lock_count`, and two threads then hold the lock at once. A destroy of a held
lock is not stopped either: it frees the lock. -/
theorem lock_misuse_not_stopped :
    (∃ s, exec lockStep (LockSys.init 0) [.acquire 1, .release 2, .acquire 2] = some s ∧
      s.holders = [2, 1]) ∧
    (∃ s, exec lockStep (LockSys.init 0) [.acquire 1, .destroy 2] = some s ∧
      s.holders = [1] ∧ s.freed = true) ∧
    ¬ (∀ evs : List (LockEv ℕ), AllStates lockStep Excludes (LockSys.init 0) evs) := by
  refine ⟨⟨_, rfl, rfl⟩, ⟨_, rfl, rfl, rfl⟩, fun h => ?_⟩
  have := (h [.acquire 1, .release 2, .acquire 2]).exec rfl
  exact absurd this.1 (by decide)

end Os161
