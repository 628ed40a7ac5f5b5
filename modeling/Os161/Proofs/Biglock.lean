import Os161.Spec.Biglock
import Os161.Proofs.Lock

/-! `vfs_biglock` rests on `lock_do_i_hold`, which knows the creator only. While
the boot thread is the only one to get the lock, the recursive lock works; the
first other thread that gets it deadlocks on its own second acquire and lets the
boot thread in beside it. -/

namespace Os161

variable {T : Type*} [DecidableEq T]

/-- The recursive lock works: at most one thread is inside, the counter is its
nesting depth, `vfs_biglock_do_i_hold` knows it, its nested acquires do not go to
`lock_acquire`, and the assertions of `vfs_biglock_release` hold. -/
structure BiglockOk (s : Biglock T) : Prop where
  one : ∀ t u, 0 < s.nest t → 0 < s.nest u → t = u
  depth : ∀ t, 0 < s.nest t → s.depth = s.nest t
  depth_zero : (∀ t, s.nest t = 0) → s.depth = 0
  holds : ∀ t, s.pc t = .out → (vfsBiglockDoIHold s t = true ↔ 0 < s.nest t)
  nested : ∀ t, 0 < s.nest t → s.pc t ≠ .acquiring
  assertHolds : ∀ t, s.pc t = .out → 0 < s.nest t → lockDoIHold s.lock t = true
  assertDepth : ∀ t, s.pc t = .checkDepth → 0 < s.depth

/-- A pass of `lock_acquire` that finds the lock free is the creator's, and the
nesting depth stays below the largest `unsigned`. -/
def BootOnly (s : Biglock T) : BigEv T → Prop
  | .pass t | .retest t => s.lock.lockCount ≠ 0 → t = s.lock.lockThread
  | .increment _ => s.depth + 1 < 2 ^ uintBits
  | _ => True

instance (s : Biglock T) : (e : BigEv T) → Decidable (BootOnly s e)
  | .pass t | .retest t => inferInstanceAs (Decidable (s.lock.lockCount ≠ 0 → t = s.lock.lockThread))
  | .increment _ => inferInstanceAs (Decidable (s.depth + 1 < 2 ^ uintBits))
  | .acquire _ | .release _ | .checkDepth _ | .decrement _ | .testDepth _ | .unlock _ =>
    inferInstanceAs (Decidable True)

/-- `lock_count` (`k`) and the nesting (`n`) at each place of the boot thread. -/
def Phase : BigPc → ℕ → ℕ → Prop
  | .out, n, k => (n = 0 ∧ k = 1) ∨ (0 < n ∧ k = 0)
  | .acquiring, n, k => n = 0 ∧ k = 1
  | .increment, _, k => k = 0
  | .checkDepth, n, k => 0 < n ∧ k = 0
  | .decrement, n, k => 0 < n ∧ k = 0
  | .testDepth, _, k => k = 0
  | .releasing, n, k => n = 0 ∧ k = 0

/-- Where a run stays while the boot thread `c` is the only one to get the lock:
every other thread is outside, or on its way to sleep. -/
structure BigInv (c : T) (s : Biglock T) : Prop where
  creator : s.lock.lockThread = c
  others : ∀ t, t ≠ c → s.nest t = 0 ∧ (s.pc t = .out ∨ s.pc t = .acquiring)
  depth : s.depth = s.nest c
  word : s.nest c < 2 ^ uintBits
  phase : Phase (s.pc c) (s.nest c) s.lock.lockCount

omit [DecidableEq T] in
theorem bigInv_init (c : T) : BigInv c (vfsBootstrap c) :=
  ⟨rfl, fun _ _ => ⟨rfl, Or.inl rfl⟩, rfl, Nat.two_pow_pos _, Or.inl ⟨rfl, rfl⟩⟩

theorem Phase.le {pc : BigPc} {n k : ℕ} (h : Phase pc n k) : k ≤ 1 := by
  cases pc <;> simp only [Phase] at h <;> omega

theorem BigInv.nest_eq {c : T} {s : Biglock T} (h : BigInv c s) {t : T} (ht : 0 < s.nest t) : t = c := by
  by_contra hne
  have := (h.others t hne).1
  omega

theorem BigInv.doIHold {c : T} {s : Biglock T} (h : BigInv c s) (t : T) :
    lockDoIHold s.lock t = true ↔ s.lock.lockCount = 0 ∧ t = c := by
  have := h.phase.le
  rw [lockDoIHold_eq, h.creator]
  constructor <;> rintro ⟨h1, h2⟩ <;> exact ⟨by omega, h2⟩

theorem BigInv.ok {c : T} {s : Biglock T} (h : BigInv c s) : BiglockOk s where
  one t u ht hu := (h.nest_eq ht).trans (h.nest_eq hu).symm
  depth t ht := by rw [h.nest_eq ht]; exact h.depth
  depth_zero h0 := by rw [h.depth, h0 c]
  holds t ht := by
    show lockDoIHold s.lock t = true ↔ _
    rw [h.doIHold]
    by_cases htc : t = c
    · subst htc
      have hp := h.phase
      rw [ht] at hp
      rcases hp with ⟨h1, h2⟩ | ⟨h1, h2⟩ <;> simp [h2] <;> omega
    · simp [htc, (h.others t htc).1]
  nested t ht hpc := by
    obtain rfl := h.nest_eq ht
    have hp := h.phase
    rw [hpc] at hp
    have := hp.1
    omega
  assertHolds t ht hn := by
    obtain rfl := h.nest_eq hn
    have hp := h.phase
    rw [ht] at hp
    rw [h.doIHold]
    rcases hp with ⟨h1, -⟩ | ⟨-, h2⟩
    · omega
    · exact ⟨h2, rfl⟩
  assertDepth t ht := by
    by_cases htc : t = c
    · subst htc
      have hp := h.phase
      rw [ht] at hp
      rw [h.depth]
      exact hp.1
    · rcases (h.others t htc).2 with hpc | hpc <;> rw [ht] at hpc <;> cases hpc

omit [DecidableEq T] in
/-- A step of the boot thread leaves the others where they are. -/
theorem BigInv.move {c : T} {s s' : Biglock T} (h : BigInv c s) (hl : s'.lock.lockThread = c)
    (ho : ∀ t, t ≠ c → s'.nest t = s.nest t ∧ s'.pc t = s.pc t) (hd : s'.depth = s'.nest c)
    (hw : s'.nest c < 2 ^ uintBits) (hp : Phase (s'.pc c) (s'.nest c) s'.lock.lockCount) : BigInv c s' where
  creator := hl
  others t ht := by rw [(ho t ht).1, (ho t ht).2]; exact h.others t ht
  depth := hd
  word := hw
  phase := hp

/-- A step of another thread `t` that leaves the depth and `lock_count` alone. -/
theorem BigInv.moveOther {c t : T} {s : Biglock T} (h : BigInv c s) (ht : t ≠ c) {pc : BigPc} {l : Lock T}
    (hl : l.lockThread = c) (hk : l.lockCount = s.lock.lockCount) (hp : pc = .out ∨ pc = .acquiring) :
    BigInv c { s with lock := l, pc := Function.update s.pc t pc } where
  creator := hl
  others u hu := by
    by_cases hut : u = t
    · subst hut
      simpa using ⟨(h.others u hu).1, hp⟩
    · simpa [Function.update_of_ne hut] using h.others u hu
  depth := h.depth
  word := h.word
  phase := by
    have := h.phase
    simpa [Function.update_of_ne (Ne.symm ht), hk] using this

/-- A pass of `lock_acquire`, on a lock that differs only in who is woken. -/
theorem BigInv.pass {c t : T} {s : Biglock T} (h : BigInv c s) (hpc : s.pc t = .acquiring) {l : Lock T}
    (hl : l.lockThread = c) (hk : l.lockCount = s.lock.lockCount)
    (hok : s.lock.lockCount ≠ 0 → t = s.lock.lockThread) : BigInv c (s.pass l t) := by
  by_cases h0 : l.lockCount = 0
  · -- the boot thread never comes here: with `lock_count` 0 it is inside
    have htc : t ≠ c := by
      rintro rfl
      have hp := h.phase
      rw [hpc] at hp
      have := hp.2
      omega
    have hcount : (lockAcquire l t).lockCount = s.lock.lockCount := by
      rw [← hk]
      show (l.gate.test t).count = l.gate.count
      rw [Gate.test_zero h0]
      rfl
    have := h.moveOther htc (l := lockAcquire l t) hl hcount (Or.inr rfl)
    rw [← hpc, Function.update_eq_self] at this
    rwa [Biglock.pass, if_pos h0]
  · have htc : t = c := (hok (hk ▸ h0)).trans h.creator
    subst htc
    have hp := h.phase
    rw [hpc] at hp
    have hcount : (lockAcquire l t).lockCount = 0 := by
      show (l.gate.test t).count = 0
      rw [Gate.test_pos h0]
      show l.lockCount - 1 = 0
      have := hp.2
      omega
    rw [Biglock.pass, if_neg h0]
    refine h.move hl (fun u hu => ⟨rfl, Function.update_of_ne hu _ _⟩) h.depth h.word ?_
    simpa [Phase] using hcount

theorem bigStep_inv {c : T} {s s' : Biglock T} {e : BigEv T} (h : BigInv c s) (hok : BootOnly s e)
    (hs : bigStep s e = some s') : BigInv c s' := by
  have hph := h.phase
  -- every place but the first two is the boot thread's
  have mine : ∀ t, s.pc t ≠ .out → s.pc t ≠ .acquiring → t = c := by
    intro t h1 h2
    by_contra hne
    rcases (h.others t hne).2 with hpc | hpc
    · exact h1 hpc
    · exact h2 hpc
  cases e with
  | acquire t =>
    simp only [bigStep] at hs
    split_ifs at hs with h1 h2 <;> cases hs
    · obtain ⟨hk, rfl⟩ := (h.doIHold t).mp h2
      refine h.move h.creator (fun u hu => ⟨rfl, Function.update_of_ne hu _ _⟩) h.depth h.word ?_
      simpa [Biglock.goto, Phase] using hk
    · by_cases htc : t = c
      · subst htc
        have hout : s.pc t = .out := not_not.mp h1
        rw [hout] at hph
        refine h.move h.creator (fun u hu => ⟨rfl, Function.update_of_ne hu _ _⟩) h.depth h.word ?_
        rw [h.doIHold] at h2
        rcases hph with hz | ⟨-, hk⟩
        · simpa [Biglock.goto, Phase] using hz
        · exact absurd ⟨hk, rfl⟩ h2
      · exact h.moveOther htc h.creator rfl (Or.inr rfl)
  | pass t =>
    simp only [bigStep] at hs
    split_ifs at hs with h1
    cases hs
    exact h.pass h1.1 h.creator rfl hok
  | retest t =>
    simp only [bigStep] at hs
    split_ifs at hs with h1
    cases hs
    exact h.pass (l := { s.lock with gate := s.lock.gate.resume t }) h1.1 h.creator rfl hok
  | increment t =>
    simp only [bigStep] at hs
    split_ifs at hs with h1
    cases hs
    obtain rfl := mine t (by rw [h1]; decide) (by rw [h1]; decide)
    have hd : (s.depth + 1) % 2 ^ uintBits = s.nest t + 1 := by
      rw [Nat.mod_eq_of_lt hok, h.depth]
    rw [h1] at hph
    refine h.move h.creator (fun u hu => ⟨Function.update_of_ne hu _ _, Function.update_of_ne hu _ _⟩) ?_ ?_ ?_
    · simpa using hd
    · have : s.depth + 1 < 2 ^ uintBits := hok
      rw [h.depth] at this
      simpa using this
    · have hk : s.lock.lockCount = 0 := hph
      simp [Biglock.goto, Phase, hk]
  | release t =>
    simp only [bigStep] at hs
    split_ifs at hs with h1
    cases hs
    obtain rfl := h.nest_eq h1.2.1
    have hk := ((h.doIHold t).mp h1.2.2).1
    refine h.move h.creator (fun u hu => ⟨rfl, Function.update_of_ne hu _ _⟩) h.depth h.word ?_
    simpa [Biglock.goto, Phase] using ⟨h1.2.1, hk⟩
  | checkDepth t =>
    simp only [bigStep] at hs
    split_ifs at hs with h1
    cases hs
    obtain rfl := mine t (by rw [h1.1]; decide) (by rw [h1.1]; decide)
    rw [h1.1] at hph
    refine h.move h.creator (fun u hu => ⟨rfl, Function.update_of_ne hu _ _⟩) h.depth h.word ?_
    simpa [Biglock.goto, Phase] using hph
  | decrement t =>
    simp only [bigStep] at hs
    split_ifs at hs with h1
    cases hs
    obtain rfl := mine t (by rw [h1]; decide) (by rw [h1]; decide)
    rw [h1] at hph
    have hw := h.word
    have hd : (s.depth + (2 ^ uintBits - 1)) % 2 ^ uintBits = s.nest t - 1 := by
      rw [h.depth, show s.nest t + (2 ^ uintBits - 1) = s.nest t - 1 + 2 ^ uintBits by have := hph.1; omega,
        Nat.add_mod_right, Nat.mod_eq_of_lt (by omega)]
    refine h.move h.creator (fun u hu => ⟨Function.update_of_ne hu _ _, Function.update_of_ne hu _ _⟩) ?_ ?_ ?_
    · simpa using hd
    · simpa using (by omega : s.nest t - 1 < 2 ^ uintBits)
    · simpa [Biglock.goto, Phase] using hph.2
  | testDepth t =>
    simp only [bigStep] at hs
    split_ifs at hs with h1 h2
    all_goals
      cases hs
      obtain rfl := mine t (by rw [h1]; decide) (by rw [h1]; decide)
      rw [h1] at hph
      have hk : s.lock.lockCount = 0 := hph
      have hd := h.depth
      refine h.move h.creator (fun u hu => ⟨rfl, Function.update_of_ne hu _ _⟩) h.depth h.word ?_
      simp only [Biglock.goto, Function.update_self, Phase]
      omega
  | unlock t =>
    simp only [bigStep] at hs
    split_ifs at hs with h1
    obtain ⟨l, hl, rfl⟩ := Option.map_eq_some_iff.mp hs
    obtain ⟨g, hg, rfl⟩ := Option.map_eq_some_iff.mp hl
    obtain rfl := mine t (by rw [h1]; decide) (by rw [h1]; decide)
    rw [h1] at hph
    have hk : s.lock.gate.count = 0 := hph.2
    obtain ⟨-, rfl⟩ := Gate.post_cases (hk ▸ Nat.two_pow_pos _) hg
    refine h.move h.creator (fun u hu => ⟨rfl, Function.update_of_ne hu _ _⟩) h.depth h.word ?_
    have hn : s.nest t = 0 := hph.1
    simp [Biglock.goto, Phase, Lock.lockCount, hk, hn]

/-- In every run in which the thread that ran `vfs_bootstrap` is the only one to
get the lock, the recursive lock works in every state. -/
theorem biglock_run (boot : T) (evs : List (BigEv T))
    (hok : AllSteps bigStep BootOnly (vfsBootstrap boot) evs) :
    AllStates bigStep BiglockOk (vfsBootstrap boot) evs :=
  (allStates_of_inv (fun _ _ _ h hok hs => bigStep_inv h hok hs) (bigInv_init boot) hok).mono
    fun _ h => h.ok

/-- The boot thread nests two levels and leaves them again, while another thread
goes to sleep on the lock. -/
theorem biglock_run_boot :
    AllStates bigStep BiglockOk (vfsBootstrap 0)
      [.acquire 0, .pass 0, .increment 0, .acquire 0, .acquire 1, .pass 1, .increment 0,
        .release 0, .checkDepth 0, .decrement 0, .testDepth 0,
        .release 0, .checkDepth 0, .decrement 0, .testDepth 0, .unlock 0] :=
  biglock_run 0 _ (by decide)

/-- Thread 1 gets the lock first: `vfs_biglock_do_i_hold` denies it, its nested
acquire sleeps on the lock it holds, and the boot thread 0 then comes in beside it. -/
theorem biglock_two_inside :
    ∃ s, exec bigStep (vfsBootstrap 0)
        [BigEv.acquire 1, .pass 1, .increment 1, .acquire 1, .pass 1, .acquire 0, .increment 0] = some s ∧
      s.nest 1 = 1 ∧ s.nest 0 = 1 ∧ s.lock.gate.asleep = [1] ∧ vfsBiglockDoIHold s 1 = false ∧
      ¬ BiglockOk s := by
  refine ⟨_, rfl, rfl, rfl, rfl, rfl, fun h => ?_⟩
  exact absurd (h.one 0 1 (by decide) (by decide)) (by decide)

end Os161
