import Os161.Lib.Count
import Os161.Lib.Run

/-! `thread_count` of `kern/thread/thread.c`: the reset in `thread_start_cpus`, the
increment in `thread_fork` and the decrement in `thread_exit`. The last two are made
under `thread_count_lock`; the reset is not, nor is the test in `thread_exit`. -/

namespace Os161

/-- The pages that a stack of `STACK_SIZE` bytes can be in. -/
def stackPages : ℕ := 1048576

/-- Where a thread is in its life. -/
inductive CountPc where
  /-- a start-up thread before its `V` in `cpu_hatch` -/
  | hatching
  | running
  /-- in `thread_exit`, where it found `thread_count` nonzero -/
  | exiting
  /-- with the lock, before the load of `--thread_count` -/
  | decrement
  /-- with the lock and the value loaded -/
  | decremented (c : ℕ)
  /-- past the decrement, or past the test when that found zero -/
  | gone
  /-- no thread has this stack -/
  | free
  /-- `thread_fork` has made the thread and does not have the lock yet -/
  | forking
  | increment
  | incremented (c : ℕ)
  deriving DecidableEq

/-- A start-up thread, or a forked thread, named by the page of its stack. -/
abbrev CountThread (n : ℕ) : Type := Fin n ⊕ Fin stackPages

/-- The boot CPU and `n` others. -/
structure ThreadCount (n : ℕ) where
  threadCount : ℕ
  /-- whether `thread_count_lock` is held -/
  locked : Bool
  /-- `sem_count` of `cpu_startup_sem` -/
  startupSem : ℕ
  /-- the calls of `P` in `thread_start_cpus` that have returned -/
  waited : ℕ
  /-- whether `thread_start_cpus` has set `thread_count` -/
  reset : Bool
  pc : CountThread n → CountPc
  /-- the threads forked so far -/
  forked : ℕ
  /-- the forked threads that have passed the decrement -/
  passed : ℕ

inductive CountEv (n : ℕ) where
  /-- `V(cpu_startup_sem)` in `cpu_hatch` -/
  | V (i : Fin n)
  /-- `P(cpu_startup_sem)` in `thread_start_cpus` -/
  | P
  /-- `thread_count = 1` -/
  | reset
  /-- `thread_fork`, called by the menu thread or a forked thread, gets a stack -/
  | fork (p : Fin stackPages)
  /-- `if (thread_count)` in `thread_exit` -/
  | test (t : CountThread n)
  | acquire (t : CountThread n)
  | load (t : CountThread n)
  /-- the store, and the release of the lock -/
  | store (t : CountThread n)
  /-- the stack is freed -/
  | exorcise (p : Fin stackPages)

variable {n : ℕ}

def ThreadCount.goto (s : ThreadCount n) (t : CountThread n) (pc : CountPc) : ThreadCount n :=
  { s with pc := Function.update s.pc t pc }

/-- Before `mainbus_start_cpus`. -/
def threadCountBoot (n : ℕ) : ThreadCount n where
  threadCount := 0
  locked := false
  startupSem := 0
  waited := 0
  reset := false
  pc := Sum.elim (fun _ => .hatching) fun _ => .free
  forked := 0
  passed := 0

def countStep (s : ThreadCount n) : CountEv n → Option (ThreadCount n)
  | .V i =>
    if s.pc (.inl i) = .hatching then some { s.goto (.inl i) .running with startupSem := s.startupSem + 1 }
    else none
  | .P =>
    if s.waited < n ∧ 0 < s.startupSem then
      some { s with startupSem := s.startupSem - 1, waited := s.waited + 1 }
    else none
  | .reset =>
    if s.waited = n ∧ s.reset = false then some { s with threadCount := 1, reset := true } else none
  | .fork p => if s.reset = true ∧ s.pc (.inr p) = .free then some (s.goto (.inr p) .forking) else none
  | .test t =>
    if s.pc t = .running then some (s.goto t (if s.threadCount ≠ 0 then .exiting else .gone)) else none
  | .acquire t =>
    if s.locked = true then none
    else match s.pc t with
      | .exiting => some { s.goto t .decrement with locked := true }
      | .forking => some { s.goto t .increment with locked := true }
      | _ => none
  | .load t =>
    match s.pc t with
    | .decrement => some (s.goto t (.decremented s.threadCount))
    | .increment => some (s.goto t (.incremented s.threadCount))
    | _ => none
  | .store t =>
    match s.pc t with
    | .decremented c => some
      { s.goto t .gone with
        threadCount := (c + 4294967295) % 4294967296
        locked := false
        passed := s.passed + if t.isRight = true then 1 else 0 }
    | .incremented c => some
      { s.goto t .running with
        threadCount := (c + 1) % 4294967296
        locked := false
        forked := s.forked + 1 }
    | _ => none
  | .exorcise p => if s.pc (.inr p) = .gone then some (s.goto (.inr p) .free) else none

/-- Once `thread_start_cpus` is done and the start-up threads have exited, the count is
right; with no forked thread left, and none on its way, it is 1. -/
structure ThreadCount.Right (s : ThreadCount n) : Prop where
  count : s.reset = true → (∀ i, s.pc (.inl i) = .gone) → s.threadCount + s.passed = 1 + s.forked
  one : s.reset = true → (∀ i, s.pc (.inl i) = .gone) →
    (∀ p, s.pc (.inr p) = .free ∨ s.pc (.inr p) = .gone) → s.threadCount = 1

/-- The reset is made after every start-up thread has made its test. -/
def ThreadCount.Hatched (s : ThreadCount n) : CountEv n → Prop
  | .reset => ∀ i, s.pc (.inl i) = .gone
  | _ => True

instance (s : ThreadCount n) : (e : CountEv n) → Decidable (s.Hatched e)
  | .reset => inferInstanceAs (Decidable (∀ i, s.pc (.inl i) = .gone))
  | .V _ | .P | .fork _ | .test _ | .acquire _ | .load _ | .store _ | .exorcise _ => isTrue trivial

end Os161
