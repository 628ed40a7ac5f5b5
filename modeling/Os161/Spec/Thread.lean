import Os161.Lib.Run

/-! The thread system of `kern/thread/thread.c` on `n` CPUs. A section under a
run queue lock, or under the spinlock of a wait channel, is one step; a CPU in
the middle of `wchan_wakeall` or `thread_consider_migration`, which run with
interrupts off, makes no other step until it is done. -/

namespace Os161

variable {T W : Type*} {n : ℕ}

/-- `threadstate_t` -/
inductive ThreadState where
  | run
  | ready
  | sleep
  | zombie
  deriving DecidableEq

/-- `t_state` and `t_cpu`. -/
structure Thread (n : ℕ) where
  tState : ThreadState
  tCpu : Fin n
  deriving DecidableEq

/-- What a CPU is in the middle of. -/
inductive CpuOp (T : Type*) (n : ℕ) where
  /-- running its current thread, or in `cpu_idle` -/
  | none
  /-- after a switch, in the loop of `exorcise` -/
  | exorcising
  /-- in `wchan_wakeall`, with the private list -/
  | waking (list : List T)
  /-- in the counting loop of `thread_consider_migration` -/
  | counting (todo : List (Fin n)) (myCount totalCount : ℕ)
  /-- about to take the victims off its own run queue -/
  | taking (oneShare toSend : ℕ)
  /-- in the loop that sends the victims -/
  | sending (todo : List (Fin n)) (oneShare toSend : ℕ) (victims : List T)

/-- The list that the operation in progress keeps to itself. -/
def CpuOp.held : CpuOp T n → List T
  | .waking list => list
  | .sending _ _ _ victims => victims
  | _ => []

/-- The scheduler's half of `struct cpu`. -/
structure Cpu (T : Type*) (n : ℕ) where
  curthread : T
  isidle : Bool
  runqueue : List T
  zombies : List T
  op : CpuOp T n

structure ThreadSys (T W : Type*) (n : ℕ) where
  cpu : Fin n → Cpu T n
  thread : T → Thread n
  /-- `wc_threads` of each wait channel -/
  wchan : W → List T
  /-- created and not destroyed -/
  live : T → Bool

/-- The places where a thread can be. -/
inductive Place (W : Type*) (n : ℕ) where
  | running (c : Fin n)
  | runqueue (c : Fin n)
  | wchan (wc : W)
  | zombies (c : Fin n)
  | held (c : Fin n)
  deriving DecidableEq

def ThreadSys.threadsAt (s : ThreadSys T W n) : Place W n → List T
  | .running c => if (s.cpu c).isidle then [] else [(s.cpu c).curthread]
  | .runqueue c => (s.cpu c).runqueue
  | .wchan wc => s.wchan wc
  | .zombies c => (s.cpu c).zombies
  | .held c => (s.cpu c).op.held

variable [DecidableEq T] [DecidableEq W]

namespace ThreadSys

def setCpu (s : ThreadSys T W n) (c : Fin n) (x : Cpu T n) : ThreadSys T W n :=
  { s with cpu := Function.update s.cpu c x }

def setOp (s : ThreadSys T W n) (c : Fin n) (op : CpuOp T n) : ThreadSys T W n :=
  s.setCpu c { s.cpu c with op := op }

def setState (s : ThreadSys T W n) (t : T) (st : ThreadState) : ThreadSys T W n :=
  { s with thread := Function.update s.thread t { s.thread t with tState := st } }

/-- `thread_make_runnable` -/
def threadMakeRunnable (s : ThreadSys T W n) (target : T) : ThreadSys T W n :=
  let targetcpu := (s.thread target).tCpu
  let s := s.setState target .ready
  s.setCpu targetcpu { s.cpu targetcpu with runqueue := (s.cpu targetcpu).runqueue ++ [target] }

/-- `thread_fork`, from the point where it can no longer fail. The new thread is
on its parent's CPU. -/
def threadFork (s : ThreadSys T W n) (c : Fin n) (newthread : T) : ThreadSys T W n :=
  threadMakeRunnable
    { s with
      thread := Function.update s.thread newthread ⟨.ready, (s.thread (s.cpu c).curthread).tCpu⟩
      live := Function.update s.live newthread true } newthread

/-- The new state of the current thread in a switch, with the channel to sleep on. -/
inductive SwitchTo (W : Type*) where
  | ready
  | sleep (wc : W)
  | zombie
  deriving DecidableEq

def SwitchTo.state : SwitchTo W → ThreadState
  | .ready => .ready
  | .sleep _ => .sleep
  | .zombie => .zombie

/-- The first half of `thread_switch`: the current thread goes to the right place
and the CPU is marked idle. -/
def park (s : ThreadSys T W n) (c : Fin n) (newstate : SwitchTo W) : ThreadSys T W n :=
  let cur := (s.cpu c).curthread
  let s := match newstate with
    | .ready => s.threadMakeRunnable cur
    | .sleep wc => { s with wchan := Function.update s.wchan wc (s.wchan wc ++ [cur]) }
    | .zombie => s.setCpu c { s.cpu c with zombies := (s.cpu c).zombies ++ [cur] }
  let s := s.setState cur newstate.state
  s.setCpu c { s.cpu c with isidle := true }

/-- One turn of the loop of `thread_switch` that looks for the next thread, and
the switch to it. With an empty run queue the CPU stays in `cpu_idle`. -/
def pickNext (s : ThreadSys T W n) (c : Fin n) : ThreadSys T W n :=
  match (s.cpu c).runqueue with
  | [] => s
  | next :: rest =>
    (s.setCpu c { s.cpu c with
      runqueue := rest, isidle := false, curthread := next, op := .exorcising }).setState next .run

def threadSwitch (s : ThreadSys T W n) (c : Fin n) (newstate : SwitchTo W) : ThreadSys T W n :=
  if (s.cpu c).isidle then s
  else if newstate = .ready ∧ (s.cpu c).runqueue = [] then s
  else (s.park c newstate).pickNext c

/-- One turn of the loop of `exorcise`; `none` is a failed assertion, there or in
`thread_destroy`. -/
def exorcise (s : ThreadSys T W n) (c : Fin n) : Option (ThreadSys T W n) :=
  match (s.cpu c).zombies with
  | [] => some (s.setOp c .none)
  | z :: rest =>
    if z = (s.cpu c).curthread ∨ (s.thread z).tState ≠ .zombie then none
    else some { s.setCpu c { s.cpu c with zombies := rest } with live := Function.update s.live z false }

def wchanWakeone (s : ThreadSys T W n) (wc : W) : ThreadSys T W n :=
  match s.wchan wc with
  | [] => s
  | target :: rest => threadMakeRunnable { s with wchan := Function.update s.wchan wc rest } target

/-- The first loop of `wchan_wakeall`: the channel moves to the private list. -/
def wchanWakeall (s : ThreadSys T W n) (c : Fin n) (wc : W) : ThreadSys T W n :=
  { s.setOp c (.waking (s.wchan wc)) with wchan := Function.update s.wchan wc [] }

/-! ### `thread_consider_migration` -/

/-- `DIVROUNDUP` -/
def divRoundUp (a b : ℕ) : ℕ := (a + b - 1) / b

/-- One turn of the counting loop, or the decision after it. -/
def migrateCount (s : ThreadSys T W n) (c : Fin n) (todo : List (Fin n)) (myCount totalCount : ℕ) :
    ThreadSys T W n :=
  match todo with
  | d :: ds =>
    let len := (s.cpu d).runqueue.length
    s.setOp c (.counting ds (if d = c then len else myCount) (totalCount + len))
  | [] =>
    let oneShare := divRoundUp totalCount n
    s.setOp c (if myCount < oneShare then .none else .taking oneShare (myCount - oneShare))

/-- The loop that moves `toSend` threads from the tail of the run queue to the
head of the victims; `none` is a null pointer from an empty queue. -/
def takeVictims : ℕ → List T → List T → Option (List T × List T)
  | 0, queue, victims => some (queue, victims)
  | k + 1, queue, victims =>
    match queue.getLast? with
    | none => none
    | some t => takeVictims k queue.dropLast (t :: victims)

def migrateTake (s : ThreadSys T W n) (c : Fin n) (oneShare toSend : ℕ) : Option (ThreadSys T W n) :=
  (takeVictims toSend (s.cpu c).runqueue []).map fun (queue, victims) =>
    s.setCpu c { s.cpu c with
      runqueue := queue, op := .sending (List.finRange n) oneShare toSend victims }

/-- What the inner loop leaves: `to_send`, the victims, and who was sent. -/
structure Sent (T : Type*) where
  toSend : ℕ
  victims : List T
  sent : List T

/-- The inner loop over one CPU, whose queue has `count` threads: the current
thread of the sending CPU is passed over to the end of the victims. -/
def sendLoop (cur : T) (oneShare : ℕ) : ℕ → ℕ → List T → Option (Sent T)
  | 0, _, victims => some ⟨0, victims, []⟩
  | k + 1, count, victims =>
    if count < oneShare then
      match victims with
      | [] => none
      | t :: ts =>
        if t = cur then sendLoop cur oneShare k count (ts ++ [t])
        else (sendLoop cur oneShare k (count + 1) ts).map fun r => { r with sent := t :: r.sent }
    else some ⟨k + 1, victims, []⟩

/-- The threads in `sent` go to the run queue of `d`. -/
def enqueueSent (s : ThreadSys T W n) (d : Fin n) (sent : List T) : ThreadSys T W n :=
  { s.setCpu d { s.cpu d with runqueue := (s.cpu d).runqueue ++ sent } with
    thread := fun t => if t ∈ sent then { s.thread t with tCpu := d } else s.thread t }

/-- One turn of the outer loop that sends the victims. -/
def migrateSend (s : ThreadSys T W n) (c : Fin n) (todo : List (Fin n)) (oneShare toSend : ℕ)
    (victims : List T) : Option (ThreadSys T W n) :=
  match todo with
  | [] => none
  | d :: ds =>
    if toSend = 0 then some (s.setOp c (.sending [] oneShare toSend victims))
    else if d = c then some (s.setOp c (.sending ds oneShare toSend victims))
    else (sendLoop (s.cpu c).curthread oneShare toSend (s.cpu d).runqueue.length victims).map fun r =>
      (s.setOp c (.sending ds oneShare r.toSend r.victims)).enqueueSent d r.sent

/-- The leftovers go back on the CPU's own run queue. -/
def migratePutBack (s : ThreadSys T W n) (c : Fin n) (victims : List T) : ThreadSys T W n :=
  s.setCpu c { s.cpu c with runqueue := (s.cpu c).runqueue ++ victims, op := .none }

end ThreadSys

/-- The start-up threads of the CPUs; `home` finds the CPU of one. -/
structure Startup (T : Type*) (n : ℕ) where
  start : Fin n → T
  home : T → Fin n
  home_start : ∀ c, home (start c) = c

/-- After boot each CPU runs its start-up thread and every list is empty. -/
def ThreadSys.boot (b : Startup T n) : ThreadSys T W n where
  cpu c := { curthread := b.start c, isidle := false, runqueue := [], zombies := [], op := .none }
  thread t := ⟨.ready, b.home t⟩
  wchan _ := []
  live t := decide (b.start (b.home t) = t)

/-- The steps of CPU `c`. Those that need a CPU with nothing else in progress may
come from its current thread or from an interrupt handler. -/
inductive ThreadEv (T W : Type*) (n : ℕ) where
  | fork (c : Fin n) (newthread : T)
  | yield (c : Fin n)
  | sleep (c : Fin n) (wc : W)
  | exit (c : Fin n)
  /-- an idle CPU comes back from `cpu_idle` -/
  | unidle (c : Fin n)
  | exorcise (c : Fin n)
  | wakeone (c : Fin n) (wc : W)
  | wakeall (c : Fin n) (wc : W)
  /-- the next turn of the second loop of `wchan_wakeall` -/
  | wakeNext (c : Fin n)
  /-- `hardclock` calls `thread_consider_migration` -/
  | migrate (c : Fin n)
  /-- the next section of `thread_consider_migration` -/
  | migrateNext (c : Fin n)

open ThreadSys in
def threadStep (s : ThreadSys T W n) : ThreadEv T W n → Option (ThreadSys T W n)
  | .fork c t =>
    match (s.cpu c).op with
    | .none => if (s.cpu c).isidle ∨ s.live t then none else some (s.threadFork c t)
    | _ => none
  | .yield c => match (s.cpu c).op with
    | .none => some (s.threadSwitch c .ready)
    | _ => none
  | .sleep c wc => match (s.cpu c).op with
    | .none => some (s.threadSwitch c (.sleep wc))
    | _ => none
  | .exit c => match (s.cpu c).op with
    | .none => some (s.threadSwitch c .zombie)
    | _ => none
  | .unidle c => match (s.cpu c).op with
    | .none => if (s.cpu c).isidle then some (s.pickNext c) else none
    | _ => none
  | .exorcise c => match (s.cpu c).op with
    | .exorcising => s.exorcise c
    | _ => none
  | .wakeone c wc => match (s.cpu c).op with
    | .none => some (s.wchanWakeone wc)
    | _ => none
  | .wakeall c wc => match (s.cpu c).op with
    | .none => some (s.wchanWakeall c wc)
    | _ => none
  | .wakeNext c => match (s.cpu c).op with
    | .waking [] => some (s.setOp c .none)
    | .waking (t :: ts) => some ((s.setOp c (.waking ts)).threadMakeRunnable t)
    | _ => none
  | .migrate c => match (s.cpu c).op with
    | .none => some (s.setOp c (.counting (List.finRange n) 0 0))
    | _ => none
  | .migrateNext c => match (s.cpu c).op with
    | .counting todo my total => some (s.migrateCount c todo my total)
    | .taking oneShare toSend => s.migrateTake c oneShare toSend
    | .sending [] _ _ victims => some (s.migratePutBack c victims)
    | .sending todo oneShare toSend victims => s.migrateSend c todo oneShare toSend victims
    | _ => none

end Os161
