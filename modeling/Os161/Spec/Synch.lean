import Os161.Lib.Gate

/-! `kern/thread/synch.c`: semaphores and locks. A section under `sem_lock` or
`lock_lock` is one atomic step. `wchan_sleep` puts the caller at the tail of
`wc_threads` before the spinlock is dropped and `wchan_wakeone` takes the head
off, so the count and the channel of a semaphore, and of a lock, are one `Gate`. -/

namespace Os161

variable {T : Type*}

/-- Bits of the kernel's `unsigned`. -/
def uintBits : ℕ := 32

/-! ## Semaphores -/

/-- `sem_create`; the initial count is an `unsigned`. -/
def semCreate (initialCount : UInt32) : Gate T := ⟨initialCount.toNat, [], []⟩

/-- One pass of the loop of `P`, from the test of `sem_count` to the sleep or to
the decrement that ends the call. -/
def P (sem : Gate T) (cur : T) : Gate T := sem.test cur

/-- `V`; `none` is its failed assertion, when `sem_count` wraps to zero. -/
def V (sem : Gate T) : Option (Gate T) := sem.post uintBits

/-- A semaphore in use, with the number of calls that have completed. -/
structure SemSys (T : Type*) where
  sem : Gate T
  doneP : ℕ
  doneV : ℕ
  deriving DecidableEq

inductive SemEv (T : Type*) where
  /-- `t` calls `P` and makes its first test -/
  | p (t : T)
  /-- `t`, woken from `sem_wchan`, has the spinlock back and tests again -/
  | retest (t : T)
  /-- a thread or an interrupt handler calls `V` -/
  | v

def SemSys.init (n : UInt32) : SemSys T := ⟨semCreate n, 0, 0⟩

/-- A pass that finds a unit completes its `P`. -/
def SemSys.pass (s : SemSys T) (sem : Gate T) (t : T) : SemSys T :=
  { s with sem := P sem t, doneP := if sem.count = 0 then s.doneP else s.doneP + 1 }

def semStep [DecidableEq T] (s : SemSys T) : SemEv T → Option (SemSys T)
  | .p t => if s.sem.Waiting t then none else some (s.pass s.sem t)
  | .retest t => if t ∈ s.sem.woken then some (s.pass (s.sem.resume t) t) else none
  | .v => (V s.sem).map fun sem => { s with sem := sem, doneV := s.doneV + 1 }

/-! ## Locks -/

/-- `struct lock`: `lock_count` and `lock_wchan` are the gate. -/
structure Lock (T : Type*) where
  lockThread : T
  gate : Gate T
  deriving DecidableEq

def Lock.lockCount (l : Lock T) : ℕ := l.gate.count

/-- `lock_create`: nobody holds the lock, and `lock_thread` is the creator. -/
def lockCreate (cur : T) : Lock T := { lockThread := cur, gate := ⟨1, [], []⟩ }

/-- One pass of the loop of `lock_acquire`; `lock_thread` is not written. -/
def lockAcquire (l : Lock T) (cur : T) : Lock T := { l with gate := l.gate.test cur }

/-- `lock_release`; `none` is the failed assertion that `lock_count` is not 0. -/
def lockRelease (l : Lock T) : Option (Lock T) :=
  (l.gate.post uintBits).map fun g => { l with gate := g }

def lockDoIHold [DecidableEq T] (l : Lock T) (cur : T) : Bool :=
  if l.lockCount = 1 then false
  else if cur = l.lockThread then true
  else false

/-- What `lock_destroy` checks before it frees: `wchan_destroy` asserts that
nobody sleeps on the channel. -/
def lockDestroy (l : Lock T) : Bool := l.gate.asleep.isEmpty

/-- A lock in use. `holders` has a thread for each `lock_acquire` that returned
and was not followed by that thread's `lock_release`; `last` is the thread whose
`lock_acquire` returned last. -/
structure LockSys (T : Type*) where
  lock : Lock T
  holders : List T
  last : Option T
  freed : Bool
  deriving DecidableEq

inductive LockEv (T : Type*) where
  /-- `t` calls `lock_acquire` and makes its first test -/
  | acquire (t : T)
  /-- `t`, woken from `lock_wchan`, has the spinlock back and tests again -/
  | retest (t : T)
  | release (t : T)
  | destroy (t : T)

def LockSys.init (creator : T) : LockSys T := ⟨lockCreate creator, [], none, false⟩

/-- `t` takes the lock if `lock_count` is not 0, and sleeps otherwise. -/
def LockSys.pass (s : LockSys T) (l : Lock T) (t : T) : LockSys T :=
  if l.lockCount = 0 then { s with lock := lockAcquire l t }
  else { s with lock := lockAcquire l t, holders := t :: s.holders, last := some t }

/-- A thread inside `lock_acquire` makes no other call, and nothing is called on
a lock that was freed. -/
def lockStep [DecidableEq T] (s : LockSys T) : LockEv T → Option (LockSys T)
  | .acquire t =>
    if s.freed ∨ s.lock.gate.Waiting t then none else some (s.pass s.lock t)
  | .retest t =>
    if ¬ s.freed ∧ t ∈ s.lock.gate.woken then
      some (s.pass { s.lock with gate := s.lock.gate.resume t } t)
    else none
  | .release t =>
    if s.freed ∨ s.lock.gate.Waiting t then none
    else (lockRelease s.lock).map fun l => { s with lock := l, holders := s.holders.erase t }
  | .destroy t =>
    if s.freed ∨ s.lock.gate.Waiting t ∨ lockDestroy s.lock = false then none
    else some { s with freed := true }

end Os161
