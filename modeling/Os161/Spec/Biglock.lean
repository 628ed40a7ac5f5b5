import Os161.Spec.Synch

/-! `vfs_biglock` of `kern/vfs/vfslist.c`: a lock made recursive by a test of
`lock_do_i_hold` and a depth counter. Neither the test nor the counter is under
a spinlock, so each access to them is a step of its own. -/

namespace Os161

variable {T : Type*}

/-- Where a thread is in `vfs_biglock_acquire` or `vfs_biglock_release`. A thread
asleep or woken in `lock_acquire` is one that the lock's gate has waiting. -/
inductive BigPc where
  /-- in neither function -/
  | out
  /-- `lock_do_i_hold` said no; in `lock_acquire` -/
  | acquiring
  /-- about to increment `vfs_biglock_depth` and return -/
  | increment
  /-- past the assertion of `lock_do_i_hold` in the release -/
  | checkDepth
  /-- past both assertions -/
  | decrement
  /-- about to test the decremented depth -/
  | testDepth
  /-- about to call `lock_release` -/
  | releasing
  deriving DecidableEq

/-- `vfs_biglock` and `vfs_biglock_depth`. `nest t` is the number of acquires of
`t` that returned, less the releases that gave up their level. -/
structure Biglock (T : Type*) where
  lock : Lock T
  depth : ℕ
  pc : T → BigPc
  nest : T → ℕ

/-- After `vfs_bootstrap`, run by `boot`. -/
def vfsBootstrap (boot : T) : Biglock T :=
  { lock := lockCreate boot, depth := 0, pc := fun _ => .out, nest := fun _ => 0 }

inductive BigEv (T : Type*) where
  /-- `t` calls `vfs_biglock_acquire` and evaluates `lock_do_i_hold` -/
  | acquire (t : T)
  /-- `t` makes its first pass of the loop in `lock_acquire` -/
  | pass (t : T)
  /-- `t`, woken from `lock_wchan`, makes another pass -/
  | retest (t : T)
  | increment (t : T)
  /-- `t` calls `vfs_biglock_release` and evaluates `lock_do_i_hold` -/
  | release (t : T)
  | checkDepth (t : T)
  | decrement (t : T)
  | testDepth (t : T)
  | unlock (t : T)

variable [DecidableEq T]

def vfsBiglockDoIHold (s : Biglock T) (cur : T) : Bool := lockDoIHold s.lock cur

def Biglock.goto (s : Biglock T) (t : T) (pc : BigPc) : Biglock T :=
  { s with pc := Function.update s.pc t pc }

/-- A pass of `lock_acquire`: a thread that takes the lock goes on. -/
def Biglock.pass (s : Biglock T) (l : Lock T) (t : T) : Biglock T :=
  if l.lockCount = 0 then { s with lock := lockAcquire l t }
  else { s with lock := lockAcquire l t, pc := Function.update s.pc t .increment }

/-- Acquires and releases nest: a thread releases only a level that it has. -/
def bigStep (s : Biglock T) : BigEv T → Option (Biglock T)
  | .acquire t =>
    if s.pc t ≠ .out then none
    else if lockDoIHold s.lock t then some (s.goto t .increment) else some (s.goto t .acquiring)
  | .pass t =>
    if s.pc t = .acquiring ∧ ¬ s.lock.gate.Waiting t then some (s.pass s.lock t) else none
  | .retest t =>
    if s.pc t = .acquiring ∧ t ∈ s.lock.gate.woken then
      some (s.pass { s.lock with gate := s.lock.gate.resume t } t)
    else none
  | .increment t =>
    if s.pc t = .increment then
      some { s.goto t .out with
        depth := (s.depth + 1) % 2 ^ uintBits, nest := Function.update s.nest t (s.nest t + 1) }
    else none
  | .release t =>
    if s.pc t = .out ∧ 0 < s.nest t ∧ lockDoIHold s.lock t then some (s.goto t .checkDepth) else none
  | .checkDepth t =>
    if s.pc t = .checkDepth ∧ 0 < s.depth then some (s.goto t .decrement) else none
  | .decrement t =>
    if s.pc t = .decrement then
      some { s.goto t .testDepth with
        depth := (s.depth + (2 ^ uintBits - 1)) % 2 ^ uintBits,
        nest := Function.update s.nest t (s.nest t - 1) }
    else none
  | .testDepth t =>
    if s.pc t = .testDepth then
      some (s.goto t (if s.depth = 0 then .releasing else .out))
    else none
  | .unlock t =>
    if s.pc t = .releasing then (lockRelease s.lock).map fun l => { s.goto t .out with lock := l }
    else none

end Os161
