import Os161.Lib.Run
import Os161.Spec.Uio

/-! Semaphores as files, `kern/fs/semfs`: reading, writing and truncating one
semaphore. Its fields are touched under `sems_lock` only, so what a call does from the
time it has the lock until it gives it up, or goes to sleep on `sems_cv`, is one step. -/

namespace Os161

variable {T : Type*}

/-- What a thread is to do with `sems_lock`. -/
inductive SemCall where
  /-- `semfs_read`, with `uio_resid` -/
  | read (resid : ℕ)
  /-- `semfs_read` back from `cv_wait`, about to test the count again -/
  | reread (resid : ℕ)
  | write (resid : ℕ)
  | truncate (newcount : ℕ)
  deriving DecidableEq

structure SemfsSem (T : Type*) where
  semsCount : ℕ
  /-- the thread with `sems_lock` -/
  holder : Option (T × SemCall)
  /-- the threads in `lock_acquire` -/
  blocked : List (T × SemCall)
  /-- the readers asleep on `sems_cv`, with what they still want -/
  asleep : List (T × ℕ)
  /-- the readers taken off `sems_cv` that do not have the lock back -/
  woken : List (T × ℕ)

def SemfsSem.create (semsCount : UInt32) : SemfsSem T := ⟨semsCount.toNat, none, [], [], []⟩

inductive SemfsEv (T : Type*) where
  | read (t : T) (resid : UInt32)
  | write (t : T) (resid : UInt32)
  | truncate (t : T) (len : ℤ)
  /-- `t` gets `sems_lock`, in `lock_acquire` or at the end of `cv_wait` -/
  | acquire (t : T)
  /-- the holder of the lock does its work; `cv_signal` wakes the sleeper at `i` -/
  | run (i : ℕ)

/-- `t` is in one of the functions. -/
def SemfsSem.Busy (s : SemfsSem T) (t : T) : Prop :=
  (s.holder.map Prod.fst = some t) ∨ t ∈ s.blocked.map Prod.fst ∨ t ∈ s.asleep.map Prod.fst ∨
    t ∈ s.woken.map Prod.fst

/-- `cv_signal`; `none` if there are sleepers and `i` is none of them. -/
def cvSignal (i : ℕ) (s : SemfsSem T) : Option (SemfsSem T) :=
  match s.asleep with
  | [] => some s
  | _ :: _ => (s.asleep[i]?).map fun w => { s with asleep := s.asleep.eraseIdx i, woken := s.woken ++ [w] }

def cvBroadcast (s : SemfsSem T) : SemfsSem T := { s with asleep := [], woken := s.woken ++ s.asleep }

def semfsWakeup (i newcount : ℕ) (s : SemfsSem T) : Option (SemfsSem T) :=
  if 0 < s.semsCount ∨ newcount = 0 then some s
  else if newcount = 1 then cvSignal i s
  else some (cvBroadcast s)

/-- The loop of `semfs_read` up to its end or to `cv_wait`. -/
def semfsRead (t : T) (resid : ℕ) (s : SemfsSem T) : SemfsSem T :=
  let consume := min resid s.semsCount
  let s := { s with semsCount := s.semsCount - consume, holder := none }
  if resid - consume = 0 then s else { s with asleep := s.asleep ++ [(t, resid - consume)] }

/-- The count that `semfs_write` sets, if it sets one: not for nothing to write, and
not when the sum wraps (`EFBIG`). -/
def writeCount (s : SemfsSem T) (resid : ℕ) : Option ℕ :=
  let newcount := (s.semsCount + resid) % 4294967296
  if resid = 0 ∨ newcount < s.semsCount then none else some newcount

/-- The count that the holder of the lock sets, if it sets one without reading. -/
def SemfsSem.newcount (s : SemfsSem T) : Option ℕ :=
  match s.holder with
  | some (_, .write resid) => writeCount s resid
  | some (_, .truncate newcount) => some newcount
  | _ => none

/-- The end of `semfs_write` and `semfs_truncate`. -/
def semfsPost (i : ℕ) (newcount : Option ℕ) (s : SemfsSem T) : Option (SemfsSem T) :=
  match newcount with
  | none => some { s with holder := none }
  | some newcount => (semfsWakeup i newcount s).map fun s => { s with semsCount := newcount, holder := none }

/-- A woken reader is on its way to test the count. -/
def SemfsSem.OnItsWay (s : SemfsSem T) : Prop :=
  s.woken ≠ [] ∨ ∃ t resid, s.holder = some (t, .reread resid)

/-- No wakeup is lost. -/
def SemfsSem.NoLostWakeup (s : SemfsSem T) : Prop :=
  0 < s.semsCount → s.asleep ≠ [] → s.OnItsWay

/-- What the woken readers on their way still want. -/
def SemfsSem.demand (s : SemfsSem T) : ℕ :=
  (s.woken.map Prod.snd).sum + match s.holder with
    | some (_, .reread resid) => resid
    | _ => 0

/-- A count that is set over a nonzero one, while readers sleep, is no more than what
the woken readers want. -/
def SemfsSem.Wanted (s : SemfsSem T) : SemfsEv T → Prop
  | .run _ => ∀ newcount ∈ s.newcount, 0 < s.semsCount → s.asleep ≠ [] → newcount ≤ s.demand
  | _ => True

variable [DecidableEq T]

instance (s : SemfsSem T) : (e : SemfsEv T) → Decidable (s.Wanted e)
  | .run _ => inferInstanceAs (Decidable (∀ newcount ∈ s.newcount, _ → _ → newcount ≤ s.demand))
  | .read _ _ | .write _ _ | .truncate _ _ | .acquire _ => isTrue trivial

instance (s : SemfsSem T) (t : T) : Decidable (s.Busy t) := inferInstanceAs (Decidable (_ ∨ _ ∨ _ ∨ _))

def SemfsSem.call (s : SemfsSem T) (t : T) (c : SemCall) : Option (SemfsSem T) :=
  if s.Busy t then none else some { s with blocked := s.blocked ++ [(t, c)] }

/-- The first entry of a thread in a list of threads. -/
def lookupThread {β : Type} (t : T) (l : List (T × β)) : Option (T × β) := l.find? fun e => e.1 = t

def semfsStep (s : SemfsSem T) : SemfsEv T → Option (SemfsSem T)
  | .read t resid => s.call t (.read resid.toNat)
  | .write t resid => s.call t (.write resid.toNat)
  | .truncate t len =>
    -- `EINVAL` and `EFBIG`
    if len < 0 ∨ 4294967295 < len then some s else s.call t (.truncate len.toNat)
  | .acquire t =>
    if s.holder ≠ none then none
    else match lookupThread t s.blocked, lookupThread t s.woken with
      | some (t, c), _ => some { s with holder := some (t, c), blocked := s.blocked.erase (t, c) }
      | none, some (t, resid) =>
        some { s with holder := some (t, .reread resid), woken := s.woken.erase (t, resid) }
      | none, none => none
  | .run i =>
    match s.holder with
    | none => none
    | some (t, .read resid) => some (semfsRead t resid s)
    | some (t, .reread resid) => some (semfsRead t resid s)
    | some (_, .write _) => semfsPost i s.newcount s
    | some (_, .truncate _) => semfsPost i s.newcount s

end Os161
