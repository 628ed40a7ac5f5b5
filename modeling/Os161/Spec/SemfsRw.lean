import Os161.Lib.Run

/-! `semfs_read` and `semfs_write` on one semaphore of `kern/fs/semfs`, one turn of their
loops at a time, with the `struct uio` they are given. A call belongs to a thread of its
own. The lock goes to any thread that waits for it, and a thread in `cv_wait` may wake up
at any time. -/

namespace Os161

/-- `uio_offset` and `uio_resid`. -/
structure SemUio where
  offset : ℤ
  resid : ℕ
  deriving DecidableEq

/-- `uio_offset += n; uio_resid -= n` -/
def SemUio.advance (u : SemUio) (n : ℕ) : SemUio := ⟨u.offset + n, u.resid - n⟩

/-- A call: which of the two it is, the `uio` it was given, and that `uio` now. -/
structure RwCall where
  write : Bool
  given : SemUio
  uio : SemUio
  deriving DecidableEq

inductive RwResult where
  | success
  | efbig
  deriving DecidableEq

structure SemRw where
  semsCount : ℕ
  /-- the call with `sems_lock` -/
  holder : Option RwCall
  /-- the calls that wait for it, in `lock_acquire` or at the end of `cv_wait` -/
  blocked : List RwCall
  /-- the calls asleep on `sems_cv` -/
  asleep : List RwCall
  /-- the calls that have returned -/
  returned : List (RwCall × RwResult)
  deriving DecidableEq

/-- After `semfs_sem_create`. -/
def SemRw.create : SemRw := ⟨0, none, [], [], []⟩

inductive SemRwEv where
  | read (offset : ℤ) (resid : UInt32)
  | write (offset : ℤ) (resid : UInt32)
  /-- the call at `i` gets the lock -/
  | acquire (i : ℕ)
  /-- the holder of the lock makes a turn; `cv_signal` wakes the sleeper at `i` -/
  | turn (i : ℕ)
  /-- the sleeper at `i` wakes up by itself -/
  | wake (i : ℕ)

namespace SemRw

variable (s : SemRw)

/-- The sleeper at `i` goes on to wait for the lock. -/
def wakeAt (i : ℕ) : Option SemRw :=
  (s.asleep[i]?).map fun c => { s with asleep := s.asleep.eraseIdx i, blocked := s.blocked ++ [c] }

/-- `cv_signal` -/
def cvSignal (i : ℕ) : Option SemRw := if s.asleep = [] then some s else s.wakeAt i

/-- `cv_broadcast` -/
def cvBroadcast : SemRw := { s with asleep := [], blocked := s.blocked ++ s.asleep }

/-- `semfs_wakeup` -/
def wakeup (i newcount : ℕ) : Option SemRw :=
  if 0 < s.semsCount ∨ newcount = 0 then some s
  else if newcount = 1 then s.cvSignal i
  else some s.cvBroadcast

/-- `lock_release` and `return` -/
def leave (c : RwCall) (result : RwResult) : SemRw := { s with holder := none, returned := s.returned ++ [(c, result)] }

/-- A turn of the loop of `semfs_read`. -/
def readTurn (c : RwCall) : SemRw :=
  if 0 < c.uio.resid then
    let consume := if s.semsCount < c.uio.resid then s.semsCount else c.uio.resid
    -- with the count at 0 nothing is consumed
    let s := { s with semsCount := s.semsCount - consume }
    let c := { c with uio := c.uio.advance consume }
    if c.uio.resid = 0 then s.leave c .success
    else if s.semsCount = 0 then { s with holder := none, asleep := s.asleep ++ [c] }
    else { s with holder := some c }
  else s.leave c .success

/-- A turn of the loop of `semfs_write`. -/
def writeTurn (i : ℕ) (c : RwCall) : Option SemRw :=
  if 0 < c.uio.resid then
    let newcount := (s.semsCount + c.uio.resid) % 4294967296
    if newcount < s.semsCount then some (s.leave c .efbig)
    else (s.wakeup i newcount).map fun s =>
      { s with semsCount := newcount, holder := some { c with uio := c.uio.advance c.uio.resid } }
  else some (s.leave c .success)

/-- A call begins. -/
def enter (write : Bool) (u : SemUio) : SemRw := { s with blocked := s.blocked ++ [⟨write, u, u⟩] }

end SemRw

def semRwStep (s : SemRw) : SemRwEv → Option SemRw
  | .read offset resid => some (s.enter false ⟨offset, resid.toNat⟩)
  | .write offset resid => some (s.enter true ⟨offset, resid.toNat⟩)
  | .acquire i =>
    if s.holder = none then (s.blocked[i]?).map fun c => { s with holder := some c, blocked := s.blocked.eraseIdx i }
    else none
  | .turn i => s.holder.bind fun c => if c.write then s.writeTurn i c else some (s.readTurn c)
  | .wake i => s.wakeAt i

/-- What a call has consumed, or written, so far. -/
def RwCall.moved (c : RwCall) : ℕ := c.given.resid - c.uio.resid

/-- What the calls in the list that write, or that read, have moved. -/
def flow (write : Bool) (l : List RwCall) : ℕ := (l.map fun c => if c.write = write then c.moved else 0).sum

/-- The total written by successful writes. -/
def SemRw.written (s : SemRw) : ℕ :=
  (s.returned.map fun r => if r.1.write = true ∧ r.2 = .success then r.1.given.resid else 0).sum

/-- The total consumed by reads, those in progress included. -/
def SemRw.consumed (s : SemRw) : ℕ :=
  flow false (s.holder.toList ++ s.blocked ++ s.asleep ++ s.returned.map Prod.fst)

/-- What is to hold of the count and of the calls that have returned. -/
structure SemRw.Right (s : SemRw) : Prop where
  count : s.holder = none → (s.semsCount : ℤ) = s.written - s.consumed
  /-- a read that has returned has returned 0, with all it asked for -/
  read : ∀ r ∈ s.returned, r.1.write = false →
    r.2 = .success ∧ r.1.uio = ⟨r.1.given.offset + r.1.given.resid, 0⟩
  /-- a write that has failed has left its `uio` alone -/
  efbig : ∀ r ∈ s.returned, r.2 = .efbig → r.1.write = true ∧ r.1.uio = r.1.given

/-- A write for which the count is too large returns `EFBIG`, and any other sets the sum. -/
def SemRw.WritesRight (s : SemRw) : SemRwEv → Prop
  | .turn i => ∀ c ∈ s.holder, c.write = true → 0 < c.uio.resid →
      c.uio = c.given ∧
        if 4294967295 < s.semsCount + c.given.resid then
          semRwStep s (.turn i) = some { s with holder := none, returned := s.returned ++ [(c, .efbig)] }
        else ∀ s', semRwStep s (.turn i) = some s' → s'.semsCount = s.semsCount + c.given.resid
  | _ => True

end Os161
