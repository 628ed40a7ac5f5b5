import Os161.Lib.Run

/-! Interprocessor interrupts to one target CPU: `ipi_send`, `ipi_tlbshootdown`
and `interprocessor_interrupt` of `kern/thread/thread.c`, and the dispatch in
`mainbus_interrupt`. The IPI line is a level that `lamebus_assert_ipi` sets and
`lamebus_clear_ipi` clears. Each store to shared data is a step; `c_ipi_lock` is
taken and dropped in steps of its own. -/

namespace Os161

variable {S M : Type*}

/-- `TLBSHOOTDOWN_MAX` -/
def tlbshootdownMax : ℕ := 16

def ipiPanic : Fin 32 := 0
def ipiOffline : Fin 32 := 1
def ipiUnidle : Fin 32 := 2
def ipiTlbshootdown : Fin 32 := 3

/-- What a sender asks for: `ipi_send` with a code, or `ipi_tlbshootdown` with a
mapping. -/
inductive IpiReq (M : Type*) where
  | code (c : Fin 32)
  | shootdown (m : M)
  deriving DecidableEq

def IpiReq.bit : IpiReq M → Fin 32
  | .code c => c
  | .shootdown _ => ipiTlbshootdown

inductive SenderPc (M : Type*) where
  | out
  /-- has `c_ipi_lock` -/
  | locked (r : IpiReq M)
  /-- has set the bit in `c_ipi_pending`, has not asserted the line -/
  | marked
  /-- has asserted the line -/
  | asserted
  deriving DecidableEq

inductive TargetPc where
  /-- not in the IPI branch of `mainbus_interrupt` -/
  | out
  /-- took the interrupt, wants `c_ipi_lock` -/
  | entered
  /-- has `c_ipi_lock`, has not read `c_ipi_pending` -/
  | locked
  /-- has read `c_ipi_pending` -/
  | handling (bits : BitVec 32)
  /-- has cleared `c_ipi_pending` -/
  | handled
  /-- back in `mainbus_interrupt`, about to call `lamebus_clear_ipi` -/
  | returned
  /-- in `cpu_halt` -/
  | halted
  deriving DecidableEq

/-- The target's half of `struct cpu`, its IPI line, and where everybody is. -/
structure Ipi (S M : Type*) where
  pending : BitVec 32
  shootdown : List M
  line : Bool
  /-- holder of `c_ipi_lock`: a sender, or the target (`none`) -/
  holder : Option (Option S)
  sender : S → SenderPc M
  target : TargetPc

def Ipi.init : Ipi S M :=
  { pending := 0, shootdown := [], line := false, holder := none, sender := fun _ => .out, target := .out }

inductive IpiEv (S M : Type*) where
  /-- `t` enters `ipi_send` or `ipi_tlbshootdown` and takes `c_ipi_lock` -/
  | lock (t : S) (r : IpiReq M)
  | mark (t : S)
  | assert (t : S)
  | unlock (t : S)
  /-- the target takes the interrupt -/
  | enter
  | targetLock
  | read
  | handle
  | targetUnlock
  | clear

variable [DecidableEq S]

/-- `c_shootdown` takes the mapping; `none` is the panic when the queue is full. -/
def enqueue (q : List M) : IpiReq M → Option (List M)
  | .code _ => some q
  | .shootdown m => if q.length = tlbshootdownMax then none else some (q ++ [m])

def ipiStep (s : Ipi S M) : IpiEv S M → Option (Ipi S M)
  | .lock t r =>
    match s.sender t, s.holder with
    | .out, none =>
      some { s with holder := some (some t), sender := Function.update s.sender t (.locked r) }
    | _, _ => none
  | .mark t =>
    match s.sender t with
    | .locked r => (enqueue s.shootdown r).map fun q =>
      { s with
        pending := s.pending ||| (1#32 <<< (r.bit : ℕ))
        shootdown := q
        sender := Function.update s.sender t .marked }
    | _ => none
  | .assert t =>
    match s.sender t with
    | .marked => some { s with line := true, sender := Function.update s.sender t .asserted }
    | _ => none
  | .unlock t =>
    match s.sender t with
    | .asserted => some { s with holder := none, sender := Function.update s.sender t .out }
    | _ => none
  | .enter => if s.target = .out ∧ s.line = true then some { s with target := .entered } else none
  | .targetLock =>
    if s.target = .entered ∧ s.holder = none then
      some { s with holder := some none, target := .locked }
    else none
  | .read => if s.target = .locked then some { s with target := .handling s.pending } else none
  | .handle =>
    match s.target with
    | .handling bits =>
      -- a panic or an offline request drops the lock and never comes back
      if bits.getLsbD ipiPanic ∨ bits.getLsbD ipiOffline then
        some { s with holder := none, target := .halted }
      else
        -- `vm_tlbshootdown` is the VM system's; the queue is empty after it
        some { s with
          shootdown := if bits.getLsbD ipiTlbshootdown then [] else s.shootdown
          pending := 0
          target := .handled }
    | _ => none
  | .targetUnlock =>
    if s.target = .handled then some { s with holder := none, target := .returned } else none
  | .clear => if s.target = .returned then some { s with line := false, target := .out } else none

end Os161
