import Os161.Lib.Op

/-! `kern/lib/uio.c`. The memory of a transfer is what its iovecs still describe
and what they described before; a pointer into a kernel buffer is the list of the
bytes from there on, and the operations give its new contents back. -/

namespace Os161

/-- Error numbers of `kern/errno.h`. -/
inductive Errno where
  | enomem
  | einval
  | efault
  | enametoolong
  | ebusy
  | enotdir
  | eisdir
  | enoent
  | eexist
  | enospc
  | efbig
  | eio
  | enosys
  | enoexec
  | enodev
  | enxio
  | exdev
  deriving DecidableEq

/-- Conversion to `uint32_t`. -/
def u32 (x : ℤ) : ℕ := (x % 4294967296).toNat

inductive UioRw where
  | read
  | write
  deriving DecidableEq

/-- Where the bytes of a copy come from: the kernel buffer or the memory. -/
def UioRw.source (ptr mem : List UInt8) : UioRw → List UInt8
  | .read => ptr
  | .write => mem

/-- `uio_segflg`. User space comes with the outcomes of the copies to be made:
`false` is a fault, and with none left every copy succeeds. -/
inductive UioSeg where
  | sys
  | user (copies : List Bool)

structure Uio where
  /-- the bytes of each iovec, from `iov_base` on -/
  iov : List (List UInt8)
  /-- the bytes behind `iov_base`, of all iovecs so far -/
  passed : List UInt8
  offset : ℤ
  resid : ℕ
  seg : UioSeg
  rw : UioRw

/-- One copy: `memmove`, `copyin` or `copyout`. -/
def UioSeg.copy : UioSeg → Bool × UioSeg
  | .sys => (true, .sys)
  | .user [] => (true, .user [])
  | .user (c :: cs) => (c, .user cs)

/-- The bookkeeping after `size` bytes, which are now the memory's contents.
`uio_resid` is not looked at first, so it may wrap. -/
def Uio.advance (u : Uio) (moved : List UInt8) (seg : UioSeg) : Uio :=
  { u with
    passed := u.passed ++ moved
    offset := u.offset + moved.length
    resid := u32 (u.resid - moved.length)
    seg := seg }

/-- The loop of `uiomove`, over the iovecs. -/
def uiomoveLoop : List (List UInt8) → List UInt8 → Uio → Res Uio Errno (List UInt8)
  | [], ptr, u => if ptr = [] ∨ u.resid = 0 then .ok ptr { u with iov := [] } else .panic
  | buf :: rest, ptr, u =>
    if ptr = [] ∨ u.resid = 0 then .ok ptr { u with iov := buf :: rest }
    else if buf = [] then
      -- move to the next iovec, if there is one, and try again
      uiomoveLoop rest ptr u
    else
      let size := min buf.length ptr.length
      let moved := u.rw.source (ptr.take size) (buf.take size)
      match u.seg.copy with
      | (false, seg) => .err .efault { u with iov := buf :: rest, seg := seg }
      | (true, seg) =>
        let u := u.advance moved seg
        if ptr.length ≤ buf.length then .ok (moved ++ ptr.drop size) { u with iov := buf.drop size :: rest }
        else if u.resid = 0 then .ok (moved ++ ptr.drop size) { u with iov := [] :: rest }
        else
          -- this iovec is used up, and the loop goes on behind it
          match uiomoveLoop rest (ptr.drop size) u with
          | .ok ptr u => .ok (moved ++ ptr) u
          | .err e u => .err e u
          | .panic => .panic

def uiomove (ptr : List UInt8) : Op Uio Errno (List UInt8) := fun u => uiomoveLoop u.iov ptr u

/-- The loop of `uiomovezeros`, with at most `fuel` turns. -/
def uiomovezerosLoop : ℕ → ℕ → Op Uio Errno Unit
  | _, 0 => pure ()
  | 0, _ + 1 => Op.panic
  | fuel + 1, n + 1 => do
    let amt := min 16 (n + 1)
    let _ ← uiomove (List.replicate amt 0)
    uiomovezerosLoop fuel (n + 1 - amt)

def uiomovezeros (n : ℕ) : Op Uio Errno Unit := do
  let u ← Op.get
  Op.kassert (u.rw = .read)
  uiomovezerosLoop n n

/-- `uio_kinit` -/
def uioKinit (kbuf : List UInt8) (pos : ℤ) (rw : UioRw) : Uio where
  iov := [kbuf]
  passed := []
  offset := pos
  resid := kbuf.length
  seg := .sys
  rw := rw

/-- The contents of all the memory. -/
def Uio.memory (u : Uio) : List UInt8 := u.passed ++ u.iov.flatten

/-- Every copy will succeed. -/
def UioSeg.Good : UioSeg → Prop
  | .sys => True
  | .user copies => ∀ c ∈ copies, c = true

/-- A uio whose iovecs describe at least `uio_resid` bytes, all of which can be
copied. -/
structure Uio.Ready (u : Uio) : Prop where
  enough : u.resid ≤ u.iov.flatten.length
  word : u.resid < 4294967296
  good : u.seg.Good

instance UioSeg.decidableGood : (seg : UioSeg) → Decidable seg.Good
  | .sys => isTrue trivial
  | .user copies => inferInstanceAs (Decidable (∀ c ∈ copies, c = true))

instance Uio.decidableReady (u : Uio) : Decidable u.Ready :=
  decidable_of_iff (u.resid ≤ u.iov.flatten.length ∧ u.resid < 4294967296 ∧ u.seg.Good)
    ⟨fun h => ⟨h.1, h.2.1, h.2.2⟩, fun h => ⟨h.enough, h.word, h.good⟩⟩

end Os161
