import Os161.Spec.Uio

/-! What `uiomove` and `uiomovezeros` are to do with any uio that describes enough memory,
for any number of bytes and with copies that may fail. -/

namespace Os161

namespace Uio

variable (u : Uio)

/-- From `u` to `u'` the bytes `l` were moved, and `u'` describes what is left. -/
structure Carried (u' : Uio) (l : List UInt8) : Prop where
  passed : u'.passed = u.passed ++ l
  rest : u'.iov.flatten = u.iov.flatten.drop l.length
  offset : u'.offset = u.offset + l.length
  resid : u'.resid + l.length = u.resid
  rw : u'.rw = u.rw

/-- The bytes that pass when the first `m` of the buffer and of the memory change places. -/
def carries (ptr : List UInt8) (m : ℕ) : List UInt8 := u.rw.source (ptr.take m) (u.iov.flatten.take m)

/-- A call that moves `min n uio_resid` bytes, or stops at the iovec whose copy failed. -/
def MovesRight (ptr : List UInt8) : Prop :=
  (uiomove ptr).wp False
    (fun ptr' u' => u.Carried u' (u.carries ptr (min ptr.length u.resid)) ∧
      ptr' = u.carries ptr (min ptr.length u.resid) ++ ptr.drop (min ptr.length u.resid))
    (fun e u' => e = .efault ∧ ¬ u.seg.Good ∧ ∃ k, u'.iov = u.iov.drop k ∧
      (u.iov.take k).flatten.length < min ptr.length u.resid ∧
      u.Carried u' (u.carries ptr (u.iov.take k).flatten.length)) u

/-- The same for `n` zeros, which go out in pieces. -/
def ZerosRight (n : ℕ) : Prop :=
  (uiomovezeros n).wp False
    (fun _ u' => u.Carried u' (List.replicate (min n u.resid) 0))
    (fun e u' => e = .efault ∧ ¬ u.seg.Good ∧ ∃ m < min n u.resid, u.Carried u' (List.replicate m 0)) u

/-- Both, in kernel and in user space and whichever copies fail. `uiomovezeros` is for reads. -/
def Right (ptr : List UInt8) : Prop :=
  ∀ seg, ({ u with seg := seg } : Uio).MovesRight ptr ∧
    (u.rw = .read → ({ u with seg := seg } : Uio).ZerosRight ptr.length)

/-- `uio_resid` ends where an iovec does. -/
def EndsAtIovec : Prop := ∃ k, (u.iov.take k).flatten.length = u.resid

end Uio

end Os161
