import Os161.Spec.Volume

/-! Regular files as arrays of bytes: the abstract contents of a file, and what a
read or write through `sfs_io` is to do to them. -/

namespace Os161

namespace Vol

/-- The byte of a file at an offset. A hole has zeros. -/
def fbyte (V : Vol) (i k : ℕ) : UInt8 := (V.data i (k / 512)).byte (k % 512)

/-- The `n` bytes from offset `off` on. -/
def bytes (V : Vol) (i off n : ℕ) : List UInt8 := (List.range n).map fun k => V.fbyte i (off + k)

/-- The contents of a file are as long as its size. -/
def contents (V : Vol) (i : ℕ) : List UInt8 := V.bytes i 0 (V.block i).sfiSize

/-- The blocks of a regular file hold nothing behind its end. -/
def Tidy (V : Vol) : Prop :=
  ∀ i, V.Inode i → i ≠ 1 → ∀ k, (V.block i).sfiSize ≤ k → V.fbyte i k = 0

end Vol

/-- The bytes `new` written over an array from `off` on, with zeros in a gap; writing
no bytes does nothing. -/
def overlay (old : List UInt8) (off : ℕ) (new : List UInt8) : List UInt8 :=
  if new = [] then old
  else old.take off ++ List.replicate (off - old.length) 0 ++ new ++ old.drop (off + new.length)

/-- A call of `sfs_io`. -/
structure FileReq where
  ino : ℕ
  uio : Uio

/-- It is for an open regular file, and within the largest size of a file. -/
structure FileReq.Fits (s : Sfs) (r : FileReq) : Prop where
  loaded : s.vol.loaded r.ino
  file : (s.vol.block r.ino).sfiType = sfsTypeFile
  ready : r.uio.Ready
  start : 0 ≤ r.uio.offset
  short : r.uio.offset + r.uio.resid ≤ 143 * 512

instance FileReq.decidableFits (s : Sfs) (r : FileReq) : Decidable (r.Fits s) :=
  decidable_of_iff ((s.vnode r.ino).isSome ∧ (s.block r.ino).sfiType = sfsTypeFile ∧ r.uio.Ready ∧
      0 ≤ r.uio.offset ∧ r.uio.offset + r.uio.resid ≤ 143 * 512)
    ⟨fun h => ⟨h.1, h.2.1, h.2.2.1, h.2.2.2.1, h.2.2.2.2⟩, fun h => ⟨h.loaded, h.file, h.ready, h.start, h.short⟩⟩

/-- A run of calls that return 0. -/
def fileStep (s : Sfs) (r : FileReq) : Option Sfs :=
  match sfsIo r.ino (s, r.uio) with
  | .ok _ (t, _) => some t
  | _ => none

/-- The uio has moved on by the bytes `l`, which its memory now holds there. -/
structure Uio.Advanced (u u' : Uio) (l : List UInt8) : Prop where
  passed : u'.passed = u.passed ++ l
  rest : u'.iov.flatten = u.iov.flatten.drop l.length
  offset : u'.offset = u.offset + l.length
  resid : u'.resid + l.length = u.resid

/-- The call does to the contents of the files, and to the uio, what it would do to
arrays of bytes. Only a write can fail, when the volume is full. -/
def FileReq.Served (s : Sfs) (r : FileReq) : Prop :=
  match sfsIo r.ino (s, r.uio) with
  | .ok _ (t, u) =>
    match r.uio.rw with
    | .read =>
      r.uio.Advanced u (((s.vol.contents r.ino).drop r.uio.offset.toNat).take r.uio.resid) ∧
        ∀ j, s.vol.Inode j → t.vol.contents j = s.vol.contents j
    | .write =>
      r.uio.Advanced u (r.uio.iov.flatten.take r.uio.resid) ∧
        t.vol.contents r.ino =
          overlay (s.vol.contents r.ino) r.uio.offset.toNat (r.uio.iov.flatten.take r.uio.resid) ∧
        ∀ j, s.vol.Inode j → j ≠ r.ino → t.vol.contents j = s.vol.contents j
  | .err e (t, _) => e = .enospc ∧ r.uio.rw = .write ∧ t.Full
  | .panic => False

end Os161
