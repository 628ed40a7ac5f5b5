import Os161.Spec.SfsFile

/-! Writes through `sfs_io` of any offset and length, whose copies out of user space
may fault: how a request falls into parts, one for each block, and what has to be true
when it is given up in the middle. -/

namespace Os161

/-- The part of a request of `n` bytes at offset `off` that lies in a block begun before. -/
def headParts (off n : ℕ) : List ℕ := if off % 512 = 0 then [] else [min (512 - off % 512) n]

/-- The parts of `n` bytes from the beginning of a block on. -/
def tailParts (n : ℕ) : List ℕ := List.replicate (n / 512) 512 ++ if 0 < n % 512 then [n % 512] else []

/-- The lengths of the parts in which `sfs_io` moves `n` bytes at offset `off`. -/
def parts (off n : ℕ) : List ℕ := headParts off n ++ tailParts (n - (headParts off n).sum)

/-- Where a copy of `uiomove` is going to fault when these parts are moved in turn: the
length of the parts before, and the number of bytes of its own part that were copied. -/
def Uio.faultAt : List ℕ → Uio → Option (ℕ × ℕ)
  | [], _ => none
  | len :: rest, u =>
    match uiomove (List.replicate len 0) u with
    | .ok _ u' => (u'.faultAt rest).map fun x => (len + x.1, x.2)
    | .err _ u' => some (0, u.resid - u'.resid)
    | .panic => none

/-- A write to an open regular file of a volume whose disk offsets fit 32 bits. The
iovecs have the bytes; the offset is not negative. -/
structure FileReq.IsWrite (s : Sfs) (r : FileReq) (off : ℕ) : Prop where
  small : s.nblocks ≤ 8388608
  loaded : s.vol.loaded r.ino
  file : (s.vol.block r.ino).sfiType = sfsTypeFile
  write : r.uio.rw = .write
  enough : r.uio.resid ≤ r.uio.iov.flatten.length
  word : r.uio.resid < 4294967296
  offset : r.uio.offset = off

/-- `t` is `s` with the first bytes of the request, as many as `uio_resid` went down
by, in their place in the file. The size is at least where they end. -/
structure FileReq.Accounted (s : Sfs) (r : FileReq) (off : ℕ) (t : Sfs) (u : Uio) : Prop where
  resid : u.resid ≤ r.uio.resid
  stored : ∀ k < r.uio.resid - u.resid, t.vol.fbyte r.ino (off + k) = r.uio.iov.flatten.getD k 0
  others : ∀ k, k < off ∨ off + (r.uio.resid - u.resid) ≤ k → t.vol.fbyte r.ino k = s.vol.fbyte r.ino k
  size : (t.vol.block r.ino).sfiSize =
    if u.resid = r.uio.resid then (s.vol.block r.ino).sfiSize
    else max (s.vol.block r.ino).sfiSize (off + (r.uio.resid - u.resid))

/-- The bytes of a part that are copied before one of its copies faults are in the file already. -/
def FileReq.FaultsClean (s : Sfs) (r : FileReq) (off : ℕ) : Prop :=
  ∀ d m, r.uio.faultAt (parts off r.uio.resid) = some (d, m) →
    ∀ k < m, s.vol.fbyte r.ino (off + d + k) = r.uio.iov.flatten.getD (d + k) 0

/-- File blocks are numbered in 32 bits, and the number of the first one comes out as
that of a block that a file can have. -/
def WrapsLow (off : ℕ) : Prop := 2199023255552 ≤ off ∧ off / 512 % 4294967296 < 143

/-- Nothing of the 64-bit offset and end of the write is lost: it succeeds only within the
largest size of a file, and then the size is right; and if it goes beyond, no block before
that of its offset has changed. -/
structure FileReq.KeepsOffset (s : Sfs) (r : FileReq) (off : ℕ) : Prop where
  returns : sfsIo r.ino (s, r.uio) ≠ .panic
  success : ∀ t u, sfsIo r.ino (s, r.uio) = .ok () (t, u) → off + r.uio.resid ≤ 143 * 512 ∧
    (t.vol.block r.ino).sfiSize = max (s.vol.block r.ino).sfiSize (off + r.uio.resid)
  failure : ∀ e t u, sfsIo r.ino (s, r.uio) = .err e (t, u) → 143 * 512 < off + r.uio.resid →
    ∀ k, k / 512 < off / 512 → t.vol.fbyte r.ino k = s.vol.fbyte r.ino k

/-- The same for `sfs_truncate`, which is `sfs_itrunc`. -/
structure Sfs.KeepsLength (s : Sfs) (i len : ℕ) : Prop where
  returns : sfsItrunc i len s ≠ .panic
  success : ∀ t, sfsItrunc i len s = .ok () t → (t.vol.block i).sfiSize = len ∧
    ∀ k < len, t.vol.fbyte i k = s.vol.fbyte i k
  failure : ∀ e t, sfsItrunc i len s = .err e t → (t.vol.block i).sfiSize = (s.vol.block i).sfiSize ∧
    ∀ k, t.vol.fbyte i k = s.vol.fbyte i k

/-- The offsets and lengths for which a write is right. -/
def OffsetFits (off n : ℕ) : Prop :=
  (0 < n ∧ ¬ WrapsLow off) ∨ (n = 0 ∧ (off = 0 ∨ (off % 512 ≠ 0 ∧ 143 ≤ off / 512 % 4294967296)))

end Os161
