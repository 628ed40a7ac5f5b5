import Os161.Spec.Sfs

/-! The blocks of one file as `sfs_bmap` and `sfs_itrunc` find them: through the inode in
memory, and through the indirect block as it is on the disk. -/

namespace Os161

namespace Sfs

/-- `sv_i` of a loaded vnode. -/
def inode (s : Sfs) (ino : ℕ) : Block :=
  match s.vnode ino with
  | some sv => sv.i
  | none => Bytes.zero

/-- The indirect block of a file, as it is on the disk. -/
def idblock (s : Sfs) (ino : ℕ) : Block := s.dev.sector (s.inode ino).sfiIndirect

/-- The disk block of a file block, 0 for a hole. -/
def fileMap (s : Sfs) (ino fb : ℕ) : ℕ :=
  if fb < 15 then (s.inode ino).sfiDirect fb
  else if (s.inode ino).sfiIndirect = 0 then 0
  else (s.idblock ino).idEntry (fb - 15)

/-- From `s` to `t` the file lost the blocks from index `n` on, and only these. -/
structure TruncatedTo (s t : Sfs) (ino n : ℕ) : Prop where
  gone : ∀ fb < 143, n ≤ fb → t.fileMap ino fb = 0
  empty : (∀ fb < 143, 15 ≤ fb → t.fileMap ino fb = 0) → (t.inode ino).sfiIndirect = 0
  kept : ∀ fb < 143, fb < n → t.fileMap ino fb = s.fileMap ino fb

/-- The block is reachable from the inode. -/
def Reaches (s : Sfs) (ino b : ℕ) : Prop :=
  b ≠ 0 ∧ (b = (s.inode ino).sfiIndirect ∨ ∃ fb < 143, b = s.fileMap ino fb)

/-- The blocks of the file are in use, and no two of its pointers name the same block. -/
structure OwnsBlocks (s : Sfs) (ino : ℕ) : Prop where
  marked : ∀ b, s.Reaches ino b → s.freemap b = true
  unique : ∀ fb < 143, ∀ fb' < 143, s.fileMap ino fb ≠ 0 → s.fileMap ino fb = s.fileMap ino fb' → fb = fb'
  notIndirect : ∀ fb < 143, s.fileMap ino fb ≠ 0 → s.fileMap ino fb ≠ (s.inode ino).sfiIndirect

end Sfs

/-- The disk operation after the next one that succeeds meets a media error. -/
def Lhd.mediaNext (d : Lhd) : Prop := (d.outcomes.dropWhile (· = .media)).tail.head? = some .media

instance Lhd.decidableMediaNext (d : Lhd) : Decidable d.mediaNext :=
  inferInstanceAs (Decidable ((d.outcomes.dropWhile (· = .media)).tail.head? = some .media))

/-- The block behind the new end that the loop over the indirect block passes over. -/
def KeepsOne (s : Sfs) (ino n : ℕ) : Prop := 15 ≤ n ∧ n < 143 ∧ s.fileMap ino n ≠ 0

/-- The indirect block has no entry, and is not looked at. -/
def KeepsEmpty (s : Sfs) (ino n : ℕ) : Prop :=
  142 ≤ n ∧ (s.inode ino).sfiIndirect ≠ 0 ∧ ∀ fb < 143, 15 ≤ fb → s.fileMap ino fb = 0

/-- Some entries of the indirect block are cleared and some are not, and the disk fails
to write it. -/
def LosesCut (s : Sfs) (ino n : ℕ) : Prop :=
  n < 142 ∧ (∃ fb < 143, n < fb ∧ 15 ≤ fb ∧ s.fileMap ino fb ≠ 0) ∧ (∃ fb ≤ n, 15 ≤ fb ∧ s.fileMap ino fb ≠ 0) ∧
    s.dev.mediaNext

end Os161
