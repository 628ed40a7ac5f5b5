import Os161.Spec.Sfsck

/-! From the passes of `sfsck`: the blocks of an inode, and duplicate names in a directory. -/

namespace Os161

namespace Fsck

/-! ### `pass1.c`: the blocks of an inode -/

/-- `SFS_ROUNDUP`, in 32 bits -/
def roundup (a b : ℕ) : ℕ := (a + b - 1) % 4294967296 / b * b

/-- `struct ibstate`; the inode number and the usage are given to each function. -/
structure Ibstate where
  curfileblock : ℕ
  fileblocks : ℕ
  volblocks : ℕ
  pasteofcount : ℕ

/-- `B_DIRDATA` or `B_DATA` -/
def usagetype (isdir : Bool) : Blockusage := if isdir = true then .dirdata else .data

/-- What is done about the pointer to a data block: whether it is kept. `ibs` has the
position of the block in the file. -/
def checkPointer (isdir : Bool) (ibs : Ibstate) (pointer : ℕ) : FsckM (Bool × Ibstate) :=
  if ibs.volblocks ≤ pointer then do
    setbadness exitRecov
    pure (false, ibs)
  else if pointer ≠ 0 then
    if ibs.curfileblock < ibs.fileblocks then do
      freemapBlockinuse pointer (usagetype isdir)
      pure (true, ibs)
    else do
      setbadness exitRecov
      freemapBlockfree pointer
      pure (false, { ibs with pasteofcount := ibs.pasteofcount + 1 })
  else pure (true, ibs)

/-- A block of pointers while it is gone through. -/
structure Pointers where
  block : Block
  changed : Bool
  ibs : Ibstate

/-- Pointer `k` of the block, where `get` and `put` say how a pointer is read and set. -/
def checkSlot (get : Block → ℕ → ℕ) (put : Block → ℕ → ℕ → Block) (isdir : Bool) (p : Pointers) (k : ℕ) :
    FsckM Pointers := do
  let (keep, ibs) ← checkPointer isdir p.ibs (get p.block k)
  let ibs := { ibs with curfileblock := ibs.curfileblock + 1 }
  if keep = true then pure { p with ibs := ibs }
  else pure ⟨put p.block k 0, true, ibs⟩

/-- Direct pointer `k` of the inode. -/
def checkDirect (isdir : Bool) : Pointers → ℕ → FsckM Pointers := checkSlot Bytes.sfiDirect Bytes.setSfiDirect isdir

/-- Entry `j` of the indirect block. -/
def checkEntry (isdir : Bool) : Pointers → ℕ → FsckM Pointers := checkSlot Bytes.idEntry Bytes.setIdEntry isdir

/-- `check_indirect_block` at level 1: the pointer that is left, whether it was changed, and
the state behind the blocks that are covered. -/
def checkIndirectBlock (isdir : Bool) (ibs : Ibstate) (ientry : ℕ) : FsckM (ℕ × Bool × Ibstate) :=
  if 0 < ientry ∧ ientry < ibs.volblocks then do
    let entries ← diskread ientry
    freemapBlockinuse ientry .iblock
    let p ← (List.range 128).foldlM (checkEntry isdir) (⟨entries, false, ibs⟩ : Pointers)
    if (List.range 128).all (fun j => p.block.idEntry j = 0) = true then do
      setbadness exitRecov
      freemapBlockfree ientry
      pure (0, true, p.ibs)
    else do
      if p.changed = true then diskwrite p.block ientry else pure ()
      pure (ientry, false, p.ibs)
  else do
    let ibs' := { ibs with curfileblock := ibs.curfileblock + 128 }
    if ibs.volblocks ≤ ientry then do
      setbadness exitRecov
      pure (0, true, ibs')
    else pure (ientry, false, ibs')

/-- The inode that is left, and whether it was changed. -/
def checkInodeBlocks (sfi : Block) (isdir : Bool) : FsckM (Block × Bool) := do
  let s ← Op.get
  let size := roundup sfi.sfiSize 512
  let p ← (List.range 15).foldlM (checkDirect isdir) (⟨sfi, false, ⟨0, size / 512, s.nblocks, 0⟩⟩ : Pointers)
  let (ientry, ichanged, ibs) ← checkIndirectBlock isdir p.ibs p.block.sfiIndirect
  let sfi := if ichanged = true then p.block.setSfiIndirect ientry else p.block
  if 0 < ibs.pasteofcount then setbadness exitRecov else pure ()
  pure (sfi, p.changed || ichanged)

/-! ### `pass1.c`: inodes and directories -/

/-- The directory entries in memory, and whether they have been changed. -/
structure Entries where
  d : List Direntry
  changed : Bool

/-! ### `pass2.c` -/

/-- Two entries that are next to each other in the sorted order. -/
def mergePair (r : Entries) (pair : ℕ × ℕ) : FsckM Entries := do
  let s ← Op.get
  let d1 ← dirEntry r.d pair.1
  let d2 ← dirEntry r.d pair.2
  Op.kassert (pair.1 ≠ pair.2)
  if d1.ino = 0 ∨ d2.ino = 0 then pure r
  else if Direntry.str s.behind r.d pair.1 = Direntry.str s.behind r.d pair.2 then do
    if d1.ino = d2.ino then do
      setbadness exitRecov
      pure ⟨r.d.set pair.1 d1.cleared, true⟩
    else do
      let id ← uniqueid
      setbadness exitRecov
      pure ⟨r.d.set pair.1 ⟨d1.ino, putName d1.name (fsckName d1.ino id)⟩, true⟩
  else pure r

/-- The check for duplicate names among the first `nd` entries. -/
def checkDuplicates (d : List Direntry) (nd : ℕ) : FsckM Entries := do
  let sortvector ← sfsdirSort d nd
  (sortvector.zip sortvector.tail).foldlM mergePair ⟨d, false⟩

/-! ### What the check of an inode's blocks is for -/

/-- Entry `j` of the indirect block, 0 where there is none. -/
def entryOf (disk : ℕ → Block) (ientry j : ℕ) : ℕ := if ientry = 0 then 0 else (disk (diskSeek ientry)).idEntry j

/-- The block that holds block `k` of the file, as `sfsck` finds it; 0 where there is none. -/
def filePointer (disk : ℕ → Block) (sfi : Block) (k : ℕ) : ℕ :=
  if k < 15 then sfi.sfiDirect k else if k < 143 then entryOf disk sfi.sfiIndirect (k - 15) else 0

/-- The disk does not end before the indirect block. -/
def Readable (s : Fsck) (ientry : ℕ) : Prop := ientry = 0 ∨ diskSeek ientry < s.diskblocks

/-- Every block pointer of the inode is inside the volume. -/
structure PointersInside (s : Fsck) (sfi : Block) : Prop where
  indirect : sfi.sfiIndirect < s.nblocks
  data : ∀ k, filePointer s.disk sfi k < s.nblocks

/-- The check does not lose a block of the file that starts before the end of the file, be
it by its own pointer or by that of the indirect block. -/
def KeepsLiveData (s : Fsck) (sfi : Block) (isdir : Bool) : Prop :=
  (checkInodeBlocks sfi isdir).wp False
    (fun r t => ∀ k, k * 512 < sfi.sfiSize → filePointer s.disk sfi k ≠ 0 →
      filePointer t.disk r.1 k = filePointer s.disk sfi k)
    (fun e _ => e = .io) s

/-! ### What the check for duplicate names is for -/

/-- The name up to its null. -/
def cname (e : Direntry) : List UInt8 := e.name.takeWhile (· ≠ 0)

/-- Entry `i` of the directory. -/
def entryAt (d : List Direntry) (i : ℕ) : Direntry := d.getD i .empty

/-- Both are in use and have one name. -/
abbrev SameName (e e' : Direntry) : Prop := e.ino ≠ 0 ∧ e'.ino ≠ 0 ∧ cname e = cname e'

/-- Every name in use has a null, as pass 1 leaves them. -/
def Terminated (d : List Direntry) : Prop := ∀ i < d.length, (entryAt d i).ino ≠ 0 → 0 ∈ (entryAt d i).name

/-- No two of the first `nd` entries that are in use have one name, and each entry that was
in use has kept its inode or was a copy of one that has. -/
structure DuplicatesResolved (nd : ℕ) (d d' : List Direntry) : Prop where
  unique : ∀ i < nd, ∀ j < nd, i ≠ j → ¬ SameName (entryAt d' i) (entryAt d' j)
  kept : ∀ i < nd, (entryAt d i).ino ≠ 0 → ∃ j < nd,
    (j = i ∨ SameName (entryAt d j) (entryAt d i) ∧ (entryAt d j).ino = (entryAt d i).ino) ∧
    (entryAt d' j).ino = (entryAt d i).ino

/-- The check ends, with the directory resolved. -/
abbrev ResolvesDuplicates (s : Fsck) (nd : ℕ) (d : List Direntry) : Prop :=
  (checkDuplicates d nd).wp False (fun r _ => DuplicatesResolved nd d r.d) (fun _ _ => False) s

/-- The names that are made up for the entries in the order `v`, the first of them with the
number `id`: each time two neighbours have one name and different inodes. -/
def generatedNames (d : List Direntry) (id : ℕ) : List ℕ → List (List UInt8)
  | [] => []
  | [_] => []
  | a :: b :: v =>
    if SameName (entryAt d a) (entryAt d b) ∧ (entryAt d a).ino ≠ (entryAt d b).ino then
      fsckName (entryAt d a).ino id :: generatedNames d ((id + 1) % 4294967296) (b :: v)
    else generatedNames d id (b :: v)

/-- No name that would be made up is there already. -/
def GeneratedFresh (s : Fsck) (nd : ℕ) (d : List Direntry) : Prop :=
  ∀ v, qsort (dirsortfunc s.behind d) (List.range nd) = some v →
    ∀ i < nd, (entryAt d i).ino ≠ 0 → cname (entryAt d i) ∉ generatedNames d s.uniquecounter v

end Fsck

end Os161
