import Os161.Spec.Mksfs
import Os161.Spec.Qsort

/-! `userland/sbin/sfsck`: the checker's view of the disk, its freemap, its block map and the
order of a directory. An assertion that fails, or an access outside of a buffer, is a panic;
`errx` and `err` end the program. The texts of the warnings are left out. -/

namespace Os161

/-- `blockusage_t` -/
inductive Blockusage where
  | superblock
  | freemapblock
  | inode
  | iblock
  | dirdata
  | data
  | pastend
  deriving DecidableEq

/-- Why the program ends before its end. -/
inductive FsckExit where
  /-- `err(1, ...)` in `disk.c` -/
  | io
  /-- "Not an sfs filesystem", `EXIT_FATAL` -/
  | notSfs
  /-- "Out of memory", `EXIT_FATAL` -/
  | noMemory
  /-- "inode %u wasn't found in my inode table", `EXIT_UNRECOV` -/
  | notFound (ino : ℕ)
  /-- an assertion about the type of an inode in `inode_visitdir` or `inode_addlink` -/
  | wrongType (ino : ℕ)
  /-- a walk or a search of the model has used up the turns that it was given -/
  | unbounded
  /-- a walk of the model goes through a directory for the second time -/
  | again (ino : ℕ)

structure Inodeinfo where
  ino : ℕ
  linkcount : ℕ
  visited : Bool
  type : ℕ
  deriving DecidableEq

/-- `struct sfs_direntry`, with all the bytes of its name. -/
structure Direntry where
  ino : ℕ
  name : List UInt8
  deriving DecidableEq

structure Fsck where
  disk : ℕ → Block
  /-- the size of the disk -/
  diskblocks : ℕ
  sb : Block
  freemapdata : List UInt8
  tofreedata : List UInt8
  blocksinuse : ℕ
  inodes : List Inodeinfo
  maxinodes : ℕ
  inodesSorted : Bool
  uniquecounter : ℕ
  badness : ℕ
  /-- whether the next calls of `malloc` succeed; those after them do -/
  memory : List Bool
  /-- the bytes that are found in memory behind a buffer of directory entries -/
  behind : List UInt8
  /-- the blocks that have been written -/
  written : List ℕ
  /-- the directories whose entries this pass has gone through -/
  expanded : List ℕ

abbrev FsckM := Op Fsck FsckExit

namespace Fsck

/-- The program is started on a disk. -/
def start (disk : ℕ → Block) (diskblocks : ℕ) (memory : List Bool) (behind : List UInt8) : Fsck where
  disk := disk
  diskblocks := diskblocks
  sb := Bytes.zero
  freemapdata := []
  tofreedata := []
  blocksinuse := 0
  inodes := []
  maxinodes := 0
  inodesSorted := false
  uniquecounter := 0
  badness := 0
  memory := memory
  behind := behind
  written := []
  expanded := []

/-! ### `main.c` and `utils.c` -/

/-- `EXIT_RECOV` -/
def exitRecov : ℕ := 1

/-- `EXIT_UNRECOV` -/
def exitUnrecov : ℕ := 2

def setbadness (code : ℕ) : FsckM Unit :=
  Op.modify fun s => { s with badness := if s.badness < code then code else s.badness }

def uniqueid : FsckM ℕ := do
  let s ← Op.get
  Op.set { s with uniquecounter := (s.uniquecounter + 1) % 4294967296 }
  pure s.uniquecounter

/-- The digits of a 32-bit number. -/
def decimalDigits : ℕ → ℕ → List UInt8
  | 0, _ => []
  | places + 1, n => (if n < 10 then [] else decimalDigits places (n / 10)) ++ [UInt8.ofNat (48 + n % 10)]

def decimal (n : ℕ) : List UInt8 := decimalDigits 10 n

/-- "FSCK.%lu.%lu" -/
def fsckName (ino id : ℕ) : List UInt8 := [70, 83, 67, 75, 46] ++ decimal ino ++ [46] ++ decimal id

/-- A string is written into a name field: what is behind its null stays. -/
def putName (name str : List UInt8) : List UInt8 := str ++ [0] ++ name.drop (str.length + 1)

/-! ### `disk.c` -/

def diskread (block : ℕ) : FsckM Block := do
  let s ← Op.get
  if diskSeek block < s.diskblocks then pure (s.disk (diskSeek block)) else Op.fail .io

def diskwrite (data : Block) (block : ℕ) : FsckM Unit := do
  let s ← Op.get
  if diskSeek block < s.diskblocks then
    Op.set { s with disk := Function.update s.disk (diskSeek block) data, written := s.written ++ [block] }
  else Op.fail .io

/-! ### `sb.c` -/

/-- `sb_totalblocks` -/
def nblocks (s : Fsck) : ℕ := s.sb.sbNblocks

/-! ### `freemap.c` -/

/-- The maps have a byte for every block that they are asked for. -/
def freemapBlockinuse (block : ℕ) (how : Blockusage) : FsckM Unit := do
  let s ← Op.get
  Op.kassert (block / 8 < s.freemapdata.length ∧ block / 8 < s.tofreedata.length)
  let mask := bitMask (block % 8)
  if s.tofreedata.getD (block / 8) 0 &&& mask ≠ 0 then
    Op.modify fun s => { s with tofreedata := clearBit s.tofreedata block }
  else pure ()
  if s.freemapdata.getD (block / 8) 0 &&& mask ≠ 0 then setbadness exitUnrecov else pure ()
  Op.modify fun s => { s with freemapdata := setBit s.freemapdata block }
  if how ≠ .pastend then Op.modify fun s => { s with blocksinuse := s.blocksinuse + 1 } else pure ()

def freemapBlockfree (block : ℕ) : FsckM Unit := do
  let s ← Op.get
  Op.kassert (block / 8 < s.freemapdata.length ∧ block / 8 < s.tofreedata.length)
  let mask := bitMask (block % 8)
  if s.tofreedata.getD (block / 8) 0 &&& mask ≠ 0 then pure ()
  else if s.freemapdata.getD (block / 8) 0 &&& mask ≠ 0 then pure ()
  else Op.modify fun s => { s with tofreedata := setBit s.tofreedata block }

def countbits (val : UInt8) : ℕ := ((List.range 8).filter (byteBit val)).length

/-- What the scan of a freemap block keeps. -/
structure FreemapScan where
  actual : Block
  bchanged : Bool
  alloccount : ℕ
  freecount : ℕ

/-- One byte of a freemap block. -/
def freemapByte (expected tofree : UInt8) (j : ℕ) (r : FreemapScan) : FreemapScan :=
  let actual := r.actual.byte j
  if actual = expected then r
  else if actual = expected ||| tofree then { r with actual := r.actual.splice j [expected], bchanged := true }
  else
    -- free the ones that are being freed, without a report
    let actual := actual &&& ~~~tofree
    let short := if actual &&& expected ≠ expected then countbits (expected &&& ~~~actual) else 0
    let extra := if actual &&& expected ≠ actual then countbits (actual &&& ~~~expected) else 0
    ⟨r.actual.splice j [expected], true, r.alloccount + short, r.freecount + extra⟩

/-- Block `i` of the freemap; the counts go on from block to block. -/
def freemapCheckBlock (counts : ℕ × ℕ) (i : ℕ) : FsckM (ℕ × ℕ) := do
  let actual ← diskread (2 + i)
  let s ← Op.get
  let r ← (List.range 512).foldlM (fun r j => do
    let expected := s.freemapdata.getD (i * 512 + j) 0
    let tofree := s.tofreedata.getD (i * 512 + j) 0
    Op.kassert (expected &&& tofree = 0)
    pure (freemapByte expected tofree j r)) (⟨actual, false, counts.1, counts.2⟩ : FreemapScan)
  if r.bchanged = true then diskwrite r.actual (2 + i) else pure ()
  pure (r.alloccount, r.freecount)

def freemapCheck : FsckM Unit := do
  let s ← Op.get
  let counts ← (List.range (sfsFreemapblocks s.nblocks)).foldlM freemapCheckBlock (0, 0)
  if 0 < counts.1 then setbadness exitRecov else pure ()
  if 0 < counts.2 then setbadness exitRecov else pure ()

/-! ### `sfs.c` -/

/-- `bmap`, with one indirect block. -/
def bmap (sfi : Block) (fileblock : ℕ) : FsckM ℕ :=
  if fileblock < 15 then pure (sfi.sfiDirect fileblock)
  else if fileblock < 143 then
    if sfi.sfiIndirect = 0 then pure 0
    else do
      let entries ← diskread sfi.sfiIndirect
      pure (entries.idEntry (fileblock - 15))
  else pure 0

end Fsck

namespace Direntry

def bytes (d : Direntry) : List UInt8 := toBe 4 d.ino ++ d.name

/-- An entry of zeros. -/
def empty : Direntry := ⟨0, List.replicate 60 0⟩

/-- `sfd_ino` becomes `SFS_NOINO` and the name empty. -/
def cleared (d : Direntry) : Direntry := ⟨0, d.name.set 0 0⟩

/-- `strcmp` and the like see the name of entry `i` up to its null, wherever that is. -/
def str (behind : List UInt8) (d : List Direntry) (i : ℕ) : List UInt8 :=
  (((d.drop i).flatMap bytes ++ behind).drop 4).takeWhile (· ≠ 0)

end Direntry

namespace Fsck

/-- The sign of the first difference. -/
def strcmp : List UInt8 → List UInt8 → ℤ
  | [], [] => 0
  | [], _ :: _ => -1
  | _ :: _, [] => 1
  | a :: as, b :: bs => if a = b then strcmp as bs else if b < a then 1 else -1

/-- Entries without an inode come last. -/
def dirsortfunc (behind : List UInt8) (d : List Direntry) (a b : ℕ) : ℤ :=
  let ad := d.getD a .empty
  let bd := d.getD b .empty
  if ad.ino = 0 ∧ bd.ino = 0 then 0
  else if ad.ino = 0 then 1
  else if bd.ino = 0 then -1
  else strcmp (Direntry.str behind d a) (Direntry.str behind d b)

/-- The permutation that sorts the first `nd` entries. -/
def sfsdirSort (d : List Direntry) (nd : ℕ) : FsckM (List ℕ) := do
  let s ← Op.get
  match qsort (dirsortfunc s.behind d) (List.range nd) with
  | none => Op.panic
  | some vector => pure vector

def dirEntry (d : List Direntry) (i : ℕ) : FsckM Direntry :=
  match d[i]? with
  | none => Op.panic
  | some e => pure e

/-! ### What the two maps are for -/

inductive FreemapCall where
  | inuse (block : ℕ) (how : Blockusage)
  | free (block : ℕ)

def FreemapCall.block : FreemapCall → ℕ
  | .inuse block _ => block
  | .free block => block

def freemapCall : FreemapCall → FsckM Unit
  | .inuse block how => freemapBlockinuse block how
  | .free block => freemapBlockfree block

def freemapCalls (calls : List FreemapCall) : FsckM Unit := calls.foldlM (fun _ call => freemapCall call) ()

/-- The maps have a byte for the block. -/
abbrev InMaps (s : Fsck) (block : ℕ) : Prop := block / 8 < s.freemapdata.length ∧ block / 8 < s.tofreedata.length

/-- The maps have a bit for every block of the volume. -/
def MapsCover (s : Fsck) : Prop := ∀ block < s.nblocks, s.InMaps block

/-- The maps as `freemap_setup` allocates them. -/
structure NewMaps (s : Fsck) : Prop where
  inuse : s.freemapdata = List.replicate (sfsFreemapblocks s.nblocks * 512) 0
  tofree : s.tofreedata = List.replicate (sfsFreemapblocks s.nblocks * 512) 0

/-- Which calls have been made is all that the maps depend on, and they do not overlap. -/
structure MarkedBy (s : Fsck) (calls : List FreemapCall) : Prop where
  inuse : ∀ b, bitOf s.freemapdata b = true ↔ ∃ how, .inuse b how ∈ calls
  tofree : ∀ b, bitOf s.tofreedata b = true ↔ .free b ∈ calls ∧ ∀ how, .inuse b how ∉ calls
  apart : ∀ b, ¬ (bitOf s.freemapdata b = true ∧ bitOf s.tofreedata b = true)

/-- The freemap on the disk is the map of the blocks in use. -/
def FreemapWritten (s : Fsck) : Prop :=
  ∀ i < sfsFreemapblocks s.nblocks, ∀ j < 512, (s.disk (2 + i)).byte j = s.freemapdata.getD (i * 512 + j) 0

end Fsck

end Os161
