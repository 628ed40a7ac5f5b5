import Os161.Lib.Bits
import Os161.Spec.Sfs

/-! `kern/lib/bitmap.c` byte by byte, and under it what `sfs_fsops.c` and
`sfs_balloc.c` do with the free block bitmap: `sfs_domount` reads it from the disk
and `sfs_freemapio` writes it back. -/

namespace Os161

/-! ### `bitmap.c` -/

/-- `struct bitmap` -/
structure Bitmap where
  nbits : ℕ
  v : List UInt8

namespace Bitmap

/-- `DIVROUNDUP(nbits, BITS_PER_WORD)` -/
def words (nbits : ℕ) : ℕ := (nbits + 7) % 4294967296 / 8

/-- The bitmap that `bitmap_create` makes when it gets its memory. Leftover bits at the
end are marked in use. -/
def create (nbits : ℕ) : Bitmap where
  nbits := nbits
  v := (List.range (8 * words nbits - nbits)).foldl (fun v j => setBit v (nbits + j))
    (List.replicate (words nbits) 0)

/-- The bits of a word that is not full. -/
def allocWord (ix : ℕ) : ℕ → ℕ → Op Bitmap Errno ℕ
  | 0, _ => Op.panic
  | fuel + 1, offset => do
    let b ← Op.get
    if b.v.getD ix 0 &&& bitMask offset = 0 then do
      Op.set { b with v := b.v.modify ix (· ||| bitMask offset) }
      Op.kassert (ix * 8 + offset < b.nbits)
      pure (ix * 8 + offset)
    else allocWord ix fuel (offset + 1)

def allocFrom : ℕ → ℕ → Op Bitmap Errno ℕ
  | 0, _ => Op.fail .enospc
  | fuel + 1, ix => do
    let b ← Op.get
    if b.v.getD ix 0 ≠ 255 then allocWord ix 8 0 else allocFrom fuel (ix + 1)

def alloc : Op Bitmap Errno ℕ := do
  let b ← Op.get
  allocFrom (words b.nbits) 0

def unmark (index : ℕ) : Op Bitmap Errno Unit := do
  let b ← Op.get
  Op.kassert (index < b.nbits)
  Op.kassert (b.v.getD (index / 8) 0 &&& bitMask (index % 8) ≠ 0)
  Op.set { b with v := clearBit b.v index }

/-- `bitmap_isset` -/
def isset (b : Bitmap) (index : ℕ) : Prop := b.v.getD (index / 8) 0 &&& bitMask (index % 8) ≠ 0

end Bitmap

/-! ### `sfs_fsops.c` -/

/-- `SFS_MAGIC` -/
def sfsMagic : ℕ := 0xabadf001

namespace Bytes

/-! The fields of `struct sfs_superblock`. -/

def sbMagic (b : Block) : ℕ := b.num 4 0
def sbNblocks (b : Block) : ℕ := b.num 4 4

end Bytes

/-- `struct sfs_fs` with the bytes of its bitmap, before any vnode is loaded, with the
device and the outcomes of the `kmalloc` calls to come. -/
structure SfsFs where
  sb : Block
  superdirty : Bool
  freemap : Bitmap
  freemapdirty : Bool
  dev : Lhd
  kmem : List Bool

namespace SfsFs

variable {α : Type}

def nblocks (s : SfsFs) : ℕ := s.sb.sbNblocks

def onDev (x : Op Lhd Errno α) : Op SfsFs Errno α := x.zoom SfsFs.dev (fun s d => { s with dev := d })

def onMap (x : Op Bitmap Errno α) : Op SfsFs Errno α := x.zoom SfsFs.freemap (fun s b => { s with freemap := b })

def kmalloc : Op SfsFs Errno Unit := do
  let s ← Op.get
  match s.kmem with
  | [] => pure ()
  | okay :: rest =>
    Op.set { s with kmem := rest }
    if okay = true then pure () else Op.fail .enomem

/-- One turn of the loop of `sfs_freemapio`. -/
def freemapBlock (rw : UioRw) (j : ℕ) : Op SfsFs Errno Unit := do
  let s ← Op.get
  let ptr : Block := Bytes.ofList ((s.freemap.v.drop (j * 512)).take 512)
  match rw with
  | .read => do
    let data ← onDev (sfsReadblock (2 + j) ptr)
    onMap (Op.modify fun b => { b with v := overwrite b.v (j * 512) data.toList })
  | .write => onDev (sfsWriteblock (2 + j) ptr)

def freemapio (rw : UioRw) : Op SfsFs Errno Unit := do
  let s ← Op.get
  (List.range (sfsFreemapblocks s.nblocks)).foldlM (fun _ j => freemapBlock rw j) ()

/-- `sfs_fs_create`: the object and its vnode table are allocated. -/
def fsCreate : Op SfsFs Errno Unit := do
  kmalloc
  Op.modify fun s => { s with superdirty := false, freemapdirty := false }
  kmalloc

/-- `bitmap_create` for the freemap, which needs memory twice. -/
def mapCreate : Op SfsFs Errno Unit := do
  kmalloc
  kmalloc
  Op.modify fun s => { s with freemap := Bitmap.create (sfsFreemapbits s.nblocks) }

/-- `sfs_domount`, on a device with sectors of 512 bytes. A volume that is larger than
the device gives a warning only. -/
def domount : Op SfsFs Errno Unit := do
  fsCreate
  let sb ← onDev (sfsReadblock 0 Bytes.zero)
  if sb.sbMagic ≠ sfsMagic then Op.fail .einval
  else do
    -- the volume name ends with a null
    Op.modify fun s => { s with sb := sb.splice 39 [0] }
    mapCreate
    freemapio .read

/-! ### `sfs_balloc.c` -/

def balloc : Op SfsFs Errno ℕ := do
  let diskblock ← onMap Bitmap.alloc
  Op.modify fun s => { s with freemapdirty := true }
  let s ← Op.get
  Op.kassert (diskblock < s.nblocks)
  match ← Op.attempt (onDev (sfsWriteblock diskblock Bytes.zero)) with
  | .ok _ => pure diskblock
  | .error e =>
    onMap (Bitmap.unmark diskblock)
    Op.fail e

def bfree (diskblock : ℕ) : Op SfsFs Errno Unit := do
  onMap (Bitmap.unmark diskblock)
  Op.modify fun s => { s with freemapdirty := true }

end SfsFs

/-! ### Runs -/

/-- The blocks that are not for files: the superblock, the root inode, the freemap, and
what lies behind the end. -/
def Reserved (n b : ℕ) : Prop := b = 0 ∨ b = 1 ∨ (2 ≤ b ∧ b < 2 + sfsFreemapblocks n) ∨ n ≤ b

/-- A volume, and the blocks that `sfs_balloc` returned and that are still allocated. -/
structure BallocRun where
  fs : SfsFs
  live : List ℕ

inductive BallocEv where
  | balloc
  | bfree (b : ℕ)

def ballocStep (s : BallocRun) : BallocEv → Option BallocRun
  | .balloc =>
    match SfsFs.balloc s.fs with
    | .ok b fs => some ⟨fs, b :: s.live⟩
    | .err _ fs => some ⟨fs, s.live⟩
    | .panic => none
  | .bfree b =>
    if b ∈ s.live then
      match SfsFs.bfree b s.fs with
      | .ok _ fs => some ⟨fs, s.live.erase b⟩
      | .err _ fs => some ⟨fs, s.live⟩
      | .panic => none
    else none

/-- The bitmap is right, and `sfs_balloc` gives a block that is free, or there is none. -/
structure BallocRun.Right (n : ℕ) (s : BallocRun) : Prop where
  used : ∀ k < sfsFreemapbits n, s.fs.freemap.isset k ↔ Reserved n k ∨ k ∈ s.live
  balloc : SfsFs.balloc.wp False (fun b _ => b < n ∧ ¬ Reserved n b ∧ b ∉ s.live)
    (fun e _ => e = .enospc ∧ ∀ b < n, Reserved n b ∨ b ∈ s.live) s.fs
  bfree : ∀ b ∈ s.live, (SfsFs.bfree b).wp False (fun _ _ => True) (fun _ _ => False) s.fs

end Os161
