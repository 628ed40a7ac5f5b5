import Os161.Spec.Bitmap
import Os161.Spec.SfsVnops

/-! `userland/sbin/mksfs`: the formatter, and the disk file under it. It is run on a
disk of `nblocks` blocks with any contents. An assertion that fails ends it. -/

namespace Os161

/-! ### `disk.c` -/

/-- The block that `lseek` goes to; the offset is a 32-bit product. -/
def diskSeek (block : ℕ) : ℕ := block * 512 % 4294967296 / 512

/-! ### `mksfs.c` -/

/-- What `errx` says. -/
inductive MksfsError where
  /-- "Illegal volume name %s" -/
  | illegalName (volname : List UInt8)
  /-- "Volume name %s too long" -/
  | nameTooLong (volname : List UInt8)
  /-- "Filesystem too large -- increase MAXFREEMAPBLOCKS and recompile" -/
  | tooLarge

structure Mksfs where
  nblocks : ℕ
  freemapbuf : List UInt8
  disk : ℕ → Block

abbrev MksfsM := Op Mksfs MksfsError

/-- `freemapbuf` is static, with room for `MAXFREEMAPBLOCKS` blocks. -/
def Mksfs.start (nblocks : ℕ) (disk : ℕ → Block) : Mksfs := ⟨nblocks, List.replicate (32 * 512) 0, disk⟩

namespace Mksfs

def diskwrite (data : Block) (block : ℕ) : MksfsM Unit :=
  Op.modify fun s => { s with disk := Function.update s.disk (diskSeek block) data }

def allocblock (block : ℕ) : MksfsM Unit := do
  let s ← Op.get
  Op.kassert (s.freemapbuf.getD (block / 8) 0 &&& bitMask (block % 8) = 0)
  Op.set { s with freemapbuf := setBit s.freemapbuf block }

def initfreemap (fsblocks : ℕ) : MksfsM Unit :=
  if 32 < sfsFreemapblocks fsblocks then Op.fail .tooLarge
  else do
    allocblock 0
    allocblock 1
    (List.range (sfsFreemapblocks fsblocks)).foldlM (fun _ i => allocblock (2 + i)) ()
    (List.range (sfsFreemapbits fsblocks - fsblocks)).foldlM (fun _ i => allocblock (fsblocks + i)) ()

/-- The superblock of a new volume. -/
def newSuper (volname : List UInt8) (nblocks : ℕ) : Block :=
  (((Bytes.zero : Block).setNum 4 0 sfsMagic).setNum 4 4 nblocks).splice 8 volname

def writesuper (volname : List UInt8) (nblocks : ℕ) : MksfsM Unit :=
  if 32 ≤ volname.length then Op.fail (.nameTooLong volname)
  else diskwrite (newSuper volname nblocks) 0

def writefreemap (fsblocks : ℕ) : MksfsM Unit :=
  (List.range (sfsFreemapblocks fsblocks)).foldlM (fun _ i => do
    let s ← Op.get
    diskwrite (Bytes.ofList ((s.freemapbuf.drop (i * 512)).take 512)) (2 + i)) ()

/-- The root directory of a new volume: it is empty, and has one link. -/
def newRoot : Block := (((Bytes.zero : Block).setSfiSize 0).setSfiType sfsTypeDir).setSfiLinkcount 1

def writerootdir : MksfsM Unit := diskwrite newRoot 1

/-- The volume name without one colon at its end; there may be no other, and no slash. -/
def volumeName (arg : List UInt8) : MksfsM (List UInt8) := do
  let volname ← if 58 ∈ arg then
      (if arg.idxOf 58 + 1 ≠ arg.length then Op.fail (.illegalName arg) else pure (arg.take (arg.idxOf 58)))
    else pure arg
  if 47 ∈ volname then Op.fail (.illegalName volname) else pure volname

/-- The names that `main` takes. -/
def GoodName (arg : List UInt8) : Prop :=
  (58 ∈ arg → arg.idxOf 58 + 1 = arg.length) ∧ 47 ∉ arg.take (arg.idxOf 58) ∧ (arg.take (arg.idxOf 58)).length < 32

/-- `main`, with the volume name that it is called with. -/
def main (arg : CStr) : MksfsM Unit := do
  let volname ← volumeName arg.chars
  let s ← Op.get
  initfreemap s.nblocks
  writesuper volname s.nblocks
  writefreemap s.nblocks
  writerootdir

end Mksfs

end Os161
