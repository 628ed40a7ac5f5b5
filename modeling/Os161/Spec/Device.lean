import Os161.Spec.Sfs

/-! The vnodes of block devices (`kern/vfs/device.c`) over the disk, and the sector
numbers that a request comes down to: what `lhd_io` writes to the sector register of the
disk is a function of the request and of the size of the disk. -/

namespace Os161

/-- `dev_tryseek` for a device with blocks of `LHD_SECTSIZE` bytes. Both operands of each
comparison are converted to `off_t`, so it is a signed one. -/
def devTryseek (dBlocks : ℕ) (pos : ℤ) : Except Errno Unit :=
  if 0 < dBlocks then
    if pos.tmod 512 ≠ 0 then .error .einval
    else if (dBlocks : ℤ) ≤ pos.tdiv 512 then .error .einval
    else .ok ()
  else .ok ()

/-- `dev_read` and `dev_write`. -/
def devRw (rw : UioRw) : Op (Lhd × Uio) Errno Unit := do
  let (d, u) ← Op.get
  match devTryseek d.dBlocks u.offset with
  | .error e => Op.fail e
  | .ok _ => do
    Op.kassert (u.rw = rw)
    lhdIo

def devRead : Op (Lhd × Uio) Errno Unit := devRw .read

def devWrite : Op (Lhd × Uio) Errno Unit := devRw .write

/-- The sector numbers of a request to `lhd_io` in turn, or the error before the first. -/
def lhdSectors (dBlocks : ℕ) (offset : ℤ) (resid : ℕ) : Except Errno (List ℕ) :=
  let sector := u32 (offset.tdiv 512)
  if u32 (offset.tmod 512) ≠ 0 ∨ resid % 512 ≠ 0 then .error .einval
  else if dBlocks < (sector + resid / 512) % 4294967296 then .error .einval
  else .ok ((List.range (resid / 512)).map fun i => (sector + i) % 4294967296)

/-- The same for a request to `dev_read` or `dev_write`. -/
def devSectors (dBlocks : ℕ) (offset : ℤ) (resid : ℕ) : Except Errno (List ℕ) := do
  devTryseek dBlocks offset
  lhdSectors dBlocks offset resid

/-- The loop of `lhd_io` over its sector numbers. -/
def lhdLoop : Except Errno (List ℕ) → Op (Lhd × Uio) Errno Unit
  | .error e => Op.fail e
  | .ok sects => sects.foldlM (fun _ sect => lhdSector sect) ()

/-- What becomes of a request is right: either it is refused with `EINVAL`, or it is for
whole sectors of the disk and its sector numbers are `offset / 512 + i`. -/
def Addressed (dBlocks : ℕ) (offset : ℤ) (resid : ℕ) : Except Errno (List ℕ) → Prop
  | .error e => e = .einval
  | .ok sects =>
    512 ∣ offset ∧ 512 ∣ resid ∧
      sects.map Nat.cast = (List.range (resid / 512)).map (fun i : ℕ => offset / 512 + i) ∧
      ∀ sect ∈ sects, sect < dBlocks

/-- The request is for whole sectors and not empty, it is not within the disk, but the
number of the sector behind its end is modulo `2^32` not past the end of the disk. -/
def EndWraps (dBlocks : ℕ) (offset : ℤ) (resid : ℕ) : Prop :=
  512 ∣ offset ∧ 512 ∣ resid ∧ 0 < resid ∧ ¬ (0 ≤ offset ∧ offset + resid ≤ dBlocks * 512) ∧
    (offset + resid) / 512 % 4294967296 ≤ dBlocks

/-! The two ways of SFS to a block. -/

/-- The device offset of `SFSUIO`, for `sfs_readblock` and `sfs_writeblock`. -/
def sfsuioOffset (block : ℕ) : ℤ := block * 512

/-- `diskoff` in `sfs_blockio`, the product of two 32-bit numbers. -/
def blockioOffset (diskblock : ℕ) : ℤ := (diskblock * 512 % 4294967296 : ℕ)

/-- On this disk `sfs_readblock` gives what was written to the block through
`sfs_blockio`, and the other way round. -/
def SameBlock (s : Sfs) (block : ℕ) : Prop :=
  ∀ u : Uio, u.Ready → 512 ≤ u.resid →
    (u.rw = .write → (sfsBlockDirect block).wp False
      (fun _ q => (sfsReadblock block Bytes.zero).wp False
        (fun data _ => data = Bytes.ofList (u.iov.flatten.take 512)) (fun _ _ => False) q.1.dev)
      (fun _ _ => False) (s, u)) ∧
    (u.rw = .read → ∀ data : Block, (sfsWriteblock block data).wp False
      (fun _ d => (sfsBlockDirect block).wp False
        (fun _ q => q.2.passed = u.passed ++ data.toList) (fun _ _ => False) ({ s with dev := d }, u))
      (fun _ _ => False) s.dev)

end Os161
