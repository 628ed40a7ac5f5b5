import Os161.Lib.Bytes
import Os161.Spec.Uio

/-! The disk driver `kern/dev/lamebus/lhd.c`, one thread at a time (the semaphore
`lh_clear` sees to that), and the block I/O of `kern/fs/sfs/sfs_io.c` that sits on
it. The disk decides how each sector operation ends. -/

namespace Os161

/-- `LHD_SECTSIZE`, which is also `SFS_BLOCKSIZE`. -/
abbrev Block := Bytes 512

/-- How the disk ends an operation on a sector that it has. -/
inductive LhdStat where
  | ok
  | media
  deriving DecidableEq

structure Lhd where
  dBlocks : ℕ
  /-- the register is 32 bits wide -/
  word : dBlocks < 4294967296
  /-- the contents of each sector -/
  sector : ℕ → Block
  /-- how the operations to come will end; with none left every one succeeds -/
  outcomes : List LhdStat

theorem Lhd.word_sixteen : 16 < 4294967296 := by decide

/-- The disk performs one operation, and `lhd_irq` translates its result with
`lhd_code_to_errno`. A write stores `lh_buf` only if it succeeds; a read gives the
sector's contents. -/
def Lhd.operate (d : Lhd) (sect : ℕ) (rw : UioRw) (buf : Block) : Except Errno Block × Lhd :=
  if d.dBlocks ≤ sect then (.error .einval, d)
  else
    match d.outcomes with
    | .media :: os => (.error .eio, { d with outcomes := os })
    | os =>
      match rw with
      | .read => (.ok (d.sector sect), { d with outcomes := os.tail })
      | .write => (.ok buf, { d with sector := Function.update d.sector sect buf, outcomes := os.tail })

/-- Run an operation on the uio of a driver or file system call. -/
def onUio {σ α : Type} (x : Op Uio Errno α) : Op (σ × Uio) Errno α :=
  x.zoom Prod.snd (fun s u => (s.1, u))

/-- The body of the sector loop of `lhd_io`. Only the transfer in progress uses the
on-card buffer, so it starts out blank here. -/
def lhdSector (sect : ℕ) : Op (Lhd × Uio) Errno Unit := do
  let (_, u) ← Op.get
  let buf ← match u.rw with
    | .write => onUio (uiomove (Bytes.zero : Block).toList)
    | .read => pure []
  let (d, u) ← Op.get
  let (result, d) := d.operate sect u.rw (Bytes.ofList buf)
  Op.set (d, u)
  match result with
  | .error e => Op.fail e
  | .ok data =>
    match u.rw with
    | .write => pure ()
    | .read => do
      let _ ← onUio (uiomove data.toList)

def lhdIo : Op (Lhd × Uio) Errno Unit := do
  let (d, u) ← Op.get
  let sector := u32 (u.offset.tdiv 512)
  let sectoff := u32 (u.offset.tmod 512)
  let len := u.resid / 512
  let lenoff := u.resid % 512
  if sectoff ≠ 0 ∨ lenoff ≠ 0 then Op.fail .einval
  -- the source notes that this sum can overflow
  else if d.dBlocks < (sector + len) % 4294967296 then Op.fail .einval
  else (List.range len).foldlM (fun _ i => lhdSector ((sector + i) % 4294967296)) ()

/-- One turn of the loop of `sfs_rwblock`; `again` is what follows an I/O error. -/
def sfsTry (again : Op (Lhd × Uio) Errno Unit) : Op (Lhd × Uio) Errno Unit := do
  match ← Op.attempt lhdIo with
  | .ok _ => pure ()
  | .error .einval => Op.panic
  | .error .eio => again
  | .error e => Op.fail e

/-- `sfs_rwblock` when `tries` retries are left. -/
def sfsRetry : ℕ → Op (Lhd × Uio) Errno Unit
  | 0 => sfsTry (Op.fail .eio)
  | tries + 1 => sfsTry (sfsRetry tries)

def sfsRwblock : Op (Lhd × Uio) Errno Unit := sfsRetry 10

/-- `SFSUIO` and `sfs_rwblock`, for both directions; the result is the contents of
the buffer afterwards. -/
def sfsBlock (rw : UioRw) (block : ℕ) (data : Block) : Op Lhd Errno Block := fun d =>
  match sfsRwblock (d, uioKinit data.toList (block * 512) rw) with
  | .ok _ (d, u) => .ok (Bytes.ofList u.memory) d
  | .err e (d, _) => .err e d
  | .panic => .panic

def sfsReadblock (block : ℕ) (data : Block) : Op Lhd Errno Block := sfsBlock .read block data

def sfsWriteblock (block : ℕ) (data : Block) : Op Lhd Errno Unit := do
  let _ ← sfsBlock .write block data

end Os161
