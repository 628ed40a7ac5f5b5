import Os161.Spec.Lhd

/-! A mounted SFS volume: block allocation (`sfs_balloc.c`), the block map of a
file (`sfs_bmap.c`) and file I/O (`sfs_io.c`). The caller holds `vfs_biglock`, so the
static buffers are local here. A pointer to a vnode is its inode number, and an
inode in memory is the block it was read from. `SFS_NDIRECT` is 15, `SFS_DBPERIDB`
is 128, and one indirect block gives a file 143 blocks at most. -/

namespace Os161

/-! ### `kern/sfs.h` -/

/-- `SFS_FREEMAPBITS`, in 32-bit arithmetic. -/
def sfsFreemapbits (nblocks : ℕ) : ℕ := (nblocks + 4095) % 4294967296 / 4096 * 4096

/-- `SFS_FREEMAPBLOCKS` -/
def sfsFreemapblocks (nblocks : ℕ) : ℕ := sfsFreemapbits nblocks / 4096

/-- `SFS_TYPE_FILE` -/
def sfsTypeFile : ℕ := 1

/-- `SFS_TYPE_DIR` -/
def sfsTypeDir : ℕ := 2

namespace Bytes

/-! The fields of `struct sfs_dinode`, and the entries of an indirect block. -/

def sfiSize (b : Block) : ℕ := b.num 4 0
def sfiType (b : Block) : ℕ := b.num 2 4
def sfiLinkcount (b : Block) : ℕ := b.num 2 6
def sfiDirect (b : Block) (k : ℕ) : ℕ := b.num 4 (8 + 4 * k)
def sfiIndirect (b : Block) : ℕ := b.num 4 68
def idEntry (b : Block) (j : ℕ) : ℕ := b.num 4 (4 * j)

def setSfiSize (b : Block) (v : ℕ) : Block := b.setNum 4 0 v
def setSfiType (b : Block) (v : ℕ) : Block := b.setNum 2 4 v
def setSfiLinkcount (b : Block) (v : ℕ) : Block := b.setNum 2 6 v
def setSfiDirect (b : Block) (k v : ℕ) : Block := b.setNum 4 (8 + 4 * k) v
def setSfiIndirect (b : Block) (v : ℕ) : Block := b.setNum 4 68 v
def setIdEntry (b : Block) (j v : ℕ) : Block := b.setNum 4 (4 * j) v

end Bytes

/-- `struct sfs_vnode`, with the reference count of its vnode. -/
structure SfsVnode where
  ino : ℕ
  i : Block
  dirty : Bool
  refcount : ℕ

/-- `struct sfs_fs`, the device, and the outcomes of the `kmalloc` calls to come
(with none left every call succeeds). -/
structure Sfs where
  nblocks : ℕ
  freemap : ℕ → Bool
  freemapdirty : Bool
  vnodes : List SfsVnode
  dev : Lhd
  kmem : List Bool

abbrev SfsM := Op Sfs Errno

variable {α : Type}

def onDev (x : Op Lhd Errno α) : SfsM α := x.zoom Sfs.dev (fun s d => { s with dev := d })

def Sfs.vnode (s : Sfs) (ino : ℕ) : Option SfsVnode := s.vnodes.find? (fun v => v.ino = ino)

def Sfs.setVnode (s : Sfs) (ino : ℕ) (f : SfsVnode → SfsVnode) : Sfs :=
  { s with vnodes := s.vnodes.map fun v => if v.ino = ino then f v else v }

/-- Follow a pointer to a vnode. -/
def getVnode (ino : ℕ) : SfsM SfsVnode := do
  match (← Op.get).vnode ino with
  | some v => pure v
  | none => Op.panic

/-- Change `sv_i` and set `sv_dirty`. -/
def dirtyInode (ino : ℕ) (f : Block → Block) : SfsM Unit :=
  Op.modify fun s => s.setVnode ino fun v => { v with i := f v.i, dirty := true }

/-! ### `bitmap.c`, bit by bit, and `sfs_balloc.c` -/

/-- The first clear bit from `index` on, among `fuel` bits. -/
def bitmapFind (bits : ℕ → Bool) : ℕ → ℕ → Option ℕ
  | 0, _ => none
  | fuel + 1, index => if bits index then bitmapFind bits fuel (index + 1) else some index

def bitmapAlloc : SfsM ℕ := do
  let s ← Op.get
  match bitmapFind s.freemap (sfsFreemapbits s.nblocks) 0 with
  | none => Op.fail .enospc
  | some index =>
    Op.set { s with freemap := Function.update s.freemap index true }
    pure index

def bitmapUnmark (index : ℕ) : SfsM Unit := do
  let s ← Op.get
  Op.kassert (index < sfsFreemapbits s.nblocks)
  Op.kassert (s.freemap index = true)
  Op.set { s with freemap := Function.update s.freemap index false }

def sfsClearblock (block : ℕ) : SfsM Unit := onDev (sfsWriteblock block Bytes.zero)

def sfsBalloc : SfsM ℕ := do
  let diskblock ← bitmapAlloc
  Op.modify fun s => { s with freemapdirty := true }
  let s ← Op.get
  Op.kassert (diskblock < s.nblocks)
  match ← Op.attempt (sfsClearblock diskblock) with
  | .ok _ => pure diskblock
  | .error e =>
    bitmapUnmark diskblock
    Op.fail e

def sfsBfree (diskblock : ℕ) : SfsM Unit := do
  bitmapUnmark diskblock
  Op.modify fun s => { s with freemapdirty := true }

def sfsBused (diskblock : ℕ) : SfsM Bool := do
  let s ← Op.get
  Op.kassert (diskblock < s.nblocks)
  pure (s.freemap diskblock)

/-! ### `sfs_bmap.c` -/

/-- The check before a block number is handed back. -/
def checkMapped (block : ℕ) : SfsM Unit :=
  if block = 0 then pure () else do
    let used ← sfsBused block
    Op.kassert (used = true)

/-- `sfs_bmap` for a direct block. -/
def sfsBmapDirect (ino fileblock : ℕ) (doalloc : Bool) : SfsM ℕ := do
  let sv ← getVnode ino
  let block ← if sv.i.sfiDirect fileblock = 0 ∧ doalloc = true then do
      let block ← sfsBalloc
      dirtyInode ino (·.setSfiDirect fileblock block)
      pure block
    else pure (sv.i.sfiDirect fileblock)
  checkMapped block
  pure block

/-- The indirect block of a file, allocated if there is none, with its contents. -/
def sfsIdblock (ino idblock : ℕ) : SfsM (ℕ × Block) :=
  if idblock = 0 then do
    let idblock ← sfsBalloc
    dirtyInode ino (·.setSfiIndirect idblock)
    pure (idblock, Bytes.zero)
  else do
    let idbuf ← onDev (sfsReadblock idblock Bytes.zero)
    pure (idblock, idbuf)

/-- `sfs_bmap` for a block behind the indirect block. -/
def sfsBmapIndirect (ino idoff : ℕ) (doalloc : Bool) : SfsM ℕ := do
  let sv ← getVnode ino
  if sv.i.sfiIndirect = 0 ∧ doalloc = false then pure 0
  else do
    let (idblock, idbuf) ← sfsIdblock ino sv.i.sfiIndirect
    let block ← if idbuf.idEntry idoff = 0 ∧ doalloc = true then do
        let block ← sfsBalloc
        onDev (sfsWriteblock idblock (idbuf.setIdEntry idoff block))
        pure block
      else pure (idbuf.idEntry idoff)
    checkMapped block
    pure block

def sfsBmap (ino fileblock : ℕ) (doalloc : Bool) : SfsM ℕ :=
  if fileblock < 15 then sfsBmapDirect ino fileblock doalloc
  else if 1 ≤ (fileblock - 15) / 128 then Op.fail .efbig
  else sfsBmapIndirect ino ((fileblock - 15) % 128) doalloc

/-- One turn of the loop over the direct blocks. -/
def truncDirect (ino blocklen i : ℕ) : SfsM Unit := do
  let sv ← getVnode ino
  if blocklen ≤ i ∧ sv.i.sfiDirect i ≠ 0 then do
    sfsBfree (sv.i.sfiDirect i)
    dirtyInode ino (·.setSfiDirect i 0)

/-- `idbuf`, `hasnonzero` and `iddirty` in the loop over the indirect block. -/
structure TruncState where
  idbuf : Block
  hasnonzero : Bool
  iddirty : Bool

def truncEntry (blocklen : ℕ) (t : TruncState) (j : ℕ) : SfsM TruncState := do
  let t ← if blocklen < 15 + j ∧ t.idbuf.idEntry j ≠ 0 then do
      sfsBfree (t.idbuf.idEntry j)
      pure { t with idbuf := t.idbuf.setIdEntry j 0, iddirty := true }
    else pure t
  pure { t with hasnonzero := t.hasnonzero || decide (t.idbuf.idEntry j ≠ 0) }

def truncIndirect (ino idblock blocklen : ℕ) : SfsM Unit := do
  let idbuf ← onDev (sfsReadblock idblock Bytes.zero)
  let t ← (List.range 128).foldlM (truncEntry blocklen) ⟨idbuf, false, false⟩
  if t.hasnonzero = false then do
    sfsBfree idblock
    dirtyInode ino (·.setSfiIndirect 0)
  else if t.iddirty = true then onDev (sfsWriteblock idblock t.idbuf)

def sfsItrunc (ino : ℕ) (len : ℤ) : SfsM Unit := do
  let blocklen := u32 ((len + 511).tdiv 512)
  (List.range 15).foldlM (fun _ i => truncDirect ino blocklen i) ()
  let sv ← getVnode ino
  if blocklen < 142 ∧ sv.i.sfiIndirect ≠ 0 then truncIndirect ino sv.i.sfiIndirect blocklen
  dirtyInode ino (·.setSfiSize (u32 len))

/-! ### `sfs_io.c` -/

/-- An operation on the volume and on the uio of the call. -/
abbrev IoM := Op (Sfs × Uio) Errno

def onFs (x : SfsM α) : IoM α := x.zoom Prod.fst (fun s fs => (fs, s.2))

def onDevUio (x : Op (Lhd × Uio) Errno α) : IoM α :=
  x.zoom (fun s => (s.1.dev, s.2)) (fun s r => ({ s.1 with dev := r.1 }, r.2))

def sfsPartialio (ino skipstart len : ℕ) : IoM Unit := do
  let (_, u) ← Op.get
  Op.kassert ((skipstart + len) % 4294967296 ≤ 512)
  let fileblock := u32 (u.offset.tdiv 512)
  let diskblock ← onFs (sfsBmap ino fileblock (u.rw = .write))
  let iobuf ← if diskblock = 0 then do
      Op.kassert (u.rw = .read)
      pure Bytes.zero
    else onFs (onDev (sfsReadblock diskblock Bytes.zero))
  -- an access outside the buffer, which a negative offset leads to, ends here
  Op.kassert (skipstart + len ≤ 512)
  let moved ← onUio (uiomove (iobuf.slice skipstart len))
  if u.rw = .write then onFs (onDev (sfsWriteblock diskblock (iobuf.splice skipstart moved)))

/-- The I/O of a mapped block in `sfs_blockio`, straight to the uio; the device
offset is a 32-bit product. -/
def sfsBlockDirect (diskblock : ℕ) : IoM Unit := do
  let (_, u) ← Op.get
  let diskoff : ℤ := (diskblock * 512 % 4294967296 : ℕ)
  Op.kassert (512 ≤ u.resid)
  Op.modify fun s => (s.1, { s.2 with offset := diskoff, resid := 512 })
  let result ← Op.attempt (onDevUio sfsRwblock)
  Op.modify fun s => (s.1,
    { s.2 with offset := s.2.offset - diskoff + u.offset, resid := u32 (s.2.resid - 512 + u.resid) })
  match result with
  | .ok _ => pure ()
  | .error e => Op.fail e

def sfsBlockio (ino : ℕ) : IoM Unit := do
  let (_, u) ← Op.get
  let fileblock := u32 (u.offset.tdiv 512)
  let diskblock ← onFs (sfsBmap ino fileblock (u.rw = .write))
  if diskblock = 0 then do
    Op.kassert (u.rw = .read)
    onUio (uiomovezeros 512)
  else sfsBlockDirect diskblock

/-- The leading partial block. -/
def sfsIoHead (ino : ℕ) : IoM Unit := do
  let (_, u) ← Op.get
  let blkoff := u32 (u.offset.tmod 512)
  if blkoff ≠ 0 then sfsPartialio ino blkoff (min (u32 (512 - blkoff)) u.resid)

/-- The whole blocks and the trailing partial block. -/
def sfsIoTail (ino : ℕ) : IoM Unit := do
  let (_, u) ← Op.get
  if u.resid = 0 then pure ()
  else do
    Op.kassert (u.offset.tmod 512 = 0)
    (List.range (u.resid / 512)).foldlM (fun _ _ => sfsBlockio ino) ()
    let (_, u) ← Op.get
    Op.kassert (u.resid < 512)
    if 0 < u.resid then sfsPartialio ino 0 u.resid

/-- From `out:` on: `result` is what the transfer returned. -/
def sfsIoOut (ino origresid extraresid : ℕ) (result : Except Errno Unit) : IoM Unit := do
  let (_, u) ← Op.get
  let sv ← onFs (getVnode ino)
  if u.resid ≠ origresid ∧ u.rw = .write ∧ (sv.i.sfiSize : ℤ) < u.offset then
    onFs (dirtyInode ino (·.setSfiSize (u32 u.offset)))
  Op.modify fun s => (s.1, { s.2 with resid := u32 (s.2.resid + extraresid) })
  match result with
  | .ok _ => pure ()
  | .error e => Op.fail e

/-- The end-of-file check of a read gives what the request has beyond the file's
end, or nothing at all if there is nothing to read. -/
def sfsIoEof (size : ℕ) (u : Uio) : Option ℕ :=
  match u.rw with
  | .write => some 0
  | .read =>
    if (size : ℤ) ≤ u.offset then none
    else if (size : ℤ) < u.offset + u.resid then some (u32 (u.offset + u.resid - size))
    else some 0

def sfsIo (ino : ℕ) : IoM Unit := do
  let (_, u) ← Op.get
  let sv ← onFs (getVnode ino)
  match sfsIoEof sv.i.sfiSize u with
  | none => pure ()
  | some extraresid => do
    Op.kassert (extraresid = 0 ∨ extraresid < u.resid)
    Op.modify fun s => (s.1, { s.2 with resid := s.2.resid - extraresid })
    let result ← Op.attempt (do
      sfsIoHead ino
      sfsIoTail ino)
    sfsIoOut ino u.resid extraresid result

/-- Metadata I/O; the result is the contents of `data` afterwards. -/
def sfsMetaio (ino actualpos : ℕ) (data : List UInt8) (rw : UioRw) : SfsM (List UInt8) := do
  let vnblock := actualpos / 512
  let blockoffset := actualpos % 512
  let diskblock ← sfsBmap ino vnblock (rw = .write)
  if diskblock = 0 then do
    Op.kassert (rw = .read)
    pure (List.replicate data.length 0)
  else do
    let metaiobuf ← onDev (sfsReadblock diskblock Bytes.zero)
    match rw with
    | .read => pure (metaiobuf.slice blockoffset data.length)
    | .write => do
      onDev (sfsWriteblock diskblock (metaiobuf.splice blockoffset data))
      let sv ← getVnode ino
      if sv.i.sfiSize < actualpos + data.length then
        dirtyInode ino (·.setSfiSize ((actualpos + data.length) % 4294967296))
      pure data

end Os161
