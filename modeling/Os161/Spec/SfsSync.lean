import Os161.Spec.Bitmap
import Os161.Spec.SfsFile
import Os161.Spec.SfsNames

/-! `sfs_sync`, and what a volume has to be on the disk so that `sfs_domount` finds
there what was in memory. -/

namespace Os161

/-- The superblock on the disk is the one of the volume, and the freemap on the disk is
the one in memory if that is not dirty. -/
def Sfs.OnDisk (s : Sfs) : Prop :=
  (s.dev.sector 0).sbMagic = sfsMagic ∧ (s.dev.sector 0).sbNblocks = s.nblocks ∧
    (s.freemapdirty = false →
      ∀ k < sfsFreemapbits s.nblocks, (s.dev.sector (2 + k / 4096)).bit (k % 4096) = s.freemap k)

/-! ### `sfs_fsops.c` -/

/-- `sfs_freemapio` for `UIO_WRITE`, with the bits of each block. -/
def sfsFreemapioWrite : SfsM Unit := do
  let s ← Op.get
  (List.range (sfsFreemapblocks s.nblocks)).foldlM (fun _ j =>
    onDev (sfsWriteblock (2 + j) (Bytes.ofBits fun k => s.freemap (j * 4096 + k)))) ()

/-- `VOP_FSYNC` is `sfs_fsync`, which is `sfs_sync_inode`; its result is not looked at. -/
def sfsSyncVnodes : SfsM Unit := do
  let s ← Op.get
  s.vnodes.foldlM (fun _ v => do let _ ← Op.attempt (sfsSyncInode v.ino)) ()

def sfsSyncFreemap : SfsM Unit := do
  let s ← Op.get
  if s.freemapdirty = true then do
    sfsFreemapioWrite
    Op.modify fun s => { s with freemapdirty := false }
  else pure ()

/-- `sfs_superdirty` is set nowhere, so `sfs_sync_superblock` writes nothing. -/
def sfsSync : SfsM Unit := do
  sfsSyncVnodes
  sfsSyncFreemap

/-! ### Runs -/

inductive SyncEv where
  | call (e : SfsEv)
  | fsync (ino : ℕ)
  | sync

def syncCall : SyncEv → SfsM Unit
  | .call e => sfsCall e
  | .fsync ino => sfsSyncInode ino
  | .sync => sfsSync

/-- As `sfsStep`, with `sfs_fsync` and `sfs_sync` among the operations. -/
def syncStep (s : Sfs) (e : SyncEv) : Option Sfs := (syncCall e).after s

/-- The volume that was just mounted. -/
def SfsFs.vol (s : SfsFs) : Vol where
  nblocks := s.nblocks
  used := bitOf s.freemap.v
  loaded _ := False
  block := s.dev.sector

/-- The same names, for files of the same type and size with the same links and bytes,
and the same blocks in use. -/
structure Vol.SameContents (V V' : Vol) : Prop where
  nblocks : V'.nblocks = V.nblocks
  used : ∀ k < sfsFreemapbits V.nblocks, V'.used k = V.used k
  names : V'.names = V.names
  type : ∀ i, V.Inode i → (V'.block i).sfiType = (V.block i).sfiType
  size : ∀ i, V.Inode i → (V'.block i).sfiSize = (V.block i).sfiSize
  linkcount : ∀ i, V.Inode i → (V'.block i).sfiLinkcount = (V.block i).sfiLinkcount
  contents : ∀ i, V.Inode i → V'.contents i = V.contents i

/-- What is not dirty is on the disk, and after `sfs_sync` the disk has the whole volume:
mounted afresh, with the memory that takes, it is the volume that was there. -/
structure Sfs.Synced (s : Sfs) : Prop where
  inodes : ∀ v ∈ s.vnodes, v.dirty = false → s.dev.sector v.ino = v.i
  freemap : s.freemapdirty = false →
    ∀ k < sfsFreemapbits s.nblocks, (s.dev.sector (2 + k / 4096)).bit (k % 4096) = s.freemap k
  remount : sfsSync.wp False
    (fun _ t => ∀ fs : SfsFs, fs.dev = t.dev →
      SfsFs.domount.wp False (fun _ fs' => s.vol.SameContents fs'.vol) (fun _ _ => fs.kmem ≠ []) fs)
    (fun _ _ => False) s

end Os161
