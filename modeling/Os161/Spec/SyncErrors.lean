import Os161.Spec.SfsSync

/-! `sfs_sync` on a disk that may fail to write, with the superblock in memory. -/

namespace Os161

/-- A mounted volume with its `sfs_sb` and `sfs_superdirty`. -/
structure SfsSuper where
  fs : Sfs
  sb : Block
  superdirty : Bool

def onVolume {α : Type} (x : SfsM α) : Op SfsSuper Errno α := x.zoom SfsSuper.fs (fun s fs => { s with fs := fs })

def sfsSyncSuperblock : Op SfsSuper Errno Unit := do
  let s ← Op.get
  if s.superdirty = true then do
    onVolume (onDev (sfsWriteblock 0 s.sb))
    Op.modify fun s => { s with superdirty := false }
  else pure ()

/-- `sfs_sync` with its three parts. -/
def sfsSyncAll : Op SfsSuper Errno Unit := do
  onVolume sfsSyncVnodes
  onVolume sfsSyncFreemap
  sfsSyncSuperblock

namespace Sfs

/-- Block `j` of the freemap. -/
def freemapBlock (s : Sfs) (j : ℕ) : Block := Bytes.ofBits fun k => s.freemap (j * 4096 + k)

/-- The blocks that `sfs_sync` writes for the vnodes and the freemap, in turn. -/
def pending (s : Sfs) : List (ℕ × Block) :=
  (s.vnodes.filter SfsVnode.dirty).map (fun v => (v.ino, v.i)) ++
    if s.freemapdirty = true then (List.range (sfsFreemapblocks s.nblocks)).map fun j => (2 + j, s.freemapBlock j) else []

/-- A mounted volume: superblock, freemap and loaded inodes have their places on the
disk, and what is not dirty is there. -/
structure InPlace (s : Sfs) : Prop where
  room : 2 + sfsFreemapblocks s.nblocks ≤ s.nblocks
  disk : s.nblocks ≤ s.dev.dBlocks
  nodup : (s.vnodes.map SfsVnode.ino).Nodup
  place : ∀ v ∈ s.vnodes, v.ino < s.nblocks ∧ (v.ino = 1 ∨ 2 + sfsFreemapblocks s.nblocks ≤ v.ino)
  clean : ∀ v ∈ s.vnodes, v.dirty = false → s.dev.sector v.ino = v.i
  mirror : s.freemapdirty = false → ∀ j < sfsFreemapblocks s.nblocks, s.dev.sector (2 + j) = s.freemapBlock j

/-- `t` is `s` with nothing dirty, and all of it is on the disk. -/
structure SavedAs (s t : Sfs) : Prop where
  vnodes : t.vnodes = s.vnodes.map fun v => { v with dirty := false }
  freemap : t.freemap = s.freemap
  freemapdirty : t.freemapdirty = false
  inodes : ∀ v ∈ t.vnodes, t.dev.sector v.ino = v.i
  blocks : ∀ j < sfsFreemapblocks s.nblocks, t.dev.sector (2 + j) = t.freemapBlock j

/-- A write that is going to fail would change nothing. -/
def LosesNothing (s : Sfs) : Prop :=
  ∀ (m : ℕ) (w : ℕ × Block), s.pending[m]? = some w → s.dev.outcomes[m]? = some .media → s.dev.sector w.1 = w.2

end Sfs

end Os161
