import Os161.Spec.SfsckPasses

/-! The block map of `sfsck` as its macros and its recursion by level give it, and the walk
of `check_inode_blocks` with a record of the pointers it looks at: where the running block
counter stood, and which pointer it was. -/

namespace Os161

namespace Fsck

/-! ### `ibmacros.h` -/

def numD : ℕ := 15
def numI : ℕ := 1
def numII : ℕ := 0
def numIII : ℕ := 0

/-- `SFS_DBPERIDB` -/
def dbperidb : ℕ := 128

def rangeD : ℕ := 1
def rangeI : ℕ := rangeD * dbperidb
def rangeII : ℕ := rangeI * dbperidb
def rangeIII : ℕ := rangeII * dbperidb

def inomaxD : ℕ := numD
def inomaxI : ℕ := inomaxD + dbperidb * numI
def inomaxII : ℕ := inomaxI + dbperidb * numII
def inomaxIII : ℕ := inomaxII + dbperidb * numIII

/-- `GET_I` is `GET1_x`, which does not look at the index. -/
def getI (sfi : Block) (_ : ℕ) : ℕ := sfi.sfiIndirect

/-- `GET_II` is `GET0_x`: there is no such field. -/
def getII (_ : Block) (_ : ℕ) : ℕ := 0

def getIII (_ : Block) (_ : ℕ) : ℕ := 0

/-! ### `sfs.c` -/

/-- `ibmap`, with the levels that are left. -/
def ibmap : ℕ → ℕ → ℕ → ℕ → FsckM ℕ
  | 0, _, _, _ => Op.panic
  | level + 1, iblock, offset, entrysize =>
    if iblock = 0 then pure 0
    else do
      let entries ← diskread iblock
      if 1 < entrysize then
        ibmap level (entries.idEntry (offset / entrysize)) (offset % entrysize) (entrysize / dbperidb)
      else do
        Op.kassert (offset < dbperidb)
        pure (entries.idEntry offset)

/-- `bmap`, for every kind of indirect block. -/
def bmapMacros (sfi : Block) (fileblock : ℕ) : FsckM ℕ :=
  if fileblock < inomaxD then pure (sfi.sfiDirect fileblock)
  else if fileblock < inomaxI then
    ibmap 1 (getI sfi ((fileblock - inomaxD) / rangeI)) ((fileblock - inomaxD) % rangeI) rangeD
  else if fileblock < inomaxII then
    ibmap 2 (getII sfi ((fileblock - inomaxI) / rangeII)) ((fileblock - inomaxI) % rangeII) rangeI
  else if fileblock < inomaxIII then
    ibmap 3 (getIII sfi ((fileblock - inomaxII) / rangeIII)) ((fileblock - inomaxII) % rangeIII) rangeII
  else pure 0

/-- A place where a pointer to a data block stands. -/
inductive PointerSlot where
  | direct (k : ℕ)
  | entry (iblock j : ℕ)
  deriving DecidableEq

/-- The place that `bmap` consults for file block `k`; without an indirect block it looks
no further. -/
def bmapSlot (sfi : Block) (k : ℕ) : Option PointerSlot :=
  if k < 15 then some (.direct k)
  else if k < 143 ∧ sfi.sfiIndirect ≠ 0 then some (.entry sfi.sfiIndirect (k - 15))
  else none

/-- What stands there. -/
def readSlot (sfi : Block) : Option PointerSlot → FsckM ℕ
  | none => pure 0
  | some (.direct k) => pure (sfi.sfiDirect k)
  | some (.entry iblock j) => do
    let entries ← diskread iblock
    pure (entries.idEntry j)

/-! ### `pass1.c` with the record -/

/-- `curfileblock` and the pointer that was looked at, in order. -/
abbrev Visits := List (ℕ × PointerSlot)

/-- A block of pointers while it is gone through, with the record. -/
structure Visiting where
  pointers : Pointers
  visits : Visits

def visitSlot (check : Pointers → ℕ → FsckM Pointers) (slot : ℕ → PointerSlot) (p : Visiting) (k : ℕ) :
    FsckM Visiting := do
  let q ← check p.pointers k
  pure ⟨q, p.visits ++ [(p.pointers.ibs.curfileblock, slot k)]⟩

/-- The pointer that is left, whether it was changed, the state, and the record. -/
structure Visited where
  ientry : ℕ
  changed : Bool
  ibs : Ibstate
  visits : Visits

/-- `check_indirect_block` at level `indirection`, where `scan` goes through the entries. -/
def visitBlock (scan : Visiting → FsckM Visiting) (indirection : ℕ) (ibs : Ibstate) (ientry : ℕ) (visits : Visits) :
    FsckM Visited :=
  if 0 < ientry ∧ ientry < ibs.volblocks then do
    let entries ← diskread ientry
    freemapBlockinuse ientry .iblock
    let p ← scan ⟨⟨entries, false, ibs⟩, visits⟩
    if (List.range 128).all (fun j => p.pointers.block.idEntry j = 0) = true then do
      setbadness exitRecov
      freemapBlockfree ientry
      pure ⟨0, true, p.pointers.ibs, p.visits⟩
    else do
      if p.pointers.changed = true then diskwrite p.pointers.block ientry else pure ()
      pure ⟨ientry, false, p.pointers.ibs, p.visits⟩
  else do
    let coveredblocks := dbperidb ^ indirection
    let ibs' := { ibs with curfileblock := ibs.curfileblock + coveredblocks }
    if ibs.volblocks ≤ ientry then do
      setbadness exitRecov
      pure ⟨0, true, ibs', visits⟩
    else pure ⟨ientry, false, ibs', visits⟩

/-- `check_indirect_block`; `indirection` 0 fails its assertion. -/
def visitIndirect (isdir : Bool) : ℕ → Ibstate → ℕ → Visits → FsckM Visited
  | 0, ibs, ientry, visits => visitBlock (fun _ => Op.panic) 0 ibs ientry visits
  | 1, ibs, ientry, visits =>
    visitBlock (fun p => (List.range 128).foldlM (visitSlot (checkEntry isdir) (.entry ientry)) p) 1 ibs ientry visits
  | level + 2, ibs, ientry, visits =>
    visitBlock (fun p => (List.range 128).foldlM (fun p i => do
      let v ← visitIndirect isdir (level + 1) p.pointers.ibs (p.pointers.block.idEntry i) p.visits
      pure ⟨⟨if v.changed = true then p.pointers.block.setIdEntry i v.ientry else p.pointers.block,
        p.pointers.changed || v.changed, v.ibs⟩, v.visits⟩) p) (level + 2) ibs ientry visits

/-- The inode that is left and whether it was changed, with the counter at the end and the
record. -/
structure Walk where
  sfi : Block
  changed : Bool
  curfileblock : ℕ
  visits : Visits

/-- The indirect blocks of the inode: there is one, and none of a higher level. -/
def visitIndirects (isdir : Bool) (p : Visiting) : FsckM Visiting := do
  let p ← (List.range numI).foldlM (fun p _ => do
    let v ← visitIndirect isdir 1 p.pointers.ibs p.pointers.block.sfiIndirect p.visits
    pure ⟨⟨if v.changed = true then p.pointers.block.setSfiIndirect v.ientry else p.pointers.block,
      p.pointers.changed || v.changed, v.ibs⟩, v.visits⟩) p
  let p ← (List.range numII).foldlM (fun p i => do
    let v ← visitIndirect isdir 2 p.pointers.ibs (getII p.pointers.block i) p.visits
    pure (⟨⟨p.pointers.block, p.pointers.changed || v.changed, v.ibs⟩, v.visits⟩ : Visiting)) p
  (List.range numIII).foldlM (fun p i => do
    let v ← visitIndirect isdir 3 p.pointers.ibs (getIII p.pointers.block i) p.visits
    pure (⟨⟨p.pointers.block, p.pointers.changed || v.changed, v.ibs⟩, v.visits⟩ : Visiting)) p

/-- `check_inode_blocks` -/
def visitInodeBlocks (sfi : Block) (isdir : Bool) : FsckM Walk := do
  let s ← Op.get
  let size := roundup sfi.sfiSize 512
  let p ← (List.range numD).foldlM (visitSlot (checkDirect isdir) .direct)
    ⟨⟨sfi, false, ⟨0, size / 512, s.nblocks, 0⟩⟩, []⟩
  let p ← visitIndirects isdir p
  if 0 < p.pointers.ibs.pasteofcount then setbadness exitRecov else pure ()
  pure ⟨p.pointers.block, p.pointers.changed, p.pointers.ibs.curfileblock, p.visits⟩

/-! ### What is to agree -/

/-- For an inode `sfi` that the kernel has in memory, with the same disk under both: the
block that `sfs_bmap` finds without allocating is the one that `bmap` finds. -/
def BmapAgrees (sfi : Block) (k : ℕ) : Prop :=
  ∀ (s : Sfs) (ino : ℕ) (v : SfsVnode), s.vnode ino = some v → v.i = sfi →
    ∀ f : Fsck, f.disk = s.dev.sector → f.diskblocks = s.dev.dBlocks →
      (sfsBmap ino k false).wp True (fun b _ => bmapMacros sfi k f = .ok b f) (fun _ _ => True) s

/-- The pointer at a place that is not cut off with its indirect block. -/
def PointerSlot.Inside (volblocks : ℕ) : PointerSlot → Prop
  | .direct _ => True
  | .entry iblock _ => iblock < volblocks

/-- The walk is the one of pass 1, `bmap` is a look at the place that `bmapSlot` names, and
the walk comes to that place when the counter stands at `k`, and not otherwise. Behind the
inode the counter is at the end, whatever was skipped or cleared. -/
structure WalkAgrees (sfi : Block) (k : ℕ) : Prop where
  same : ∀ isdir c (Q : Block × Bool → Fsck → Prop) E s,
    (visitInodeBlocks sfi isdir).wp c (fun w => Q (w.sfi, w.changed)) E s ↔ (checkInodeBlocks sfi isdir).wp c Q E s
  consults : bmapMacros sfi k = readSlot sfi (bmapSlot sfi k)
  visits : ∀ isdir s, (visitInodeBlocks sfi isdir).wp True
    (fun w _ => (∀ c slot, (c, slot) ∈ w.visits → (bmapSlot sfi k = some slot ↔ c = k)) ∧
      (∀ slot, bmapSlot sfi k = some slot → slot.Inside s.nblocks → w.visits.count (k, slot) = 1) ∧
      w.curfileblock = inomaxIII)
    (fun _ _ => True) s

end Fsck

end Os161
