import Os161.Spec.Sfs

/-! Vnodes (`sfs_inode.c`), the directory (`sfs_dir.c`) and the vnode operations
(`sfs_vnops.c`) of SFS, as the steps of a mounted volume. -/

namespace Os161

/-! ### `sfs_inode.c` -/

/-- A call of `kmalloc`. -/
def kmallocM : SfsM Unit := do
  let s ← Op.get
  match s.kmem with
  | [] => pure ()
  | okay :: rest =>
    Op.set { s with kmem := rest }
    if okay = true then pure () else Op.fail .enomem

def sfsSyncInode (ino : ℕ) : SfsM Unit := do
  let sv ← getVnode ino
  if sv.dirty = true then do
    onDev (sfsWriteblock sv.ino sv.i)
    Op.modify fun s => s.setVnode ino fun v => { v with dirty := false }

def sfsReclaim (ino : ℕ) : SfsM Unit := do
  let sv ← getVnode ino
  if sv.refcount ≠ 1 then do
    Op.kassert (1 < sv.refcount)
    Op.modify fun s => s.setVnode ino fun v => { v with refcount := v.refcount - 1 }
    Op.fail .ebusy
  else do
    if sv.i.sfiLinkcount = 0 then sfsItrunc ino 0
    sfsSyncInode ino
    let sv ← getVnode ino
    if sv.i.sfiLinkcount = 0 then sfsBfree ino
    Op.modify fun s => { s with vnodes := s.vnodes.eraseP fun v => v.ino = ino }

/-- `vnode_decref`, which does not look at what `VOP_RECLAIM` returns. -/
def vnodeDecref (ino : ℕ) : SfsM Unit := do
  let sv ← getVnode ino
  Op.kassert (0 < sv.refcount)
  if 1 < sv.refcount then
    Op.modify fun s => s.setVnode ino fun v => { v with refcount := v.refcount - 1 }
  else do
    let _ ← Op.attempt (sfsReclaim ino)

/-- The search of `sfs_loadvnode` through the table. -/
def sfsSearch (ino : ℕ) : List SfsVnode → SfsM Bool
  | [] => pure false
  | v :: vs => do
    let used ← sfsBused v.ino
    Op.kassert (used = true)
    if v.ino = ino then pure true else sfsSearch ino vs

/-- `forcetype` is 0, that is `SFS_TYPE_INVAL`, for an object that exists. -/
def sfsLoadvnode (ino forcetype : ℕ) : SfsM Unit := do
  let s ← Op.get
  let found ← sfsSearch ino s.vnodes
  if found = true then do
    Op.kassert (forcetype = 0)
    Op.modify fun s => s.setVnode ino fun v => { v with refcount := v.refcount + 1 }
  else do
    kmallocM
    let used ← sfsBused ino
    Op.kassert (used = true)
    let i ← onDev (sfsReadblock ino Bytes.zero)
    Op.kassert (forcetype = 0 ∨ i.sfiType = 0)
    let sv : SfsVnode := if forcetype = 0 then ⟨ino, i, false, 1⟩ else ⟨ino, i.setSfiType forcetype, true, 1⟩
    Op.kassert (sv.i.sfiType = sfsTypeFile ∨ sv.i.sfiType = sfsTypeDir)
    -- `vnodearray_add` may have to grow the array
    kmallocM
    Op.modify fun s => { s with vnodes := s.vnodes ++ [sv] }

def sfsMakeobj (type : ℕ) : SfsM ℕ := do
  let ino ← sfsBalloc
  match ← Op.attempt (sfsLoadvnode ino type) with
  | .ok _ => pure ino
  | .error e =>
    sfsBfree ino
    Op.fail e

def sfsGetroot : SfsM Unit := do
  sfsLoadvnode 1 0
  let sv ← getVnode 1
  if sv.i.sfiType = sfsTypeDir then pure () else Op.fail .einval

/-! ### `sfs_dir.c` -/

/-- A C string. -/
structure CStr where
  chars : List UInt8
  noNul : 0 ∉ chars

/-- `sfd_ino` of the 64 bytes of a `struct sfs_direntry`. -/
def sfdIno (sd : List UInt8) : ℕ := ofBe (sd.take 4)

/-- `sfd_name` as a string, after the last byte was made a null. -/
def sfdName (sd : List UInt8) : List UInt8 := ((sd.drop 4).take 59).takeWhile (· ≠ 0)

def mkDirentry (ino : ℕ) (name : List UInt8) : List UInt8 :=
  toBe 4 ino ++ name ++ List.replicate (60 - name.length) 0

/-- The entry of a free slot, with `SFS_NOINO`. -/
def noDirentry : List UInt8 := List.replicate 64 0

def sfsReaddir (sv slot : ℕ) : SfsM (List UInt8) :=
  sfsMetaio sv (slot * 64 % 4294967296) noDirentry .read

def sfsWritedir (sv slot : ℕ) (sd : List UInt8) : SfsM Unit := do
  let _ ← sfsMetaio sv (slot * 64 % 4294967296) sd .write

def sfsDirNentries (sv : ℕ) : SfsM ℕ := do
  let v ← getVnode sv
  Op.kassert (v.i.sfiType = sfsTypeDir)
  Op.kassert (v.i.sfiSize % 64 = 0)
  pure (v.i.sfiSize / 64)

/-- What `sfs_dir_findname` hands back: inode and slot of the name if it is there
(`ENOENT` if not), and the last empty slot. -/
structure Found where
  hit : Option (ℕ × ℕ)
  emptyslot : Option ℕ

def sfsFindSlot (sv : ℕ) (name : CStr) (f : Found) (i : ℕ) : SfsM Found := do
  let tsd ← sfsReaddir sv i
  if sfdIno tsd = 0 then pure { f with emptyslot := some i }
  else if sfdName tsd = name.chars then do
    Op.kassert (f.hit = none)
    pure { f with hit := some (sfdIno tsd, i) }
  else pure f

def sfsDirFindname (sv : ℕ) (name : CStr) : SfsM Found := do
  let nentries ← sfsDirNentries sv
  (List.range nentries).foldlM (sfsFindSlot sv name) ⟨none, none⟩

def sfsDirLink (sv : ℕ) (name : CStr) (ino : ℕ) : SfsM ℕ := do
  let f ← sfsDirFindname sv name
  match f.hit with
  | some _ => Op.fail .eexist
  | none =>
    if 60 < name.chars.length + 1 then Op.fail .enametoolong
    else do
      let slot ← match f.emptyslot with
        | some slot => pure slot
        | none => sfsDirNentries sv
      sfsWritedir sv slot (mkDirentry ino name.chars)
      pure slot

def sfsDirUnlink (sv slot : ℕ) : SfsM Unit := sfsWritedir sv slot noDirentry

/-- Inode number, and so vnode, and slot of a name. -/
def sfsLookonce (sv : ℕ) (name : CStr) : SfsM (ℕ × ℕ) := do
  let f ← sfsDirFindname sv name
  match f.hit with
  | none => Op.fail .enoent
  | some (ino, slot) => do
    sfsLoadvnode ino 0
    let v ← getVnode ino
    Op.kassert (v.i.sfiLinkcount ≠ 0)
    pure (ino, slot)

/-! ### `sfs_vnops.c` -/

/-- `sfi_linkcount++` and `sfi_linkcount--`, with `sv_dirty` set. -/
def addLink (ino : ℕ) : SfsM Unit := dirtyInode ino fun i => i.setSfiLinkcount ((i.sfiLinkcount + 1) % 65536)

def dropLink (ino : ℕ) : SfsM Unit := do
  let v ← getVnode ino
  Op.kassert (0 < v.i.sfiLinkcount)
  dirtyInode ino fun i => i.setSfiLinkcount (i.sfiLinkcount - 1)

def sfsCreat (dir : ℕ) (name : CStr) (excl : Bool) : SfsM ℕ := do
  let f ← sfsDirFindname dir name
  match f.hit with
  | some (ino, _) =>
    if excl = true then Op.fail .eexist
    else do
      sfsLoadvnode ino 0
      pure ino
  | none => do
    let newguy ← sfsMakeobj sfsTypeFile
    match ← Op.attempt (sfsDirLink dir name newguy) with
    | .error e =>
      vnodeDecref newguy
      Op.fail e
    | .ok _ =>
      addLink newguy
      pure newguy

def sfsLink (dir : ℕ) (name : CStr) (file : ℕ) : SfsM Unit := do
  let f ← getVnode file
  if f.i.sfiType = sfsTypeDir then Op.fail .einval
  else do
    let _ ← sfsDirLink dir name file
    addLink file

def sfsRemove (dir : ℕ) (name : CStr) : SfsM Unit := do
  let (victim, slot) ← sfsLookonce dir name
  let result ← Op.attempt (sfsDirUnlink dir slot)
  match result with
  | .ok _ => do
    dropLink victim
    vnodeDecref victim
  | .error e => do
    vnodeDecref victim
    Op.fail e

/-- The recovery of `sfs_rename` when the old name could not be erased. -/
def renameUndo (dir g1 slot2 : ℕ) (e : Errno) : SfsM Unit := do
  match ← Op.attempt (sfsDirUnlink dir slot2) with
  | .error _ => Op.panic
  | .ok _ => do
    Op.modify fun s => s.setVnode g1 fun v =>
      { v with i := v.i.setSfiLinkcount (u32 (v.i.sfiLinkcount - 1) % 65536) }
    vnodeDecref g1
    Op.fail e

def sfsRename (dir : ℕ) (n1 n2 : CStr) : SfsM Unit := do
  Op.kassert (dir = 1)
  let (g1, slot1) ← sfsLookonce dir n1
  let v ← getVnode g1
  Op.kassert (v.i.sfiType = sfsTypeFile)
  match ← Op.attempt (sfsDirLink dir n2 g1) with
  | .error e => do
    vnodeDecref g1
    Op.fail e
  | .ok slot2 => do
    addLink g1
    match ← Op.attempt (sfsDirUnlink dir slot1) with
    | .error e => renameUndo dir g1 slot2 e
    | .ok _ => do
      dropLink g1
      vnodeDecref g1

def sfsLookup (dir : ℕ) (name : CStr) : SfsM ℕ := do
  let v ← getVnode dir
  if v.i.sfiType ≠ sfsTypeDir then Op.fail .enotdir
  else do
    let (ino, _) ← sfsLookonce dir name
    pure ino

/-- The directory, and the name for the caller's buffer. -/
def sfsLookparent (dir : ℕ) (path : CStr) (buflen : ℕ) : SfsM (ℕ × CStr) := do
  let v ← getVnode dir
  if v.i.sfiType ≠ sfsTypeDir then Op.fail .enotdir
  else if buflen < path.chars.length + 1 then Op.fail .enametoolong
  else do
    Op.modify fun s => s.setVnode dir fun v => { v with refcount := v.refcount + 1 }
    pure (dir, path)

/-- The operations tables: the function of `sfs_dirops` or of `sfs_fileops`. -/
def vop {α : Type} (ino : ℕ) (onDir onFile : SfsM α) : SfsM α := do
  let v ← getVnode ino
  if v.i.sfiType = sfsTypeDir then onDir else onFile

/-- `sfs_write`; the uio is the caller's. -/
def sfsWrite (ino : ℕ) (u : Uio) : SfsM Uio := fun s =>
  match sfsIo ino (s, u) with
  | .ok _ (s, u) => .ok u s
  | .err e (s, _) => .err e s
  | .panic => .panic

inductive SfsEv where
  | getroot
  | creat (dir : ℕ) (name : CStr) (excl : Bool)
  | link (dir : ℕ) (name : CStr) (file : ℕ)
  | remove (dir : ℕ) (name : CStr)
  | rename (dir : ℕ) (n1 n2 : CStr)
  | lookup (dir : ℕ) (name : CStr)
  | write (ino : ℕ) (u : Uio)
  | truncate (ino : ℕ) (len : ℤ)
  /-- a reference drop that leaves others, or decides to reclaim -/
  | decref (ino : ℕ)
  /-- `VOP_RECLAIM` of an earlier decision -/
  | reclaim (ino : ℕ)

/-- The first half of `vnode_decref`, under `vn_countlock`. -/
def decrefDecide (ino : ℕ) : SfsM Unit := do
  let sv ← getVnode ino
  Op.kassert (0 < sv.refcount)
  if 1 < sv.refcount then
    Op.modify fun s => s.setVnode ino fun v => { v with refcount := v.refcount - 1 }

/-- The call that an event stands for. -/
def sfsCall : SfsEv → SfsM Unit
  | .getroot => sfsGetroot
  | .creat dir name excl => vop dir (do let _ ← sfsCreat dir name excl) (Op.fail .enotdir)
  | .link dir name file => vop dir (sfsLink dir name file) (Op.fail .enotdir)
  | .remove dir name => vop dir (sfsRemove dir name) (Op.fail .enotdir)
  | .rename dir n1 n2 => vop dir (sfsRename dir n1 n2) (Op.fail .enotdir)
  | .lookup dir name => vop dir (do let _ ← sfsLookup dir name) (Op.fail .enotdir)
  | .write ino u =>
    match u.rw with
    | .read => Op.panic
    | .write => vop ino (Op.fail .eisdir) (do let _ ← sfsWrite ino u)
  | .truncate ino len => vop ino (Op.fail .eisdir) (sfsItrunc ino len)
  | .decref ino => decrefDecide ino
  | .reclaim ino => sfsReclaim ino

/-- One operation, whether it succeeds or returns an error; a panic ends the run. -/
def sfsStep (s : Sfs) (e : SfsEv) : Option Sfs :=
  match sfsCall e s with
  | .ok _ s => some s
  | .err _ s => some s
  | .panic => none

end Os161
