import Os161.Lib.Run
import Os161.Spec.Uio

/-! The VFS layer: the table of devices (`vfslist.c`), path translation
(`vfslookup.c`), the operations on paths (`vfspath.c`) and the current directory
(`vfscwd.c`), over any file systems. Vnodes, file systems and devices are named
by numbers; the characters of a string are a list of bytes. -/

namespace Os161

/-- What a thread in the VFS layer shares with the file systems below it; `ρ` is
what these keep for themselves. -/
structure FsState (ρ : Type) where
  /-- whether the thread holds `vfs_biglock` -/
  held : Bool
  /-- `vfs_biglock_depth` -/
  depth : ℕ
  /-- `vn_refcount` of each vnode -/
  refcount : ℕ → ℕ
  /-- whether the next calls of `kmalloc` succeed; those after them do -/
  kmem : List Bool
  rest : ρ

/-- The file systems and devices, through `fs_ops` and `vn_ops`. -/
structure FsOps (ρ : Type) where
  /-- `vn_fs`, which is `NULL` for a device -/
  vnFs : ℕ → Option ℕ
  getvolname : ℕ → Option (List UInt8)
  getroot : ℕ → Op (FsState ρ) Errno ℕ
  sync : ℕ → Op (FsState ρ) Errno Unit
  unmount : ℕ → Op (FsState ρ) Errno Unit
  reclaim : ℕ → Op (FsState ρ) Errno Unit
  eachopen : ℕ → ℕ → Op (FsState ρ) Errno Unit
  gettype : ℕ → Op (FsState ρ) Errno ℕ
  truncate : ℕ → ℕ → Op (FsState ρ) Errno Unit
  namefile : ℕ → Op (FsState ρ) Errno Unit
  creat : ℕ → List UInt8 → Bool → ℕ → Op (FsState ρ) Errno ℕ
  symlink : ℕ → List UInt8 → List UInt8 → Op (FsState ρ) Errno Unit
  readlink : ℕ → Op (FsState ρ) Errno Unit
  mkdir : ℕ → List UInt8 → ℕ → Op (FsState ρ) Errno Unit
  link : ℕ → List UInt8 → ℕ → Op (FsState ρ) Errno Unit
  remove : ℕ → List UInt8 → Op (FsState ρ) Errno Unit
  rmdir : ℕ → List UInt8 → Op (FsState ρ) Errno Unit
  rename : ℕ → List UInt8 → ℕ → List UInt8 → Op (FsState ρ) Errno Unit
  lookup : ℕ → List UInt8 → Op (FsState ρ) Errno ℕ
  lookparent : ℕ → List UInt8 → ℕ → Op (FsState ρ) Errno (ℕ × List UInt8)
  /-- `uiomove` to the uio of the call, which is part of `ρ` -/
  uiomove : List UInt8 → Op (FsState ρ) Errno Unit

/-- `kd_fs` -/
inductive KdFs where
  | null
  /-- `SWAP_FS` -/
  | swap
  | fs (f : ℕ)
  deriving DecidableEq

structure Knowndev where
  name : List UInt8
  rawname : Option (List UInt8)
  device : Option ℕ
  vnode : ℕ
  fs : KdFs
  deriving DecidableEq

structure Vfs (ρ : Type) where
  fs : FsState ρ
  knowndevs : List Knowndev
  bootfsVnode : Option ℕ
  /-- `p_cwd` of the current process -/
  cwd : Option ℕ

abbrev VfsM (ρ α : Type) : Type := Op (Vfs ρ) Errno α

variable {ρ α : Type}

/-- A call into a file system. -/
def callFs (x : Op (FsState ρ) Errno α) : VfsM ρ α := Op.zoom Vfs.fs (fun s t => { s with fs := t }) x

/-- Return the result of an earlier call. -/
def returns : Except Errno α → VfsM ρ α
  | .ok a => pure a
  | .error e => Op.fail e

/-! ### `vfs_biglock` and `vnode.c` -/

def vfsBiglockAcquire : VfsM ρ Unit :=
  Op.modify fun s => { s with fs := { s.fs with held := true, depth := s.fs.depth + 1 } }

def vfsBiglockRelease : VfsM ρ Unit := do
  let s ← Op.get
  Op.kassert (s.fs.held = true)
  Op.kassert (0 < s.fs.depth)
  Op.set { s with fs := { s.fs with held := s.fs.depth - 1 ≠ 0, depth := s.fs.depth - 1 } }

/-- `KASSERT(vfs_biglock_do_i_hold())` -/
def assertBiglock : VfsM ρ Unit := do
  let s ← Op.get
  Op.kassert (s.fs.held = true)

/-- A call of `kmalloc`. -/
def vfsKmalloc : VfsM ρ Unit := do
  let s ← Op.get
  match s.fs.kmem with
  | [] => pure ()
  | okay :: rest => do
    Op.set { s with fs := { s.fs with kmem := rest } }
    if okay = true then pure () else Op.fail .enomem

def setRefcount (v n : ℕ) : VfsM ρ Unit :=
  Op.modify fun s => { s with fs := { s.fs with refcount := Function.update s.fs.refcount v n } }

/-- `VOP_INCREF` -/
def vopIncref (v : ℕ) : VfsM ρ Unit := do
  let s ← Op.get
  setRefcount v (s.fs.refcount v + 1)

/-- `VOP_DECREF`; what `VOP_RECLAIM` returns is only reported. -/
def vopDecref (F : FsOps ρ) (v : ℕ) : VfsM ρ Unit := do
  let s ← Op.get
  Op.kassert (0 < s.fs.refcount v)
  if 1 < s.fs.refcount v then setRefcount v (s.fs.refcount v - 1)
  else do
    let _ ← Op.attempt (callFs (F.reclaim v))

def vopDecrefOpt (F : FsOps ρ) : Option ℕ → VfsM ρ Unit
  | none => pure ()
  | some v => vopDecref F v

variable (F : FsOps ρ)

/-! ### `vfslist.c` -/

/-- `FSOP_GETVOLNAME` where `kd_fs` is a file system -/
def Knowndev.volname (kd : Knowndev) : Option (List UInt8) :=
  match kd.fs with
  | .fs f => F.getvolname f
  | _ => none

def vfsSync : VfsM ρ Unit := do
  vfsBiglockAcquire
  let s ← Op.get
  s.knowndevs.foldlM (fun _ kd => match kd.fs with
    | .fs f => do
      let _ ← Op.attempt (callFs (F.sync f))
    | _ => pure ()) ()
  vfsBiglockRelease

/-- What `vfs_getroot` does at one entry, if `devname` is one of its names. -/
def Knowndev.getroot (kd : Knowndev) (devname : List UInt8) : Option (VfsM ρ ℕ) :=
  let itself : VfsM ρ ℕ := do
    Op.kassert (kd.device ≠ none)
    vopIncref kd.vnode
    pure kd.vnode
  match kd.fs with
  | .fs f =>
    if kd.name = devname ∨ kd.volname F = some devname then some (callFs (F.getroot f))
    else if kd.rawname = some devname then some itself
    else none
  | _ =>
    if kd.rawname ≠ none ∧ kd.name = devname then some (Op.fail .enxio)
    else if kd.name = devname then
      some do
        Op.kassert (kd.fs = .null)
        itself
    else if kd.rawname = some devname then some itself
    else none

def vfsGetroot (devname : List UInt8) : VfsM ρ ℕ := do
  assertBiglock
  let s ← Op.get
  (s.knowndevs.findSome? fun kd => kd.getroot F devname).getD (Op.fail .enodev)

def vfsGetdevname (f : ℕ) : VfsM ρ (Option (List UInt8)) := do
  assertBiglock
  let s ← Op.get
  pure ((s.knowndevs.find? fun kd => kd.fs = .fs f).map Knowndev.name)

/-- `name` with "raw" at the end -/
def mkrawname (name : List UInt8) : VfsM ρ (List UInt8) := do
  vfsKmalloc
  pure (name ++ [114, 97, 119])

/-- `kd_rawname` of a new entry -/
def rawnameOf (mountable : Bool) (name : List UInt8) : VfsM ρ (Option (List UInt8)) :=
  if mountable = true then do
    let rawname ← mkrawname name
    pure (some rawname)
  else pure none

def samestring (a b : Option (List UInt8)) : Bool :=
  match a, b with
  | some a, some b => a = b
  | _, _ => false

def samestring3 (a b c d : Option (List UInt8)) : Bool := samestring a b || samestring a c || samestring a d

def badnames (devs : List Knowndev) (n1 n2 n3 : Option (List UInt8)) : Bool :=
  devs.any fun kd =>
    samestring3 (kd.volname F) n1 n2 n3 || samestring3 kd.rawname n1 n2 n3 || samestring3 (some kd.name) n1 n2 n3

/-- `vfs_doadd` up to its return or to the label `fail`. `vnode` is the vnode that
`dev_create_vnode` makes. -/
def doadd (dname : List UInt8) (mountable : Bool) (dev : Option ℕ) (fs : KdFs) (vnode : ℕ) : VfsM ρ Unit := do
  vfsKmalloc
  let rawname ← rawnameOf mountable dname
  vfsKmalloc
  setRefcount vnode 1
  match ← Op.attempt (do
      vfsKmalloc
      let kd : Knowndev := { name := dname, rawname := rawname, device := dev, vnode := vnode, fs := fs }
      assertBiglock
      let s ← Op.get
      if badnames F s.knowndevs (some dname) rawname (kd.volname F) = true then Op.fail .eexist
      else do
        -- `knowndevarray_add` may have to grow the array
        vfsKmalloc
        Op.modify fun s => { s with knowndevs := s.knowndevs ++ [kd] }) with
  | .ok _ => pure ()
  | .error e => do
    setRefcount vnode 0
    Op.fail e

def vfsDoadd (dname : List UInt8) (mountable : Bool) (dev : Option ℕ) (fs : KdFs) (vnode : ℕ) : VfsM ρ Unit := do
  vfsBiglockAcquire
  match ← Op.attempt (doadd F dname mountable dev fs vnode) with
  | .ok _ => vfsBiglockRelease
  | .error e => do
    vfsBiglockRelease
    Op.fail e

def vfsAdddev (devname : List UInt8) (dev : ℕ) (mountable : Bool) (vnode : ℕ) : VfsM ρ Unit :=
  vfsDoadd F devname mountable (some dev) .null vnode

def vfsAddfs (devname : List UInt8) (fs vnode : ℕ) : VfsM ρ Unit :=
  vfsDoadd F devname false none (.fs fs) vnode

/-- The index of the device, and its entry. -/
def findmount (devname : List UInt8) : VfsM ρ (ℕ × Knowndev) := do
  assertBiglock
  let s ← Op.get
  match s.knowndevs.findIdx? fun kd => kd.rawname ≠ none ∧ devname = kd.name with
  | none => Op.fail .enodev
  | some i =>
    match s.knowndevs[i]? with
    | none => Op.panic
    | some kd => pure (i, kd)

/-- `kd->kd_fs = fs` for the entry at `i` -/
def setKdFs (i : ℕ) (fs : KdFs) : VfsM ρ Unit :=
  Op.modify fun s => { s with knowndevs := s.knowndevs.modify i fun kd => { kd with fs := fs } }

def vfsMount (devname : List UInt8) (mountfunc : ℕ → Op (FsState ρ) Errno ℕ) : VfsM ρ Unit := do
  vfsBiglockAcquire
  match ← Op.attempt (findmount devname) with
  | .error e => do
    vfsBiglockRelease
    Op.fail e
  | .ok (i, kd) =>
    if kd.fs ≠ .null then do
      vfsBiglockRelease
      Op.fail .ebusy
    else
      match kd.device with
      | none => Op.panic
      | some dev => do
        match ← Op.attempt (callFs (mountfunc dev)) with
        | .error e => do
          vfsBiglockRelease
          Op.fail e
        | .ok fs => do
          setKdFs i (.fs fs)
          vfsBiglockRelease

/-- `vfs_swapon` after the copy of the name, up to the label `out`. -/
def swapon (devname : List UInt8) : VfsM ρ ℕ := do
  let (i, kd) ← findmount devname
  if kd.fs ≠ .null then Op.fail .ebusy
  else do
    Op.kassert (kd.device ≠ none)
    setKdFs i .swap
    vopIncref kd.vnode
    pure kd.vnode

/-- A trailing colon, 58, is dropped from a copy of the name. -/
def swapName (devname : List UInt8) : VfsM ρ (List UInt8) :=
  if devname.getLast? = some 58 then do
    vfsKmalloc
    pure devname.dropLast
  else pure devname

def vfsSwapon (devname : List UInt8) : VfsM ρ ℕ := do
  let devname ← swapName devname
  vfsBiglockAcquire
  let result ← Op.attempt (swapon devname)
  vfsBiglockRelease
  returns result

/-- `vfs_unmount` up to the label `fail`. -/
def unmount (devname : List UInt8) : VfsM ρ Unit := do
  let (i, kd) ← findmount devname
  match kd.fs with
  | .fs f => do
    Op.kassert (kd.device ≠ none)
    callFs (F.sync f)
    callFs (F.unmount f)
    setKdFs i .null
  | _ => Op.fail .einval

def vfsUnmount (devname : List UInt8) : VfsM ρ Unit := do
  vfsBiglockAcquire
  let result ← Op.attempt (unmount F devname)
  vfsBiglockRelease
  returns result

/-- `vfs_swapoff` up to the label `fail`. -/
def swapoff (devname : List UInt8) : VfsM ρ Unit := do
  let (i, kd) ← findmount devname
  if kd.fs ≠ .swap then Op.fail .einval else setKdFs i .null

def vfsSwapoff (devname : List UInt8) : VfsM ρ Unit := do
  vfsBiglockAcquire
  let result ← Op.attempt (swapoff devname)
  vfsBiglockRelease
  returns result

/-- `FSOP_SYNC`, and once more if that fails. -/
def syncTwice (f : ℕ) : VfsM ρ (Except Errno Unit) := do
  match ← Op.attempt (callFs (F.sync f)) with
  | .ok _ => pure (.ok ())
  | .error _ => Op.attempt (callFs (F.sync f))

/-- One turn of the loop of `vfs_unmountall`. -/
def unmountallAt (i : ℕ) : VfsM ρ Unit := do
  let s ← Op.get
  match s.knowndevs[i]? with
  | none => Op.panic
  | some dev =>
    if dev.rawname = none then pure ()
    else match dev.fs with
      | .null => pure ()
      | .swap => setKdFs i .null
      | .fs f => do
        match ← syncTwice F f with
        | .error _ => pure ()
        | .ok _ => do
          match ← Op.attempt (callFs (F.unmount f)) with
          | .ok _ => setKdFs i .null
          | .error _ => pure ()

def vfsUnmountall : VfsM ρ Unit := do
  vfsBiglockAcquire
  let s ← Op.get
  (List.range s.knowndevs.length).foldlM (fun _ i => unmountallAt F i) ()
  vfsBiglockRelease

/-! ### `vfscwd.c` -/

def vfsGetcurdir : VfsM ρ ℕ := do
  let s ← Op.get
  match s.cwd with
  | none => Op.fail .enoent
  | some v => do
    vopIncref v
    pure v

/-- `S_IFDIR` -/
def sIfdir : ℕ := 8192

def vfsSetcurdir (dir : ℕ) : VfsM ρ Unit := do
  let vtype ← callFs (F.gettype dir)
  if vtype ≠ sIfdir then Op.fail .enotdir
  else do
    vopIncref dir
    let s ← Op.get
    Op.modify fun s => { s with cwd := some dir }
    vopDecrefOpt F s.cwd

def vfsClearcurdir : VfsM ρ Unit := do
  let s ← Op.get
  Op.modify fun s => { s with cwd := none }
  vopDecrefOpt F s.cwd

/-! ### `vfslookup.c` -/

def changeBootfs (newvn : Option ℕ) : VfsM ρ Unit := do
  let s ← Op.get
  Op.modify fun s => { s with bootfsVnode := newvn }
  vopDecrefOpt F s.bootfsVnode

/-- Skip slashes, 47. -/
def skipSlashes (path : List UInt8) : List UInt8 := path.dropWhile (· = 47)

/-- The vnode to start from for a path that begins with a slash, or else a colon. -/
def getdeviceRoot (path : List UInt8) : VfsM ρ ℕ :=
  if path.head? = some 47 then do
    let s ← Op.get
    match s.bootfsVnode with
    | none => Op.fail .enoent
    | some v => do
      vopIncref v
      pure v
  else do
    let vn ← vfsGetcurdir
    match F.vnFs vn with
    | none => Op.panic
    | some f => do
      let result ← Op.attempt (callFs (F.getroot f))
      vopDecref F vn
      returns result

/-- Hands back the rest of the path and the vnode to start from. The first colon, 58,
or slash of the path decides. -/
def getdevice (path : List UInt8) : VfsM ρ (List UInt8 × ℕ) := do
  assertBiglock
  match path.findIdx? fun c => c = 58 ∨ c = 47 with
  | none => do
    let startvn ← vfsGetcurdir
    pure (path, startvn)
  | some 0 => do
    let startvn ← getdeviceRoot F path
    pure (skipSlashes (path.drop 1), startvn)
  | some (i + 1) =>
    if path[i + 1]? = some 58 then do
      let startvn ← vfsGetroot F (path.take (i + 1))
      pure (skipSlashes (path.drop (i + 2)), startvn)
    else do
      let startvn ← vfsGetcurdir
      pure (path, startvn)

/-- A device name alone has no parent. -/
def lookparentFrom (startvn : ℕ) (path : List UInt8) (buflen : ℕ) : VfsM ρ (ℕ × List UInt8) :=
  if path = [] then Op.fail .einval else callFs (F.lookparent startvn path buflen)

def vfsLookparent (path : List UInt8) (buflen : ℕ) : VfsM ρ (ℕ × List UInt8) := do
  vfsBiglockAcquire
  match ← Op.attempt (getdevice F path) with
  | .error e => do
    vfsBiglockRelease
    Op.fail e
  | .ok (path, startvn) => do
    let result ← Op.attempt (lookparentFrom F startvn path buflen)
    vopDecref F startvn
    vfsBiglockRelease
    returns result

def vfsLookup (path : List UInt8) : VfsM ρ ℕ := do
  vfsBiglockAcquire
  match ← Op.attempt (getdevice F path) with
  | .error e => do
    vfsBiglockRelease
    Op.fail e
  | .ok (path, startvn) =>
    if path = [] then do
      vfsBiglockRelease
      pure startvn
    else do
      let result ← Op.attempt (callFs (F.lookup startvn path))
      vopDecref F startvn
      vfsBiglockRelease
      returns result

def vfsChdir (path : List UInt8) : VfsM ρ Unit := do
  let vn ← vfsLookup F path
  let result ← Op.attempt (vfsSetcurdir F vn)
  vopDecref F vn
  returns result

/-- `tmp` has room for `NAME_MAX - 1` bytes of the name. A name with a colon is
refused wherever the colon is: the rest of the string from it on is never empty. -/
def vfsSetbootfs (fsname : List UInt8) : VfsM ρ Unit := do
  vfsBiglockAcquire
  if 58 ∈ fsname.take 254 then do
    vfsBiglockRelease
    Op.fail .einval
  else do
    match ← Op.attempt (vfsChdir F (fsname.take 254 ++ [58])) with
    | .error e => do
      vfsBiglockRelease
      Op.fail e
    | .ok _ => do
      match ← Op.attempt vfsGetcurdir with
      | .error e => do
        vfsBiglockRelease
        Op.fail e
      | .ok newguy => do
        changeBootfs F (some newguy)
        vfsBiglockRelease

def vfsClearbootfs : VfsM ρ Unit := do
  vfsBiglockAcquire
  changeBootfs F none
  vfsBiglockRelease

/-- The volume name of a file system, or else the name of its device. -/
def fsName (f : ℕ) : VfsM ρ (Option (List UInt8)) :=
  match F.getvolname f with
  | some name => pure (some name)
  | none => do
    vfsBiglockAcquire
    let name ← vfsGetdevname f
    vfsBiglockRelease
    pure name

/-- `vfs_getcwd`, up to the label `out`. -/
def getcwd (cwd : ℕ) : VfsM ρ Unit :=
  match F.vnFs cwd with
  | none => Op.panic
  | some f => do
    match ← fsName F f with
    | none => Op.panic
    | some name => do
      callFs (F.uiomove name)
      callFs (F.uiomove [58])
      callFs (F.namefile cwd)

def vfsGetcwd : VfsM ρ Unit := do
  let cwd ← vfsGetcurdir
  let result ← Op.attempt (getcwd F cwd)
  vopDecref F cwd
  returns result

/-! ### `vfspath.c` -/

def nameMax : ℕ := 255

/-- The truncation of a file that is opened with `O_TRUNC`. -/
def openTruncate (openflags vn : ℕ) : VfsM ρ Unit :=
  if openflags.testBit 4 = true then
    if openflags % 4 = 0 then Op.fail .einval else callFs (F.truncate vn 0)
  else pure ()

/-- `vfs_open` from the point where it has a vnode. -/
def openVnode (openflags : ℕ) (vn : ℕ) : VfsM ρ ℕ := do
  match ← Op.attempt (callFs (F.eachopen vn openflags)) with
  | .error e => do
    vopDecref F vn
    Op.fail e
  | .ok _ => do
    match ← Op.attempt (openTruncate F openflags vn) with
    | .error e => do
      vopDecref F vn
      Op.fail e
    | .ok _ => pure vn

def vfsOpen (path : List UInt8) (openflags mode : ℕ) : VfsM ρ ℕ := do
  -- `O_ACCMODE` is 3, and 3 is no mode
  if openflags % 4 = 3 then Op.fail .einval
  -- `O_CREAT` and `O_EXCL`
  else if openflags.testBit 2 = true then do
    let (dir, name) ← vfsLookparent F path (nameMax + 1)
    let result ← Op.attempt (callFs (F.creat dir name (openflags.testBit 3) mode))
    vopDecref F dir
    let vn ← returns result
    openVnode F openflags vn
  else do
    let vn ← vfsLookup F path
    openVnode F openflags vn

def vfsClose (vn : ℕ) : VfsM ρ Unit := vopDecref F vn

/-- The functions that look up the parent of a path and work on the name in it. -/
def inParent (path : List UInt8) (work : ℕ → List UInt8 → Op (FsState ρ) Errno Unit) : VfsM ρ Unit := do
  let (dir, name) ← vfsLookparent F path (nameMax + 1)
  let result ← Op.attempt (callFs (work dir name))
  vopDecref F dir
  returns result

def vfsRemove (path : List UInt8) : VfsM ρ Unit := inParent F path F.remove

def vfsSymlink (contents path : List UInt8) : VfsM ρ Unit :=
  inParent F path fun dir name => F.symlink dir name contents

def vfsMkdir (path : List UInt8) (mode : ℕ) : VfsM ρ Unit :=
  inParent F path fun dir name => F.mkdir dir name mode

def vfsRmdir (path : List UInt8) : VfsM ρ Unit := inParent F path F.rmdir

def vfsReadlink (path : List UInt8) : VfsM ρ Unit := do
  let vn ← vfsLookup F path
  let result ← Op.attempt (callFs (F.readlink vn))
  vopDecref F vn
  returns result

/-- The end of `vfs_rename` and `vfs_link`, which work on two vnodes of one file system. -/
def inSameFs (old newdir : ℕ) (work : Op (FsState ρ) Errno Unit) : VfsM ρ Unit :=
  if F.vnFs old = none ∨ F.vnFs newdir = none ∨ F.vnFs old ≠ F.vnFs newdir then do
    vopDecref F newdir
    vopDecref F old
    Op.fail .exdev
  else do
    let result ← Op.attempt (callFs work)
    vopDecref F newdir
    vopDecref F old
    returns result

def vfsRename (oldpath newpath : List UInt8) : VfsM ρ Unit := do
  let (olddir, oldname) ← vfsLookparent F oldpath (nameMax + 1)
  match ← Op.attempt (vfsLookparent F newpath (nameMax + 1)) with
  | .error e => do
    vopDecref F olddir
    Op.fail e
  | .ok (newdir, newname) => inSameFs F olddir newdir (F.rename olddir oldname newdir newname)

def vfsLink (oldpath newpath : List UInt8) : VfsM ρ Unit := do
  let oldfile ← vfsLookup F oldpath
  match ← Op.attempt (vfsLookparent F newpath (nameMax + 1)) with
  | .error e => do
    vopDecref F oldfile
    Op.fail e
  | .ok (newdir, newname) => inSameFs F oldfile newdir (F.link newdir newname oldfile)

/-! ### Runs of `vfslist.c` -/

/-- The names by which a device can be reached. -/
def Knowndev.names (kd : Knowndev) : List (List UInt8) :=
  kd.name :: (kd.rawname.toList ++ (kd.volname F).toList)

/-- No name belongs to two entries, and `vfs_getroot` stops at no more than one. -/
structure Vfs.OneDevice (s : Vfs ρ) : Prop where
  names : ∀ (i j : ℕ) (a b : Knowndev), s.knowndevs[i]? = some a → s.knowndevs[j]? = some b →
    ∀ n ∈ a.names F, n ∈ b.names F → i = j
  getroot : ∀ (i j : ℕ) (a b : Knowndev), s.knowndevs[i]? = some a → s.knowndevs[j]? = some b →
    ∀ n, (a.getroot F n).isSome = true → (b.getroot F n).isSome = true → i = j

inductive VfslistEv (ρ : Type) where
  | adddev (devname : List UInt8) (dev : ℕ) (mountable : Bool) (vnode : ℕ)
  | addfs (devname : List UInt8) (fs vnode : ℕ)
  | mount (devname : List UInt8) (mountfunc : ℕ → Op (FsState ρ) Errno ℕ)
  | unmount (devname : List UInt8)
  | swapon (devname : List UInt8)
  | swapoff (devname : List UInt8)

def vfslistCall : VfslistEv ρ → VfsM ρ Unit
  | .adddev devname dev mountable vnode => vfsAdddev F devname dev mountable vnode
  | .addfs devname fs vnode => vfsAddfs F devname fs vnode
  | .mount devname mountfunc => vfsMount devname mountfunc
  | .unmount devname => vfsUnmount F devname
  | .swapon devname => do
    let _ ← vfsSwapon devname
  | .swapoff devname => vfsSwapoff devname

def vfslistStep (s : Vfs ρ) (e : VfslistEv ρ) : Option (Vfs ρ) := (vfslistCall F e).after s

/-- The mount function, run on the device `devname`, gives the file system `fs` for
the entry at `i`, which has none. -/
structure Vfs.Mounts (s : Vfs ρ) (devname : List UInt8) (mountfunc : ℕ → Op (FsState ρ) Errno ℕ)
    (i fs : ℕ) : Prop where
  found : s.knowndevs.findIdx? (fun kd => kd.rawname ≠ none ∧ devname = kd.name) = some i
  mounted : ∃ kd dev t, s.knowndevs[i]? = some kd ∧ kd.fs = .null ∧ kd.device = some dev ∧
    mountfunc dev { s.fs with held := true, depth := s.fs.depth + 1 } = .ok fs t

/-- A file system that is mounted brings a volume name that no other entry has. -/
def Vfs.FreshVolname (s : Vfs ρ) : VfslistEv ρ → Prop
  | .mount devname mountfunc => ∀ i fs n, s.Mounts devname mountfunc i fs → F.getvolname fs = some n →
    ∀ j kd, j ≠ i → s.knowndevs[j]? = some kd → n ∉ kd.names F
  | _ => True

end Os161
