import Os161.Spec.Vfs
import Os161.Spec.SyncErrors

/-! The table of devices over file systems that may answer anything: which file
system is attached where, and which have been unmounted. -/

namespace Os161

/-- What the file systems keep here. -/
structure FsScript where
  /-- those whose unmount has returned 0, and that have been destroyed by it -/
  gone : List ℕ
  /-- what the next operations return, an error or 0; those after them return 0 -/
  results : List (Option Errno)

/-- An operation on the file system `f`. It must not have been destroyed. -/
def answer (f : ℕ) : Op (FsState FsScript) Errno Unit := do
  let s ← Op.get
  Op.kassert (f ∉ s.rest.gone)
  match s.rest.results with
  | [] => pure ()
  | none :: results => Op.set { s with rest := { s.rest with results := results } }
  | some e :: results => do
    Op.set { s with rest := { s.rest with results := results } }
    Op.fail e

/-- File systems with these volume names and root vnodes. Only the operations that
`vfslist.c` makes use of do anything. -/
def scriptOps (volname : ℕ → Option (List UInt8)) (root : ℕ → ℕ) : FsOps FsScript where
  vnFs _ := none
  getvolname := volname
  getroot f := do
    answer f
    pure (root f)
  sync := answer
  unmount f := do
    answer f
    Op.modify fun s => { s with rest := { s.rest with gone := f :: s.rest.gone } }
  reclaim _ := Op.panic
  eachopen _ _ := Op.panic
  gettype _ := Op.panic
  truncate _ _ := Op.panic
  namefile _ := Op.panic
  creat _ _ _ _ := Op.panic
  symlink _ _ _ := Op.panic
  readlink _ := Op.panic
  mkdir _ _ _ := Op.panic
  link _ _ _ := Op.panic
  remove _ _ := Op.panic
  rmdir _ _ := Op.panic
  rename _ _ _ _ := Op.panic
  lookup _ _ := Op.panic
  lookparent _ _ _ := Op.panic
  uiomove _ := Op.panic

/-- A mount function that returns this. -/
def mountReturning (result : Except Errno ℕ) (_dev : ℕ) : Op (FsState FsScript) Errno ℕ :=
  match result with
  | .ok f => pure f
  | .error e => Op.fail e

inductive MountEv where
  | adddev (devname : List UInt8) (dev : ℕ) (mountable : Bool) (vnode : ℕ)
  | addfs (devname : List UInt8) (fs vnode : ℕ)
  | mount (devname : List UInt8) (result : Except Errno ℕ)
  | unmount (devname : List UInt8)
  | swapon (devname : List UInt8)
  | swapoff (devname : List UInt8)
  | unmountall
  | sync
  | getroot (devname : List UInt8)

/-- `vfs_getroot` as its callers call it, with `vfs_biglock` held. -/
def lockedGetroot (F : FsOps FsScript) (devname : List UInt8) : VfsM FsScript ℕ := do
  vfsBiglockAcquire
  let result ← Op.attempt (vfsGetroot F devname)
  vfsBiglockRelease
  returns result

def mountCall (F : FsOps FsScript) : MountEv → VfsM FsScript Unit
  | .adddev devname dev mountable vnode => vfsAdddev F devname dev mountable vnode
  | .addfs devname fs vnode => vfsAddfs F devname fs vnode
  | .mount devname result => vfsMount devname (mountReturning result)
  | .unmount devname => vfsUnmount F devname
  | .swapon devname => do
    let _ ← vfsSwapon devname
  | .swapoff devname => vfsSwapoff devname
  | .unmountall => vfsUnmountall F
  | .sync => vfsSync F
  | .getroot devname => do
    let _ ← lockedGetroot F devname

def mountStep (F : FsOps FsScript) (s : Vfs FsScript) (e : MountEv) : Option (Vfs FsScript) := (mountCall F e).after s

/-- The state after `vfs_bootstrap`. -/
def Vfs.boot (refcount : ℕ → ℕ) (kmem : List Bool) (results : List (Option Errno)) : Vfs FsScript where
  fs := { held := false, depth := 0, refcount := refcount, kmem := kmem, rest := { gone := [], results := results } }
  knowndevs := []
  bootfsVnode := none
  cwd := none

/-- No file system is attached to two devices. -/
def AttachedOnce (devs : List Knowndev) : Prop :=
  ∀ (i j : ℕ) (a b : Knowndev) (f : ℕ), devs[i]? = some a → devs[j]? = some b → a.fs = .fs f → b.fs = .fs f → i = j

/-- No file system that is attached has been unmounted. -/
def AttachedLive (gone : List ℕ) (devs : List Knowndev) : Prop :=
  ∀ kd ∈ devs, ∀ f ∈ gone, kd.fs ≠ .fs f

/-- The file system that a call brings with it. -/
def MountEv.brings : MountEv → Option ℕ
  | .addfs _ fs _ => some fs
  | .mount _ (.ok fs) => some fs
  | _ => none

/-- A file system that the call brings is not attached to a device, and has not been unmounted. -/
def Vfs.BringsNew (s : Vfs FsScript) (e : MountEv) : Prop :=
  ∀ f ∈ e.brings, f ∉ s.fs.rest.gone ∧ ∀ kd ∈ s.knowndevs, kd.fs ≠ .fs f

instance (s : Vfs FsScript) (e : MountEv) : Decidable (s.BringsNew e) :=
  inferInstanceAs (Decidable (∀ f ∈ e.brings, f ∉ s.fs.rest.gone ∧ ∀ kd ∈ s.knowndevs, kd.fs ≠ .fs f))

/-- If the call returns an error, every `kd_fs` is as it was. -/
def Vfs.ErrorKeeps (F : FsOps FsScript) (s : Vfs FsScript) (e : MountEv) : Prop :=
  ∀ err t, mountCall F e s = .err err t → t.knowndevs.map Knowndev.fs = s.knowndevs.map Knowndev.fs

/-- `sfs_unmount`; what `sfs_fs_destroy` checks comes last. -/
def sfsUnmount : Op SfsSuper Errno Unit := do
  let s ← Op.get
  if 0 < s.fs.vnodes.length then Op.fail .ebusy
  else do
    Op.kassert (s.superdirty = false)
    Op.kassert (s.fs.freemapdirty = false)
    Op.kassert (s.fs.vnodes.length = 0)

end Os161
