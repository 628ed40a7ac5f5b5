import Os161.Lib.Balance
import Os161.Spec.SfsVnops
import Os161.Spec.Vfs

/-! Who owns the references to vnodes: the current directory and the boot file system
own one each, and the rest belongs to callers of the VFS layer. -/

namespace Os161

variable {ρ : Type}

/-- One reference to `v`. -/
def oneRef (v : ℕ) : ℕ → ℤ := Pi.single v 1

def ownedRef : Option ℕ → ℕ → ℤ
  | none => 0
  | some v => oneRef v

def FsState.refs (s : FsState ρ) : ℕ → ℤ := fun v => s.refcount v

/-- The references that neither `p_cwd` nor `bootfs_vnode` owns. -/
def Vfs.refs (s : Vfs ρ) : ℕ → ℤ := s.fs.refs - ownedRef s.cwd - ownedRef s.bootfsVnode

/-- An operation that hands back a vnode hands back one new reference to it, and none on
failure; the others leave the counts alone. `VOP_RECLAIM` uses up the reference that
`VOP_DECREF` passes on. -/
structure FsOps.HandsBack (F : FsOps ρ) : Prop where
  getroot : ∀ f, (F.getroot f).Adds FsState.refs oneRef 0
  lookup : ∀ v path, (F.lookup v path).Adds FsState.refs oneRef 0
  lookparent : ∀ v path buflen, (F.lookparent v path buflen).Adds FsState.refs (fun r => oneRef r.1) 0
  creat : ∀ v name excl mode, (F.creat v name excl mode).Adds FsState.refs oneRef 0
  gettype : ∀ v, (F.gettype v).Adds FsState.refs 0 0
  eachopen : ∀ v flags, (F.eachopen v flags).Adds FsState.refs 0 0
  truncate : ∀ v len, (F.truncate v len).Adds FsState.refs 0 0
  link : ∀ dir name file, (F.link dir name file).Adds FsState.refs 0 0
  remove : ∀ dir name, (F.remove dir name).Adds FsState.refs 0 0
  rename : ∀ d1 n1 d2 n2, (F.rename d1 n1 d2 n2).Adds FsState.refs 0 0
  reclaim : ∀ v s, s.refcount v = 1 →
    (F.reclaim v).wp True (fun _ t => t.refs = s.refs - oneRef v) (fun _ t => t.refs = s.refs - oneRef v) s

/-- The functions of the path layer keep the balance of references. -/
structure FsOps.Balanced (F : FsOps ρ) : Prop where
  lookup : ∀ path, (vfsLookup F path).Adds Vfs.refs oneRef 0
  lookparent : ∀ path buflen, (vfsLookparent F path buflen).Adds Vfs.refs (fun r => oneRef r.1) 0
  opens : ∀ path flags mode, (vfsOpen F path flags mode).Adds Vfs.refs oneRef 0
  remove : ∀ path, (vfsRemove F path).Adds Vfs.refs 0 0
  rename : ∀ oldpath newpath, (vfsRename F oldpath newpath).Adds Vfs.refs 0 0
  link : ∀ oldpath newpath, (vfsLink F oldpath newpath).Adds Vfs.refs 0 0
  chdir : ∀ path, (vfsChdir F path).Adds Vfs.refs 0 0
  setcurdir : ∀ dir, (vfsSetcurdir F dir).Adds Vfs.refs 0 0
  clearcurdir : (vfsClearcurdir F).Adds Vfs.refs 0 0
  setbootfs : ∀ fsname, (vfsSetbootfs F fsname).Adds Vfs.refs 0 0

/-- The references to the vnodes of an SFS volume. -/
def Sfs.refs (s : Sfs) : ℕ → ℤ := fun ino =>
  match s.vnode ino with
  | some v => v.refcount
  | none => 0

/-- In state `s` the operation hands back one new reference on success and none on
failure. -/
def SfsHandsBack {α : Type} (x : SfsM α) (ok : α → ℕ → ℤ) (s : Sfs) : Prop :=
  x.wp True (fun a t => t.refs = s.refs + ok a) (fun _ t => t.refs = s.refs) s

def Sfs.inUse (s : Sfs) (block : ℕ) : Prop := block < s.nblocks ∧ s.freemap block = true

/-- Inode `ino` is to be had, in memory or from the disk, and is not a directory:
`sfs_loadvnode` finds the blocks of the inodes that it passes in the table allocated, and
memory and a read in eleven attempts if it needs them. -/
def Sfs.NotDir (s : Sfs) (ino : ℕ) : Prop :=
  (∀ v ∈ s.vnodes.takeWhile (fun v => v.ino ≠ ino), s.inUse v.ino) ∧ s.inUse ino ∧
  match s.vnode ino with
  | some sv => sv.i.sfiType ≠ sfsTypeDir
  | none => (∀ okay ∈ s.kmem.take 2, okay = true) ∧ ino < s.dev.dBlocks ∧
    ¬ List.replicate 11 .media <+: s.dev.outcomes ∧ (s.dev.sector ino).sfiType = sfsTypeFile

end Os161
