import Os161.Spec.SfsVnops
import Os161.Spec.Vfs

/-! `getdevice` as the scanner it is: it reads `path` byte by byte, ends the device name in
place and hands back a position. The buffer ends with the terminator, so that to read behind
it is a panic here. -/

namespace Os161

variable {ρ α : Type}

/-- A call that has a path in a buffer. -/
structure PathCall (ρ : Type) where
  vfs : Vfs ρ
  path : List UInt8

abbrev PathM (ρ α : Type) : Type := Op (PathCall ρ) Errno α

def onVfs (x : VfsM ρ α) : PathM ρ α := x.zoom PathCall.vfs fun s v => { s with vfs := v }

/-- `path[i]` -/
def readPath (i : ℕ) : PathM ρ UInt8 := do
  let s ← Op.get
  match s.path[i]? with
  | none => Op.panic
  | some c => pure c

/-- The loop that looks for the first colon or slash, from `i` on: `colon` and `slash`. -/
def findFirst : ℕ → ℕ → PathM ρ (ℤ × ℤ)
  | 0, _ => Op.panic
  | turns + 1, i => do
    let c ← readPath i
    if c = 0 then pure (-1, -1)
    else if c = 58 then pure (i, -1)
    else if c = 47 then pure (-1, i)
    else findFirst turns (i + 1)

/-- `while (path[p+1]=='/') p++` -/
def bumpSlashes : ℕ → ℕ → PathM ρ ℕ
  | 0, _ => Op.panic
  | turns + 1, p => do
    let c ← readPath (p + 1)
    if c = 47 then bumpSlashes turns (p + 1) else pure p

/-- The vnode that `/path` starts from. -/
def bootRoot : VfsM ρ ℕ := do
  let s ← Op.get
  match s.bootfsVnode with
  | none => Op.fail .enoent
  | some v => do
    vopIncref v
    pure v

/-- The vnode that `:path` starts from. -/
def currentRoot (F : FsOps ρ) : VfsM ρ ℕ := do
  let vn ← vfsGetcurdir
  match F.vnFs vn with
  | none => Op.panic
  | some f => do
    let result ← Op.attempt (callFs (F.getroot f))
    vopDecref F vn
    returns result

/-- What `getdevice` does once the loop has found `colon` and `slash`. -/
def getdeviceFrom (F : FsOps ρ) (colon slash : ℤ) : PathM ρ (ℕ × ℕ) := do
  let s ← Op.get
  if colon < 0 ∧ slash ≠ 0 then do
    let startvn ← onVfs vfsGetcurdir
    pure (0, startvn)
  else if 0 < colon then do
    Op.modify fun s => { s with path := s.path.set colon.toNat 0 }
    let colon ← bumpSlashes s.path.length colon.toNat
    let s ← Op.get
    let startvn ← onVfs (vfsGetroot F (s.path.takeWhile (· ≠ 0)))
    pure (colon + 1, startvn)
  else do
    Op.kassert (colon = 0 ∨ slash = 0)
    let c ← readPath 0
    let startvn ← if c = 47 then onVfs bootRoot else do
      Op.kassert (c = 58)
      onVfs (currentRoot F)
    let p ← bumpSlashes s.path.length 0
    pure (p + 1, startvn)

/-- `getdevice`: the position of `*subpath` in the buffer, and `*startvn`. -/
def getdeviceScan (F : FsOps ρ) : PathM ρ (ℕ × ℕ) := do
  onVfs assertBiglock
  let s ← Op.get
  let (colon, slash) ← findFirst s.path.length 0
  getdeviceFrom F colon slash

/-! ### The syntax of paths -/

/-- What a path is looked up from. -/
inductive PathStart where
  | device (name : List UInt8)
  | boot
  | current
  | relative

/-- With the first colon or slash at `p`. -/
def pathStart (path : List UInt8) : PathStart :=
  match path.findIdx? fun c => c = 58 ∨ c = 47 with
  | none => .relative
  | some p =>
    if path[p]? = some 58 then (if p = 0 then .current else .device (path.take p))
    else if p = 0 then .boot else .relative

/-- The part of the path that is looked up from there. -/
def subpath (path : List UInt8) : List UInt8 :=
  match pathStart path with
  | .relative => path
  | .device name => (path.drop (name.length + 1)).dropWhile (· = 47)
  | _ => (path.drop 1).dropWhile (· = 47)

/-- The path as the call leaves it: the colon behind a device name becomes a null. -/
def markedPath (path : List UInt8) : List UInt8 :=
  match pathStart path with
  | .device name => path.set name.length 0
  | _ => path

def PathStart.vnode (F : FsOps ρ) : PathStart → VfsM ρ ℕ
  | .device name => vfsGetroot F name
  | .boot => bootRoot
  | .current => currentRoot F
  | .relative => vfsGetcurdir

/-- `getdevice` splits the path as the syntax says. In every outcome the buffer is that of
`markedPath`, and on success `*subpath` points to the rest. -/
def SplitsPath (F : FsOps ρ) (s : Vfs ρ) (path : List UInt8) : Prop :=
  ∃ k, (markedPath path ++ [0]).drop k = subpath path ++ [0] ∧
    getdeviceScan F ⟨s, path ++ [0]⟩ =
      Res.map (fun t => ⟨t, markedPath path ++ [0]⟩) ((do
        assertBiglock
        let startvn ← (pathStart path).vnode F
        pure (k, startvn) : VfsM ρ (ℕ × ℕ)) s)

/-! ### What `vfs_setbootfs` is for -/

/-- The root of the file system that is named `name`, looked up as `vfs_lookup` does. -/
def rootNamed (F : FsOps ρ) (name : List UInt8) : VfsM ρ ℕ := do
  vfsBiglockAcquire
  let result ← Op.attempt (vfsGetroot F name)
  vfsBiglockRelease
  returns result

/-- `vfs_chdir` behind the lookup. -/
def chdirTo (F : FsOps ρ) (lookup : VfsM ρ ℕ) : VfsM ρ Unit := do
  let vn ← lookup
  let result ← Op.attempt (vfsSetcurdir F vn)
  vopDecref F vn
  returns result

/-- `vfs_setbootfs` behind the checks of the name. -/
def bootTo (F : FsOps ρ) (chdir : VfsM ρ Unit) : VfsM ρ Unit := do
  match ← Op.attempt chdir with
  | .error e => do
    vfsBiglockRelease
    Op.fail e
  | .ok _ => do
    match ← Op.attempt vfsGetcurdir with
    | .error e => do
      vfsBiglockRelease
      Op.fail e
    | .ok newguy => do
      changeBootfs F (some newguy)
      vfsBiglockRelease

/-- Boot from the file system that is named exactly `name`. -/
def bootNamed (F : FsOps ρ) (name : List UInt8) : VfsM ρ Unit := do
  vfsBiglockAcquire
  bootTo F (chdirTo F (rootNamed F name))

/-- A name and the name with a colon behind it are the same to `vfs_setbootfs`, both select
the file system of exactly that name, and a colon that is not at the end is refused. -/
def SetbootfsRight (name : List UInt8) : Prop :=
  ∀ (ρ : Type) (F : FsOps ρ) (s : Vfs ρ),
    (58 ∉ name →
      vfsSetbootfs F name s = vfsSetbootfs F (name ++ [58]) s ∧ vfsSetbootfs F name s = bootNamed F name s) ∧
    (58 ∈ name.dropLast → ∃ t, vfsSetbootfs F name s = .err .einval t)

end Os161
