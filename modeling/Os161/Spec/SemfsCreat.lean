import Os161.Lib.Blocks
import Os161.Spec.SemfsTable
import Os161.Spec.Synch
import Os161.Spec.Uio

/-! `semfs_creat` with every allocation it makes, down to those of `lock_create`,
`cv_create` and the arrays. `okay` says for each attempt in turn whether memory is found.
The storage of an array belongs to the array, and is not counted among the blocks. The call
is by itself: nobody else is at the tables. -/

namespace Os161

/-- A lock is three blocks. -/
structure LockBlocks where
  lock : ℕ
  name : ℕ
  wchan : ℕ

/-- A condition variable is two. -/
structure CvBlocks where
  cv : ℕ
  name : ℕ

/-- `struct semfs_sem` -/
structure SemBox where
  block : ℕ
  lock : LockBlocks
  cv : CvBlocks
  hasvnode : Bool
  linked : Bool

/-- `struct semfs_direntry` -/
structure SemDent where
  block : ℕ
  nameBlock : ℕ
  name : List UInt8
  semnum : ℕ

/-- `struct semfs_vnode`; its block is its address. -/
structure SemVn where
  block : ℕ
  semnum : ℕ
  refcount : ℕ

/-- The arrays come with their `max`. -/
structure SemfsFs (T : Type) where
  dirlock : Lock T
  tablelock : Lock T
  dents : List (Option SemDent)
  dentsMax : ℕ
  sems : List (Option SemBox)
  semsMax : ℕ
  vnodes : List SemVn
  vnodesMax : ℕ
  heap : Blocks

abbrev BlocksM := Op Blocks Errno

abbrev SemfsM (T : Type) := Op (SemfsFs T) Errno

/-- `SEMFS_ROOTDIR` -/
def semfsRootdir : ℕ := 0xffffffff

/-! ### Objects -/

section
variable (okay : ℕ → Bool)

/-- An object, and the copy that `kstrdup` makes of its name: what `lock_create`, `cv_create`
and `semfs_direntry_create` begin with. -/
def kmallocNamed : BlocksM (Option (ℕ × ℕ)) := do
  match ← Blocks.alloc okay with
  | none => pure none
  | some object =>
    match ← Blocks.alloc okay with
    | none => do
      Blocks.free object
      pure none
    | some name => pure (some (object, name))

def LockBlocks.create : BlocksM (Option LockBlocks) := do
  match ← kmallocNamed okay with
  | none => pure none
  | some (lock, name) =>
    match ← Blocks.alloc okay with
    | none => do
      Blocks.free name
      Blocks.free lock
      pure none
    | some wchan => pure (some ⟨lock, name, wchan⟩)

def LockBlocks.destroy (lock : LockBlocks) : BlocksM Unit := do
  Blocks.free lock.wchan
  Blocks.free lock.name
  Blocks.free lock.lock

def CvBlocks.create : BlocksM (Option CvBlocks) := do
  match ← kmallocNamed okay with
  | none => pure none
  | some (cv, name) => pure (some ⟨cv, name⟩)

def CvBlocks.destroy (cv : CvBlocks) : BlocksM Unit := do
  Blocks.free cv.name
  Blocks.free cv.cv

def semfsSemCreate : BlocksM (Option SemBox) := do
  match ← Blocks.alloc okay with
  | none => pure none
  | some sem =>
    match ← LockBlocks.create okay with
    | none => do
      Blocks.free sem
      pure none
    | some lock =>
      match ← CvBlocks.create okay with
      | none => do
        lock.destroy
        Blocks.free sem
        pure none
      | some cv => pure (some ⟨sem, lock, cv, false, false⟩)

def semfsSemDestroy (sem : SemBox) : BlocksM Unit := do
  sem.cv.destroy
  sem.lock.destroy
  Blocks.free sem.block

def semfsDirentryCreate (name : List UInt8) (semnum : ℕ) : BlocksM (Option SemDent) := do
  match ← kmallocNamed okay with
  | none => pure none
  | some (dent, copy) => pure (some ⟨dent, copy, name, semnum⟩)

def semfsDirentryDestroy (dent : SemDent) : BlocksM Unit := do
  Blocks.free dent.nameBlock
  Blocks.free dent.block

/-- The loop of `array_preallocate`. Each turn makes `newmax` larger, so that `num` turns
are enough. -/
def arrayNewmax (num : ℕ) : ℕ → ℕ → ℕ
  | 0, newmax => newmax
  | turns + 1, newmax =>
    if newmax < num then arrayNewmax num turns (if newmax = 0 then 4 else newmax * 2) else newmax

/-- `array_preallocate`: the new `max`, or `none` for `ENOMEM`. -/
def arrayPreallocate (num max : ℕ) : BlocksM (Option ℕ) := do
  if max < num then do
    let b ← Op.get
    Op.set { b with tries := b.tries + 1 }
    pure (if okay b.tries = true then some (arrayNewmax num num max) else none)
  else pure (some max)

end

/-! ### Tables -/

section
variable {T : Type}

/-- What is done to the heap. -/
def onHeap {α : Type} (x : BlocksM α) : SemfsM T α := x.zoom SemfsFs.heap fun s h => { s with heap := h }

def acquireDir (cur : T) : SemfsM T Unit := Op.modify fun s => { s with dirlock := lockAcquire s.dirlock cur }

def releaseDir : SemfsM T Unit := do
  let s ← Op.get
  match lockRelease s.dirlock with
  | none => Op.panic
  | some l => Op.set { s with dirlock := l }

def acquireTable (cur : T) : SemfsM T Unit := Op.modify fun s => { s with tablelock := lockAcquire s.tablelock cur }

def releaseTable : SemfsM T Unit := do
  let s ← Op.get
  match lockRelease s.tablelock with
  | none => Op.panic
  | some l => Op.set { s with tablelock := l }

/-- The entry of that name. -/
def findName (dents : List (Option SemDent)) (name : List UInt8) : Option SemDent :=
  dents.findSome? fun d => d.bind fun d => if d.name = name then some d else none

end

section
variable {T : Type} (okay : ℕ → Bool) (cur : T)

def semfsSemInsert [DecidableEq T] (sem : SemBox) : SemfsM T ℕ := do
  let s ← Op.get
  Op.kassert (lockDoIHold s.tablelock cur = true)
  if s.sems.length = semfsRootdir then Op.fail .enospc
  else if firstHole s.sems < s.sems.length then do
    Op.set { s with sems := setSlot s.sems (firstHole s.sems) sem }
    pure (firstHole s.sems)
  else
    match ← onHeap (arrayPreallocate okay (s.sems.length + 1) s.semsMax) with
    | none => Op.fail .enomem
    | some max => do
      Op.modify fun s => { s with sems := s.sems ++ [some sem], semsMax := max }
      pure s.sems.length

/-- `semfs_getvnode` -/
def semfsGetvnode (semnum : ℕ) : SemfsM T ℕ := do
  acquireTable cur
  let s ← Op.get
  match s.vnodes.findIdx? fun v => v.semnum = semnum with
  | some i => do
    Op.set { s with vnodes := s.vnodes.modify i fun v => { v with refcount := v.refcount + 1 } }
    releaseTable
    pure ((s.vnodes[i]?.map SemVn.block).getD 0)
  | none =>
    match ← onHeap (Blocks.alloc okay) with
    | none => do
      releaseTable
      Op.fail .enomem
    | some semv =>
      match ← onHeap (arrayPreallocate okay (s.vnodes.length + 1) s.vnodesMax) with
      | none => do
        onHeap (Blocks.free semv)
        releaseTable
        Op.fail .enomem
      | some max => do
        Op.modify fun s => { s with vnodes := s.vnodes ++ [⟨semv, semnum, 1⟩], vnodesMax := max }
        if semnum = semfsRootdir then do
          releaseTable
          pure semv
        else
          match slotAt s.sems semnum with
          | none => Op.panic
          | some sem => do
            Op.kassert (sem.hasvnode = false)
            Op.modify fun s => { s with sems := setSlot s.sems semnum { sem with hasvnode := true } }
            releaseTable
            pure semv

/-! ### `semfs_creat` -/

/-- The end of the labels. With `result` at 0 the caller is told of success, and
`*resultvn` has not been set. -/
def failUnlock (result : Option Errno) : SemfsM T (Option ℕ) := do
  releaseDir
  match result with
  | some e => Op.fail e
  | none => pure none

def failUncreate (sem : SemBox) (result : Option Errno) : SemfsM T (Option ℕ) := do
  onHeap (semfsSemDestroy sem)
  failUnlock result

def failUninsert (sem : SemBox) (semnum : ℕ) (result : Option Errno) : SemfsM T (Option ℕ) := do
  acquireTable cur
  Op.modify fun s => { s with sems := clearSlot s.sems semnum }
  releaseTable
  failUncreate sem result

def failUndent (sem : SemBox) (semnum : ℕ) (dent : SemDent) (result : Option Errno) : SemfsM T (Option ℕ) := do
  onHeap (semfsDirentryDestroy dent)
  failUninsert cur sem semnum result

def failUndir (sem : SemBox) (semnum : ℕ) (dent : SemDent) (empty : ℕ) (result : Option Errno) :
    SemfsM T (Option ℕ) := do
  Op.modify fun s => { s with dents := clearSlot s.dents empty }
  failUndent cur sem semnum dent result

/-- The entry goes into a hole, or to the end; `none` for `ENOMEM`. -/
def addDent (empty : ℕ) (dent : SemDent) : SemfsM T (Option Unit) := do
  let s ← Op.get
  if empty < s.dents.length then do
    Op.set { s with dents := setSlot s.dents empty dent }
    pure (some ())
  else
    match ← onHeap (arrayPreallocate okay (s.dents.length + 1) s.dentsMax) with
    | none => pure none
    | some max => do
      Op.modify fun s => { s with dents := s.dents ++ [some dent], dentsMax := max }
      pure (some ())

/-- From the vnode on. -/
def creatVnode (sem : SemBox) (semnum : ℕ) (dent : SemDent) (empty : ℕ) : SemfsM T (Option ℕ) := do
  match ← (semfsGetvnode okay cur semnum).attempt with
  | .error e => failUndir cur sem semnum dent empty (some e)
  | .ok vn => do
    -- `sem->sems_linked = true`
    Op.modify fun s => { s with sems := s.sems.modify semnum fun o => o.map fun o => { o with linked := true } }
    releaseDir
    pure (some vn)

/-- From the directory entry on. -/
def creatDent (name : List UInt8) (sem : SemBox) (semnum empty : ℕ) : SemfsM T (Option ℕ) := do
  match ← onHeap (semfsDirentryCreate okay name semnum) with
  -- `result` is 0 from `semfs_sem_insert`
  | none => failUninsert cur sem semnum none
  | some dent =>
    match ← addDent okay empty dent with
    | none => failUndent cur sem semnum dent (some .enomem)
    | some () => creatVnode okay cur sem semnum dent empty

/-- From the semaphore on. -/
def creatSem [DecidableEq T] (name : List UInt8) (empty : ℕ) : SemfsM T (Option ℕ) := do
  match ← onHeap (semfsSemCreate okay) with
  | none => failUnlock (some .enomem)
  | some sem => do
    acquireTable cur
    let inserted ← (semfsSemInsert okay cur sem).attempt
    releaseTable
    match inserted with
    | .error e => failUncreate sem (some e)
    | .ok semnum => creatDent okay cur name sem semnum empty

/-- What is returned is `*resultvn`, if it was set. -/
def semfsCreat [DecidableEq T] (name : List UInt8) (excl : Bool) : SemfsM T (Option ℕ) := do
  if semfsDots name then Op.fail .eexist
  else do
    acquireDir cur
    let s ← Op.get
    match findName s.dents name with
    | some dent =>
      if excl = true then do
        releaseDir
        Op.fail .eexist
      else do
        let got ← (semfsGetvnode okay cur dent.semnum).attempt
        releaseDir
        match got with
        | .error e => Op.fail e
        | .ok vn => pure (some vn)
    | none => creatSem okay cur name (firstHole s.dents)

/-! ### What is to hold -/

namespace SemfsFs

variable (s : SemfsFs T)

/-- The names, the semaphores and the vnodes are as before, and what was allocated is
released. -/
structure Unchanged (s' : SemfsFs T) : Prop where
  dents : ∀ i, slotAt s'.dents i = slotAt s.dents i
  sems : ∀ n, slotAt s'.sems n = slotAt s.sems n
  vnodes : s'.vnodes = s.vnodes
  live : s'.heap.live = s.heap.live

/-- `vn` is a referenced vnode of the semaphore of that name. -/
def Gives (name : List UInt8) (vn : ℕ) : Prop :=
  ∃ d v, some d ∈ s.dents ∧ d.name = name ∧ v ∈ s.vnodes ∧ v.block = vn ∧ v.semnum = d.semnum ∧ 0 < v.refcount

end SemfsFs

/-- `semfs_creat` succeeds with a vnode, and then no allocation failed, or it fails and
leaves nothing behind. -/
def CreatRight [DecidableEq T] (name : List UInt8) (excl : Bool) (s : SemfsFs T) : Prop :=
  (semfsCreat okay cur name excl).wp False
    (fun vn s' => (∃ p, vn = some p ∧ s'.Gives name p) ∧ ∀ k, s.heap.tries ≤ k → k < s'.heap.tries → okay k = true)
    (fun _ s' => s.Unchanged s') s

namespace SemfsFs

/-- The names have their semaphores, these know of their vnodes, and the locks are free. -/
structure Good (s : SemfsFs T) : Prop where
  dirlock : s.dirlock.gate = ⟨1, [], []⟩
  tablelock : s.tablelock.gate = ⟨1, [], []⟩
  entries : ∀ d, some d ∈ s.dents → ∃ o, slotAt s.sems d.semnum = some o
  hasvnode : ∀ n o, slotAt s.sems n = some o → o.hasvnode = true → ∃ v ∈ s.vnodes, v.semnum = n

/-- The attempts that `semfs_sem_insert` makes. -/
def slotTries (s : SemfsFs T) : ℕ :=
  if firstHole s.sems < s.sems.length then 0 else if s.semsMax < s.sems.length + 1 then 1 else 0

/-- The name is new and a semaphore is made for it. -/
structure Inserts (okay : ℕ → Bool) (name : List UInt8) (s : SemfsFs T) : Prop where
  dots : ¬ semfsDots name
  new : findName s.dents name = none
  got : Blocks.AllGot okay s.heap.tries 6

/-- The semaphore gets a number, and then there is no memory for the directory entry or for
its copy of the name. -/
structure DentFails (okay : ℕ → Bool) (s : SemfsFs T) : Prop where
  number : s.sems.length ≠ semfsRootdir
  got : Blocks.AllGot okay (s.heap.tries + 6) s.slotTries
  fails : ¬ Blocks.AllGot okay (s.heap.tries + 6 + s.slotTries) 2

/-- A semaphore is made by a thread that did not create `semfs_tablelock`, or its directory
entry is not made. -/
def Wrong (okay : ℕ → Bool) (cur : T) (name : List UInt8) (s : SemfsFs T) : Prop :=
  s.Inserts okay name ∧ (cur ≠ s.tablelock.lockThread ∨ s.DentFails okay)

/-- As thread 0 makes it. -/
def fresh : SemfsFs ℕ where
  dirlock := lockCreate 0
  tablelock := lockCreate 0
  dents := []
  dentsMax := 0
  sems := []
  semsMax := 0
  vnodes := []
  vnodesMax := 0
  heap := ⟨[], 0, 0⟩

end SemfsFs

end

end Os161
