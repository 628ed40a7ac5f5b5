import Os161.Lib.Refs
import Os161.Lib.Run
import Os161.Lib.Slots

/-! The directory and the tables of `kern/fs/semfs`: making, finding and removing
semaphores, and the reclaim of their vnodes. `semfs_dirlock` covers the directory and
`semfs_tablelock` the tables of semaphores and vnodes. The flag `sems_linked` is written
under `semfs_dirlock` and read by `semfs_reclaim` under `semfs_tablelock`;
`sems_hasvnode` is written under `semfs_tablelock` and read by `semfs_remove` without
it; each of these accesses is a step. What a call does under one lock to what that lock
covers is one step; which thread makes the call does not matter. -/

namespace Os161

/-- `struct semfs_sem`, and how often it was destroyed. -/
structure SemObj where
  linked : Bool
  hasvnode : Bool
  destroyed : ℕ
  deriving DecidableEq

/-- `semfs_sem_create` -/
def SemObj.create : SemObj := ⟨false, false, 0⟩

structure SemDirent where
  name : List UInt8
  semnum : ℕ
  deriving DecidableEq

/-- What the call with `semfs_dirlock` does next. `i` is the slot of a directory entry,
`n` a semaphore number, `o` the semaphore and `v` a vnode. -/
inductive SemDirPc where
  /-- `semfs_creat`: go through the directory -/
  | creat (name : List UInt8) (excl : Bool)
  /-- `semfs_sem_insert` -/
  | insert (name : List UInt8) (o : ℕ)
  /-- make the directory entry -/
  | dent (name : List UInt8) (o n : ℕ)
  /-- `semfs_getvnode` for the new semaphore -/
  | vnode (i o n : ℕ)
  /-- `sems_linked = true` -/
  | link (i o n v : ℕ)
  /-- the labels `fail_undir`, `fail_uninsert` and `fail_uncreate` -/
  | undir (i o n : ℕ)
  | uninsert (o n : ℕ)
  | uncreate (o : ℕ)
  /-- `semfs_lookup`: go through the directory -/
  | lookup (name : List UInt8)
  /-- `semfs_getvnode` for an entry that was found -/
  | getvnode (n : ℕ)
  /-- `semfs_remove`: go through the directory -/
  | remove (name : List UInt8)
  /-- `semfs_getsembynum` -/
  | getsem (i n : ℕ)
  /-- `sems_linked = false` -/
  | unlink (i n o : ℕ)
  /-- look at `sems_hasvnode` -/
  | test (i n o : ℕ)
  /-- take the semaphore out of the table -/
  | clear (i n o : ℕ)
  | destroy (i n o : ℕ)
  /-- take the entry out of the directory -/
  | undent (i n : ℕ)
  /-- release the lock; the reference is the caller's now -/
  | release (v : Option ℕ)
  deriving DecidableEq

/-- What the `semfs_reclaim` with `semfs_tablelock` does next. -/
inductive SemTablePc where
  /-- look at `vn_refcount` -/
  | check (v n : ℕ)
  /-- `sems_hasvnode = false` -/
  | unhas (v n : ℕ)
  /-- look at `sems_linked` -/
  | linked (v n o : ℕ)
  /-- take the semaphore out of the table and destroy it -/
  | clear (v n o : ℕ)
  /-- release the lock and destroy the vnode -/
  | release (v : ℕ)
  deriving DecidableEq

structure Semfs where
  dents : List (Option SemDirent)
  sems : List (Option ℕ)
  obj : ℕ → SemObj
  /-- the number of semaphores made so far -/
  created : ℕ
  vnodes : List ℕ
  /-- `semv_semnum` -/
  semnum : ℕ → ℕ
  refs : ℕ → Refs
  /-- the number of vnodes made so far -/
  made : ℕ
  dir : Option SemDirPc
  table : Option SemTablePc

/-- After `semfs_create`. -/
def Semfs.create : Semfs where
  dents := []
  sems := []
  obj _ := SemObj.create
  created := 0
  vnodes := []
  semnum _ := 0
  refs _ := .none
  made := 0
  dir := none
  table := none

inductive SemTableEv where
  | creat (name : List UInt8) (excl : Bool)
  | lookup (name : List UInt8)
  | remove (name : List UInt8)
  /-- the call with `semfs_dirlock` goes on; `okay` is whether memory is found -/
  | dir (okay : Bool)
  /-- `VOP_INCREF` by a thread that holds a reference -/
  | incref (v : ℕ)
  /-- `VOP_DECREF` -/
  | decref (v : ℕ)
  /-- `semfs_reclaim` takes `semfs_tablelock` -/
  | reclaim (v : ℕ)
  /-- it goes on -/
  | table

namespace Semfs

variable (s : Semfs)

def goDir (pc : SemDirPc) : Semfs := { s with dir := some pc }

def goTable (pc : SemTablePc) : Semfs := { s with table := some pc }

def setObj (o : ℕ) (f : SemObj → SemObj) : Semfs := { s with obj := Function.update s.obj o (f (s.obj o)) }

def setRefs (v : ℕ) (r : Refs) : Semfs := { s with refs := Function.update s.refs v r }

/-- `semfs_sem_destroy` -/
def destroySem (o : ℕ) : Semfs := s.setObj o fun x => { x with destroyed := x.destroyed + 1 }

/-- The entry of that name, with its slot. -/
def findDent (name : List UInt8) : Option (ℕ × SemDirent) :=
  (List.range s.dents.length).findSome? fun i =>
    (slotAt s.dents i).bind fun d => if d.name = name then some (i, d) else none

/-- `semfs_getvnode`, which hands its vnode to `next`, or goes to `fail`. The assertions
on the semaphore end the run. -/
def getvnode (n : ℕ) (okay : Bool) (next : ℕ → SemDirPc) (fail : SemDirPc) : Option Semfs :=
  match s.vnodes.find? fun v => s.semnum v = n with
  | some v => some ((s.setRefs v (s.refs v).incref).goDir (next v))
  | none =>
    if okay = true then
      match slotAt s.sems n with
      | none => none
      | some o =>
        if (s.obj o).hasvnode = true then none
        else some (({ s.setRefs s.made .new with
            vnodes := s.vnodes ++ [s.made]
            semnum := Function.update s.semnum s.made n
            made := s.made + 1 }.setObj o fun x => { x with hasvnode := true }).goDir (next s.made))
    else some (s.goDir fail)

/-- The next step of the call with `semfs_dirlock`. -/
def dirStep (okay : Bool) : SemDirPc → Option Semfs
  | .creat name excl =>
    match s.findDent name with
    | some (_, d) => some (s.goDir (if excl = true then .release none else .getvnode d.semnum))
    | none =>
      if okay = true then
        some ({ s with obj := Function.update s.obj s.created SemObj.create, created := s.created + 1 }.goDir
          (.insert name s.created))
      else some (s.goDir (.release none))
  | .insert name o =>
    if s.table ≠ none then none
    -- `ENOSPC`, or no memory to grow the array
    else if s.sems.length = 4294967295 ∨ firstHole s.sems = s.sems.length ∧ okay = false then
      some (s.goDir (.uncreate o))
    else some ({ s with sems := setSlot s.sems (firstHole s.sems) o }.goDir (.dent name o (firstHole s.sems)))
  | .dent name o n =>
    if okay = true then
      some ({ s with dents := setSlot s.dents (firstHole s.dents) ⟨name, n⟩ }.goDir (.vnode (firstHole s.dents) o n))
    else some (s.goDir (.uninsert o n))
  | .vnode i o n => if s.table ≠ none then none else s.getvnode n okay (.link i o n) (.undir i o n)
  | .link _ o _ v => some ((s.setObj o fun x => { x with linked := true }).goDir (.release (some v)))
  | .undir i o n => some ({ s with dents := clearSlot s.dents i }.goDir (.uninsert o n))
  | .uninsert o n =>
    if s.table ≠ none then none else some ({ s with sems := clearSlot s.sems n }.goDir (.uncreate o))
  | .uncreate o => some ((s.destroySem o).goDir (.release none))
  | .lookup name =>
    match s.findDent name with
    | some (_, d) => some (s.goDir (.getvnode d.semnum))
    | none => some (s.goDir (.release none))
  | .getvnode n =>
    if s.table ≠ none then none else s.getvnode n okay (fun v => .release (some v)) (.release none)
  | .remove name =>
    match s.findDent name with
    | some (i, d) => some (s.goDir (.getsem i d.semnum))
    | none => some (s.goDir (.release none))
  | .getsem i n =>
    if s.table ≠ none then none
    else match slotAt s.sems n with
      | none => none
      | some o => some (s.goDir (.unlink i n o))
  | .unlink i n o =>
    if (s.obj o).linked = true then some ((s.setObj o fun x => { x with linked := false }).goDir (.test i n o))
    else none
  | .test i n o => some (s.goDir (if (s.obj o).hasvnode = false then .clear i n o else .undent i n))
  | .clear i n o =>
    if s.table ≠ none then none else some ({ s with sems := clearSlot s.sems n }.goDir (.destroy i n o))
  | .destroy i n o => some ((s.destroySem o).goDir (.undent i n))
  | .undent i _ => some ({ s with dents := clearSlot s.dents i }.goDir (.release none))
  | .release _ => some { s with dir := none }

/-- The next step of the reclaim with `semfs_tablelock`. -/
def tableStep : SemTablePc → Option Semfs
  | .check v n =>
    if 1 < (s.refs v).count then some { s.setRefs v (s.refs v).busy with table := none }
    else some ({ s with vnodes := s.vnodes.erase v }.goTable (.unhas v n))
  | .unhas v n =>
    match slotAt s.sems n with
    | none => none
    | some o =>
      if (s.obj o).hasvnode = true then
        some ((s.setObj o fun x => { x with hasvnode := false }).goTable (.linked v n o))
      else none
  | .linked v n o => some (s.goTable (if (s.obj o).linked = false then .clear v n o else .release v))
  | .clear v n o => some (({ s with sems := clearSlot s.sems n }.destroySem o).goTable (.release v))
  | .release v => some { s.setRefs v .none with table := none }

/-- The call with `semfs_dirlock` has this reference. -/
def dirHolds (v : ℕ) : ℕ :=
  match s.dir with
  | some (.link _ _ _ w) => if w = v then 1 else 0
  | some (.release (some w)) => if w = v then 1 else 0
  | _ => 0

end Semfs

/-- "." and "..", which need no lock. -/
def semfsDots (name : List UInt8) : Prop := name = [46] ∨ name = [46, 46]

instance (name : List UInt8) : Decidable (semfsDots name) := inferInstanceAs (Decidable (_ ∨ _))

/-- A call takes `semfs_dirlock`. -/
def Semfs.call (s : Semfs) (name : List UInt8) (pc : SemDirPc) : Option Semfs :=
  if semfsDots name then some s else if s.dir = none then some (s.goDir pc) else none

def semTableStep (s : Semfs) : SemTableEv → Option Semfs
  | .creat name excl => s.call name (.creat name excl)
  | .lookup name => s.call name (.lookup name)
  | .remove name => s.call name (.remove name)
  | .dir okay => s.dir.bind (s.dirStep okay)
  | .incref v => if s.dirHolds v < (s.refs v).held then some (s.setRefs v (s.refs v).incref) else none
  | .decref v => if s.dirHolds v < (s.refs v).held then some (s.setRefs v (s.refs v).decref) else none
  | .reclaim v =>
    if s.table = none ∧ 0 < (s.refs v).pending then some (s.goTable (.check v (s.semnum v))) else none
  | .table => s.table.bind s.tableStep

end Os161
