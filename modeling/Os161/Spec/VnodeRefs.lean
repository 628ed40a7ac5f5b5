import Os161.Lib.Refs
import Os161.Lib.Run

/-! References to the vnodes of SFS: `vnode_incref` and `vnode_decref` of `vnode.c`,
which take `vn_countlock` only, and `sfs_loadvnode` and `sfs_reclaim` of `sfs_inode.c`,
which run under `vfs_biglock`. A section under `vn_countlock` is a step, and so is what
a thread does under `vfs_biglock` between two of them; which thread it is does not
matter. -/

namespace Os161

/-- Where the thread with `vfs_biglock` is. -/
inductive VnodePc where
  /-- in `sfs_loadvnode`, with the table searched: the vnode is there -/
  | found (v : ℕ)
  /-- or it is not -/
  | missing (ino : ℕ)
  /-- in `sfs_reclaim`, before it looks at `vn_refcount` -/
  | reclaim (v : ℕ)
  /-- in `sfs_reclaim`, which found `vn_refcount` at 1 -/
  | last (v : ℕ)
  deriving DecidableEq

structure VnodeTable where
  /-- `sfs_vnodes`: the vnodes, each with its inode number -/
  vnodes : List (ℕ × ℕ)
  /-- `vn_refcount` of each vnode, the references held, and the reclaims decided on by
  `vnode_decref` that are not over -/
  refs : ℕ → Refs
  biglock : Option VnodePc
  /-- the vnodes taken out of the table that `sfs_reclaim` has yet to free -/
  dying : List ℕ
  /-- how often the vnode has been freed -/
  freed : ℕ → ℕ
  /-- the number of vnodes made so far -/
  made : ℕ

/-- After the mount. -/
def VnodeTable.mounted : VnodeTable where
  vnodes := []
  refs _ := .none
  biglock := none
  dying := []
  freed _ := 0
  made := 0

inductive VnodeEv where
  /-- `sfs_loadvnode` takes the lock and searches the table -/
  | loadvnode (ino : ℕ)
  /-- its `VOP_INCREF` -/
  | loadIncref
  /-- it makes the vnode, or fails -/
  | loadMake (okay : Bool)
  /-- `VOP_INCREF` by a thread that holds a reference -/
  | incref (v : ℕ)
  /-- `VOP_DECREF` -/
  | decref (v : ℕ)
  /-- `sfs_reclaim` takes the lock -/
  | reclaim (v : ℕ)
  /-- its look at `vn_refcount` -/
  | reclaimTest
  /-- its end, with the lock released -/
  | reclaimRemove
  | kfree (v : ℕ)

def VnodeTable.setRefs (s : VnodeTable) (v : ℕ) (r : Refs) : VnodeTable :=
  { s with refs := Function.update s.refs v r }

def vnodeStep (s : VnodeTable) : VnodeEv → Option VnodeTable
  | .loadvnode ino =>
    if s.biglock ≠ none then none
    else match s.vnodes.find? fun e => e.2 = ino with
      | some (v, _) => some { s with biglock := some (.found v) }
      | none => some { s with biglock := some (.missing ino) }
  | .loadIncref =>
    match s.biglock with
    | some (.found v) => some { s.setRefs v (s.refs v).incref with biglock := none }
    | _ => none
  | .loadMake okay =>
    match s.biglock with
    | some (.missing ino) =>
      if okay = true then
        some { s.setRefs s.made .new with
          vnodes := s.vnodes ++ [(s.made, ino)], biglock := none, made := s.made + 1 }
      else some { s with biglock := none }
    | _ => none
  | .incref v => if 0 < (s.refs v).held then some (s.setRefs v (s.refs v).incref) else none
  | .decref v => if 0 < (s.refs v).held then some (s.setRefs v (s.refs v).decref) else none
  | .reclaim v =>
    if s.biglock = none ∧ 0 < (s.refs v).pending then some { s with biglock := some (.reclaim v) } else none
  | .reclaimTest =>
    match s.biglock with
    | some (.reclaim v) =>
      if (s.refs v).count ≠ 1 then some { s.setRefs v (s.refs v).busy with biglock := none }
      else some { s with biglock := some (.last v) }
    | _ => none
  | .reclaimRemove =>
    match s.biglock with
    | some (.last v) =>
      some { s.setRefs v .none with
        vnodes := s.vnodes.eraseP fun e => e.1 = v, biglock := none, dying := v :: s.dying }
    | _ => none
  | .kfree v =>
    if v ∈ s.dying then
      some { s with dying := s.dying.erase v, freed := Function.update s.freed v (s.freed v + 1) }
    else none

/-- What the counts and the table are to be. -/
structure VnodeTable.Right (s : VnodeTable) : Prop where
  /-- no two vnodes for one inode -/
  inodes : (s.vnodes.map Prod.snd).Nodup
  /-- the count is that of the references held and the one carried by a reclaim, of which
  there is no more than one -/
  counts : ∀ v, (s.refs v).Ok
  /-- a vnode to which there is a reference is in the table -/
  table : ∀ v, 0 < (s.refs v).count → v ∈ s.vnodes.map Prod.fst
  /-- a vnode is freed once; while it is in use, or to be freed, it is not -/
  freed : ∀ v, s.freed v + s.dying.count v + (s.vnodes.map Prod.fst).count v = if v < s.made then 1 else 0
  /-- and nobody has a reference to it then -/
  unused : ∀ v, 0 < s.freed v ∨ v ∈ s.dying → (s.refs v).held = 0 ∧ (s.refs v).pending = 0
  /-- the assertion of `sfs_reclaim` on a count that is not 1 -/
  asserts : ∀ v, s.biglock = some (.reclaim v) → (s.refs v).count ≠ 1 → 1 < (s.refs v).count
  /-- and the one of `vnode_cleanup` -/
  cleanup : ∀ v, s.biglock = some (.last v) → (s.refs v).count = 1

end Os161
