import Os161.Lib.Op
import Os161.Lib.Chain

/-! `kern/thread/threadlist.c`: lists of threads, linked both ways through a node in each
thread, between two nodes in the list itself. The debug assertions are compiled out. -/

namespace Os161

/-- `struct thread *`, not `NULL` -/
abbrev ThreadPtr := { a : UInt32 // a ≠ 0 }

/-- `struct threadlistnode *`, not `NULL`, by what the node is in -/
inductive TlNode (L : Type) where
  /-- `tl_head` -/
  | head (tl : L)
  /-- `tl_tail` -/
  | tail (tl : L)
  /-- `t_listnode` -/
  | thread (t : ThreadPtr)
  deriving DecidableEq

/-- `tln_self` -/
def TlNode.self {L : Type} : TlNode L → Option ThreadPtr
  | .head _ | .tail _ => none
  | .thread t => some t

/-- The nodes of any lists and threads, with `tl_count` of each list. -/
structure ThreadLists (L : Type) where
  links : Links (TlNode L)
  count : L → UInt32

namespace ThreadLists

variable {L : Type} [DecidableEq L]

/-- Nothing here returns an error; to follow `NULL` is fatal. -/
abbrev TlM (L : Type) := Op (ThreadLists L) Empty

def deref (p : Option (TlNode L)) : TlM L (TlNode L) :=
  match p with
  | some tln => pure tln
  | none => Op.panic

def getPrev (tln : TlNode L) : TlM L (Option (TlNode L)) := do
  let s ← Op.get
  pure (s.links.prev tln)

def getNext (tln : TlNode L) : TlM L (Option (TlNode L)) := do
  let s ← Op.get
  pure (s.links.next tln)

def setPrev (tln : TlNode L) (p : Option (TlNode L)) : TlM L Unit :=
  Op.modify fun s => { s with links := { s.links with prev := Function.update s.links.prev tln p } }

def setNext (tln : TlNode L) (p : Option (TlNode L)) : TlM L Unit :=
  Op.modify fun s => { s with links := { s.links with next := Function.update s.links.next tln p } }

def setCount (tl : L) (f : UInt32 → UInt32) : TlM L Unit :=
  Op.modify fun s => { s with count := Function.update s.count tl (f (s.count tl)) }

/-- `threadlist_init` and `threadlistnode_init` -/
def init : ThreadLists L where
  links :=
    { prev := fun
        | .tail tl => some (.head tl)
        | _ => none
      next := fun
        | .head tl => some (.tail tl)
        | _ => none }
  count _ := 0

/-- The end of both insertions: the neighbours of `addee` are linked to it. -/
def linkNeighbours (addee : TlNode L) : TlM L Unit := do
  let p ← getPrev addee
  let p ← deref p
  setNext p (some addee)
  let n ← getNext addee
  let n ← deref n
  setPrev n (some addee)

/-- `threadlist_insertafternode` -/
def insertafternode (onlist : TlNode L) (t : ThreadPtr) : TlM L Unit := do
  setPrev (.thread t) (some onlist)
  let n ← getNext onlist
  setNext (.thread t) n
  linkNeighbours (.thread t)

/-- `threadlist_insertbeforenode` -/
def insertbeforenode (t : ThreadPtr) (onlist : TlNode L) : TlM L Unit := do
  let p ← getPrev onlist
  setPrev (.thread t) p
  setNext (.thread t) (some onlist)
  linkNeighbours (.thread t)

/-- `threadlist_removenode` -/
def removenode (tln : TlNode L) : TlM L Unit := do
  let p ← getPrev tln
  let p ← deref p
  let n ← getNext tln
  setNext p n
  let n ← getNext tln
  let n ← deref n
  let p ← getPrev tln
  setPrev n p
  setPrev tln none
  setNext tln none

def addhead (tl : L) (t : ThreadPtr) : TlM L Unit := do
  insertafternode (.head tl) t
  setCount tl (· + 1)

def addtail (tl : L) (t : ThreadPtr) : TlM L Unit := do
  insertbeforenode t (.tail tl)
  setCount tl (· + 1)

def remhead (tl : L) : TlM L (Option ThreadPtr) := do
  let p ← getNext (.head tl)
  let tln ← deref p
  let n ← getNext tln
  if n = none then
    -- list was empty
    pure none
  else do
    removenode tln
    setCount tl (· - 1)
    pure tln.self

def remtail (tl : L) : TlM L (Option ThreadPtr) := do
  let p ← getPrev (.tail tl)
  let tln ← deref p
  let n ← getPrev tln
  if n = none then
    -- list was empty
    pure none
  else do
    removenode tln
    setCount tl (· - 1)
    pure tln.self

def insertafter (tl : L) (onlist addee : ThreadPtr) : TlM L Unit := do
  insertafternode (.thread onlist) addee
  setCount tl (· + 1)

def insertbefore (tl : L) (addee onlist : ThreadPtr) : TlM L Unit := do
  insertbeforenode addee (.thread onlist)
  setCount tl (· + 1)

def remove (tl : L) (t : ThreadPtr) : TlM L Unit := do
  removenode (.thread t)
  setCount tl (· - 1)

end ThreadLists

inductive TlCall (L : Type) where
  | addhead (tl : L) (t : ThreadPtr)
  | addtail (tl : L) (t : ThreadPtr)
  | remhead (tl : L)
  | remtail (tl : L)
  | insertafter (tl : L) (onlist addee : ThreadPtr)
  | insertbefore (tl : L) (addee onlist : ThreadPtr)
  | remove (tl : L) (t : ThreadPtr)

namespace TlCall

variable {L : Type} [DecidableEq L]

open ThreadLists in
/-- The call, with what `remhead` and `remtail` return. -/
def run : TlCall L → TlM L (Option ThreadPtr)
  | addhead tl t => do
    ThreadLists.addhead tl t
    pure none
  | addtail tl t => do
    ThreadLists.addtail tl t
    pure none
  | remhead tl => ThreadLists.remhead tl
  | remtail tl => ThreadLists.remtail tl
  | insertafter tl onlist addee => do
    ThreadLists.insertafter tl onlist addee
    pure none
  | insertbefore tl addee onlist => do
    ThreadLists.insertbefore tl addee onlist
    pure none
  | remove tl t => do
    ThreadLists.remove tl t
    pure none

/-- The list of a call. -/
def list : TlCall L → L
  | addhead tl _ | addtail tl _ | remhead tl | remtail tl | insertafter tl _ _ | insertbefore tl _ _ | remove tl _ => tl

/-! ### Sequences of threads -/

/-- A sequence for each list. -/
abbrev Contents (L : Type) := L → List ThreadPtr

/-- What a call returns. -/
def result (c : Contents L) : TlCall L → Option ThreadPtr
  | remhead tl => (c tl).head?
  | remtail tl => (c tl).getLast?
  | _ => none

/-- What a call makes of the sequence of its list. -/
def seqAfter (l : List ThreadPtr) : TlCall L → List ThreadPtr
  | addhead _ t => t :: l
  | addtail _ t => l ++ [t]
  | remhead _ => l.tail
  | remtail _ => l.dropLast
  | insertafter _ onlist addee => l.insertIdx (l.idxOf onlist + 1) addee
  | insertbefore _ addee onlist => l.insertIdx (l.idxOf onlist) addee
  | remove _ t => l.erase t

/-- The other lists stay as they are. -/
def after (c : Contents L) (call : TlCall L) : Contents L :=
  Function.update c call.list (call.seqAfter (c call.list))

/-- A thread that is added is on no list, one that is named is on the list. -/
def Respects (c : Contents L) : TlCall L → Prop
  | addhead _ t | addtail _ t => ∀ tl, t ∉ c tl
  | remhead _ | remtail _ => True
  | insertafter tl onlist addee | insertbefore tl addee onlist => onlist ∈ c tl ∧ ∀ tl', addee ∉ c tl'
  | remove tl t => t ∈ c tl

/-- All calls in turn, with what they return. -/
def runAll (calls : List (TlCall L)) : ThreadLists.TlM L (List (Option ThreadPtr)) :=
  calls.foldlM (fun rs call => do
    let r ← call.run
    pure (rs ++ [r])) []

def afterAll : Contents L → List (TlCall L) → Contents L
  | c, [] => c
  | c, call :: calls => afterAll (call.after c) calls

def results : Contents L → List (TlCall L) → List (Option ThreadPtr)
  | _, [] => []
  | c, call :: calls => call.result c :: results (call.after c) calls

def AllRespect : Contents L → List (TlCall L) → Prop
  | _, [] => True
  | c, call :: calls => call.Respects c ∧ AllRespect (call.after c) calls

end TlCall

namespace ThreadLists

variable {L : Type}

/-- Both ways through a list give its sequence, the count is its length, no thread is on
it twice or on another list too, and a thread on no list has no links. -/
structure Refines (s : ThreadLists L) (c : TlCall.Contents L) : Prop where
  forward : ∀ tl, Links.Leads s.links.next (.head tl) ((c tl).map .thread) (.tail tl)
  backward : ∀ tl, Links.Leads s.links.prev (.tail tl) ((c tl).map .thread).reverse (.head tl)
  ends : ∀ tl, s.links.prev (.head tl) = none ∧ s.links.next (.tail tl) = none
  count : ∀ tl, (s.count tl).toNat = (c tl).length
  nodup : ∀ tl, (c tl).Nodup
  unique : ∀ tl tl' t, t ∈ c tl → t ∈ c tl' → tl = tl'
  free : ∀ t, (∀ tl, t ∉ c tl) → s.links.prev (.thread t) = none ∧ s.links.next (.thread t) = none

/-- The node is one of the list `tl`. -/
def NodeOf (c : TlCall.Contents L) (tl : L) : TlNode L → Prop
  | .head tl' | .tail tl' => tl' = tl
  | .thread t => t ∈ c tl

/-- Nothing of the list `tl` is different in `s'`. -/
structure Untouched (c : TlCall.Contents L) (tl : L) (s s' : ThreadLists L) : Prop where
  prev : ∀ tln, NodeOf c tl tln → s'.links.prev tln = s.links.prev tln
  next : ∀ tln, NodeOf c tl tln → s'.links.next tln = s.links.next tln
  count : s'.count tl = s.count tl

end ThreadLists

end Os161
