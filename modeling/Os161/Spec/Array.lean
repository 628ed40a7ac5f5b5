import Os161.Spec.Uio

/-! `kern/lib/array.c` and the operations of `kern/include/array.h`: arrays of pointers that
grow. An `unsigned` has 32 bits and a pointer four bytes. -/

namespace Os161

/-- `struct array`, with the storage that `v` points to. -/
structure KArray (α : Type) where
  v : List α
  num : UInt32
  max : UInt32

/-- `kmalloc` of some bytes: `NULL`, or storage with anything in it. -/
abbrev ArrayStorage (α : Type) := (bytes : ℕ) → Option { v : List α // v.length = bytes / 4 }

namespace KArray

variable {α : Type}

abbrev ArrayM (α : Type) := Op (KArray α) Errno

/-- `array_init` -/
def init : KArray α := ⟨[], 0, 0⟩

/-- One turn of the loop of `array_preallocate`. -/
def grow (newmax : UInt32) : UInt32 := if newmax = 0 then 4 else newmax * 2

/-- The loop, for at most `turns` turns. -/
def newmaxLoop (num : UInt32) : ℕ → UInt32 → Option UInt32
  | 0, newmax => if newmax < num then none else some newmax
  | turns + 1, newmax => if newmax < num then newmaxLoop num turns (grow newmax) else some newmax

/-- The number of pointers in `n*sizeof(void *)` bytes. -/
def pointers (n : UInt32) : ℕ := (n * 4).toNat / 4

/-- `memcpy` of `n` pointers, unless it leaves one of the blocks. -/
def copyPointers (dst src : List α) (n : ℕ) : Option (List α) :=
  if n ≤ dst.length ∧ n ≤ src.length then some (src.take n ++ dst.drop n) else none

/-- `array_preallocate`; it does not return while the loop goes on. -/
def preallocate (kmalloc : ArrayStorage α) (turns : ℕ) (num : UInt32) : ArrayM α Unit := do
  let a ← Op.get
  if a.max < num then
    match newmaxLoop num turns a.max with
    | none => Op.panic
    | some newmax =>
      match kmalloc (newmax * 4).toNat with
      | none => Op.fail .enomem
      | some newptr =>
        match copyPointers newptr.val a.v (pointers a.num) with
        | none => Op.panic
        | some v => Op.set { a with v := v, max := newmax }
  else pure ()

/-- `array_setsize` -/
def setsize (kmalloc : ArrayStorage α) (turns : ℕ) (num : UInt32) : ArrayM α Unit := do
  preallocate kmalloc turns num
  Op.modify fun a => { a with num := num }

/-- `a->v[index] = val` -/
def store (index : UInt32) (val : α) : ArrayM α Unit := do
  let a ← Op.get
  if index.toNat < a.v.length then Op.set { a with v := a.v.set index.toNat val } else Op.panic

/-- `array_set` -/
def set (index : UInt32) (val : α) : ArrayM α Unit := do
  let a ← Op.get
  Op.kassert (index < a.num)
  store index val

/-- `array_add`; the value goes to `*index_ret`. -/
def add (kmalloc : ArrayStorage α) (turns : ℕ) (val : α) : ArrayM α UInt32 := do
  let a ← Op.get
  setsize kmalloc turns (a.num + 1)
  store a.num val
  pure a.num

/-- `array_remove` -/
def remove (index : UInt32) : ArrayM α Unit := do
  let a ← Op.get
  Op.kassert (a.num ≤ a.max)
  Op.kassert (index < a.num)
  let n := pointers (a.num - (index + 1))
  if index.toNat + 1 + n ≤ a.v.length then
    Op.set { a with
      v := a.v.take index.toNat ++ (a.v.drop (index.toNat + 1)).take n ++ a.v.drop (index.toNat + n)
      num := a.num - 1 }
  else Op.panic

/-! ### What the operations are to do -/

variable (a : KArray α)

/-- There is storage for `max` pointers, `num` of which are in use. -/
structure Wf : Prop where
  storage : a.max.toNat ≤ a.v.length
  /-- the storage is a block of memory -/
  block : a.v.length * 4 < 4294967296
  fits : a.num ≤ a.max

/-- The list that the array is. -/
def contents : List α := a.v.take a.num.toNat

/-- From `a` to `a'` there is room for `num` pointers, and those in use have been kept. -/
structure Grown (num : UInt32) (a' : KArray α) : Prop where
  room : num.toNat ≤ a'.v.length
  kept : a'.v.take a.num.toNat = a.contents
  wf : a'.Wf

/-- `array_preallocate` and `array_setsize` return, whatever `kmalloc` does, with enough
storage or with `ENOMEM` and nothing changed. -/
def GrowsRight (num : UInt32) : Prop :=
  ∃ enough, ∀ turns ≥ enough, ∀ kmalloc : ArrayStorage α,
    (preallocate kmalloc turns num).wp False (fun _ a' => a.Grown num a' ∧ a'.num = a.num)
      (fun e a' => e = .enomem ∧ a' = a) a ∧
    (setsize kmalloc turns num).wp False (fun _ a' => a.Grown num a' ∧ a'.num = num)
      (fun e a' => e = .enomem ∧ a' = a) a

/-- What is doubled at first. -/
def firstMax (max : UInt32) : ℕ := if max = 0 then 4 else max.toNat

/-- `num` pointers are there, or doubling comes to as many before `newmax*sizeof(void *)`
would wrap. -/
def Reaches (max num : UInt32) : Prop :=
  num ≤ max ∨ ∃ j, num.toNat ≤ firstMax max * 2 ^ j ∧ firstMax max * 2 ^ j < 1073741824

end KArray

/-! ### Sequences of calls -/

inductive ArrayCall (α : Type) where
  | add (val : α)
  | set (index : UInt32) (val : α)
  | remove (index : UInt32)
  | setsize (num : UInt32)

namespace ArrayCall

variable {α : Type}

/-- The call, with the index from `array_add`. -/
def run (kmalloc : ArrayStorage α) (turns : ℕ) : ArrayCall α → KArray.ArrayM α (Option UInt32)
  | add val => do
    let index ← KArray.add kmalloc turns val
    pure (some index)
  | set index val => do
    KArray.set index val
    pure none
  | remove index => do
    KArray.remove index
    pure none
  | setsize num => do
    KArray.setsize kmalloc turns num
    pure none

/-- What the call does to the list: `setsize` cuts it off, or adds anything at its end. -/
def After (l : List α) : ArrayCall α → Option UInt32 → List α → Prop
  | add val, r, l' => l' = l ++ [val] ∧ r.map UInt32.toNat = some l.length
  | set index val, _, l' => l' = l.set index.toNat val
  | remove index, _, l' => l' = l.eraseIdx index.toNat
  | setsize num, _, l' => l'.length = num.toNat ∧ l'.take l.length = l.take num.toNat

/-- The calls that may find no memory. -/
def Allocates : ArrayCall α → Prop
  | add _ | setsize _ => True
  | set _ _ | remove _ => False

/-- The index is one of the array, and the size can be reached. -/
def Meets (a : KArray α) : ArrayCall α → Prop
  | add _ => KArray.Reaches a.max (a.num + 1)
  | set index _ | remove index => index < a.num
  | setsize num => KArray.Reaches a.max num

end ArrayCall

namespace KArray

variable {α : Type}

/-- Every call of the sequence meets its condition where it is made. -/
def AllMeet (turns : ℕ) : KArray α → List (ArrayCall α × ArrayStorage α) → Prop
  | _, [] => True
  | a, (call, kmalloc) :: calls =>
    call.Meets a ∧ ∀ a', (call.run kmalloc turns).after a = some a' → AllMeet turns a' calls

/-- Call by call, the array behaves as the list `l`. -/
def BehavesAs (turns : ℕ) : KArray α → List α → List (ArrayCall α × ArrayStorage α) → Prop
  | a, l, [] => a.contents = l
  | a, l, (call, kmalloc) :: calls =>
    a.contents = l ∧
    (call.run kmalloc turns).wp False (fun r a' => ∃ l', call.After l r l' ∧ BehavesAs turns a' l' calls)
      (fun e a' => e = .enomem ∧ call.Allocates ∧ BehavesAs turns a' l calls) a

end KArray

end Os161
