import Os161.Lib.Run
import Os161.Spec.Bitmap

/-! What `bitmap.c` is for: a finite set of indexes below the number of bits. The
operations of the set stand beside those of the code, and a run of calls starts from the
bitmap that `bitmap_create` makes. -/

namespace Os161

namespace Bitmap

/-- `b->v[ix] |= ((WORD_TYPE)1 << j)` -/
def orBit (ix j : ℕ) : Op Bitmap Errno Unit :=
  Op.modify fun b => { b with v := b.v.modify ix (· ||| bitMask j) }

/-- Leftover bits at the end are marked in use. -/
def markLeftover (nbits : ℕ) : Op Bitmap Errno Unit :=
  if nbits / 8 < words nbits then do
    let ix := words nbits - 1
    let overbits := (nbits + 4294967296 - ix * 8) % 4294967296
    Op.kassert (nbits / 8 = words nbits - 1)
    Op.kassert (0 < overbits ∧ overbits < 8)
    (List.range (8 - overbits)).foldlM (fun _ j => orBit ix (overbits + j)) ()
  else pure ()

/-- `bitmap_create`, once it has its memory: the object that it fills in. -/
def bitmapCreate (nbits : ℕ) : Op Bitmap Errno Unit := do
  Op.set { nbits := nbits, v := List.replicate (words nbits) 0 }
  markLeftover nbits

/-- `bitmap_mark` -/
def bitmapMark (index : ℕ) : Op Bitmap Errno Unit := do
  let b ← Op.get
  Op.kassert (index < b.nbits)
  Op.kassert (b.v.getD (index / 8) 0 &&& bitMask (index % 8) = 0)
  Op.set { b with v := setBit b.v index }

instance (b : Bitmap) (index : ℕ) : Decidable (b.isset index) := inferInstanceAs (Decidable (_ ≠ _))

/-- The set that a bitmap stands for. -/
def indexes (b : Bitmap) : Finset ℕ := (Finset.range b.nbits).filter b.isset

end Bitmap

/-! ### Sets of indexes -/

namespace IndexSet

/-- The least index that is not in the set. -/
def alloc (n : ℕ) : Op (Finset ℕ) Errno ℕ := do
  let S ← Op.get
  match (List.range n).find? fun k => k ∉ S with
  | none => Op.fail .enospc
  | some k => do
    Op.set (insert k S)
    pure k

def mark (n k : ℕ) : Op (Finset ℕ) Errno Unit := do
  let S ← Op.get
  Op.kassert (k < n)
  Op.kassert (k ∉ S)
  Op.set (insert k S)

def unmark (n k : ℕ) : Op (Finset ℕ) Errno Unit := do
  let S ← Op.get
  Op.kassert (k < n)
  Op.kassert (k ∈ S)
  Op.set (S.erase k)

end IndexSet

/-! ### Runs -/

inductive BitmapEv where
  | alloc
  | mark (index : ℕ)
  | unmark (index : ℕ)

/-- One call; it ends the run if an assertion fails. -/
def bitmapStep (b : Bitmap) : BitmapEv → Option Bitmap
  | .alloc => Bitmap.alloc.after b
  | .mark index => (Bitmap.bitmapMark index).after b
  | .unmark index => (Bitmap.unmark index).after b

/-- Each call does to the bitmap, and returns, what it does to the set, assertions
included, and the bits behind the end are set. -/
structure Bitmap.RefinesSet (n : ℕ) (b : Bitmap) : Prop where
  nbits : b.nbits = n
  length : b.v.length = (n + 7) / 8
  alloc : (Bitmap.alloc b).map indexes = IndexSet.alloc n b.indexes
  mark : ∀ k, (Bitmap.bitmapMark k b).map indexes = IndexSet.mark n k b.indexes
  unmark : ∀ k, (Bitmap.unmark k b).map indexes = IndexSet.unmark n k b.indexes
  isset : ∀ k < n, b.isset k ↔ k ∈ b.indexes
  padding : ∀ k, n ≤ k → k < 8 * b.v.length → b.isset k

end Os161
