import Mathlib.Data.List.Sort

/-! `qsort` of the C library. The array is a list of elements, whatever their size; to reach
outside of it ends the call without a result, and so does a failed assertion. -/

namespace Os161

variable {α : Type}

/-- `COMPARE` -/
def qsortCompare (f : α → α → ℤ) (data : List α) (aa bb : ℕ) : Option ℤ :=
  if aa = bb then some 0
  else do
    let x ← data[aa]?
    let y ← data[bb]?
    some (f x y)

/-- `EXCHANGE` -/
def qsortExchange (data : List α) (aa bb : ℕ) : Option (List α) := do
  let x ← data[aa]?
  let y ← data[bb]?
  some ((data.set aa y).set bb x)

structure Partition (α : Type) where
  data : List α
  pivot : ℕ
  head : ℕ
  tail : ℕ

/-- The body of the loop of step 2. -/
def Partition.step (f : α → α → ℤ) (s : Partition α) : Option (Partition α) := do
  let front ← qsortCompare f s.data s.head s.pivot
  if front ≤ 0 then some { s with head := s.head + 1 }
  else do
    let back ← qsortCompare f s.data s.tail s.pivot
    if 0 < back then some { s with tail := s.tail - 1 }
    else do
      let data ← qsortExchange s.data s.head s.tail
      let pivot := if s.pivot = s.head then s.tail else if s.pivot = s.tail then s.head else s.pivot
      some ⟨data, pivot, s.head + 1, s.tail - 1⟩

def Partition.loop (f : α → α → ℤ) : ℕ → Partition α → Option (Partition α)
  | 0, _ => none
  | turns + 1, s =>
    if s.head < s.tail then do
      let s ← s.step f
      s.loop f turns
    else some s

/-- Steps 1 to 3: `tail` becomes the index of the first entry of the back portion. -/
def partitionAround (f : α → α → ℤ) (data : List α) : Option (Partition α) := do
  let s ← Partition.loop f data.length ⟨data, data.length / 2, 0, data.length - 1⟩
  if s.tail < s.head then some { s with tail := s.tail + 1 }
  else do
    let middle ← qsortCompare f s.data s.head s.pivot
    if middle ≤ 0 then some { s with tail := s.tail + 1 } else some s

/-- Move the pivot to the end, if necessary. -/
def pivotToEnd (f : α → α → ℤ) (data : List α) (pivot : ℕ) : Option (List α) :=
  if pivot < data.length - 1 then do
    let last ← qsortCompare f data pivot (data.length - 1)
    if 0 < last then qsortExchange data pivot (data.length - 1) else some data
  else some data

/-- Lop off all values that are equal to the one at `tail`. -/
def lopEqual (f : α → α → ℤ) (data : List α) : ℕ → Option ℕ
  | 0 => some 0
  | tail + 1 => do
    let before ← qsortCompare f data tail (tail + 1)
    if before = 0 then lopEqual f data tail else some (tail + 1)

/-- Steps 4 and 5; `sort` stands for the recursive calls. -/
def sortParts (f : α → α → ℤ) (sort : List α → Option (List α)) (s : Partition α) : Option (List α) :=
  if s.tail = s.data.length then do
    let data ← pivotToEnd f s.data s.pivot
    let tail ← lopEqual f data (data.length - 1)
    if 0 < tail then do
      let front ← sort (data.take tail)
      some (front ++ data.drop tail)
    else some data
  else if 0 < s.tail ∧ s.tail < s.data.length then do
    let front ← sort (s.data.take s.tail)
    let back ← sort (s.data.drop s.tail)
    some (front ++ back)
  else none

/-- `qsort` with at most `depth` calls on the stack. -/
def qsortDepth (f : α → α → ℤ) : ℕ → List α → Option (List α)
  | 0, _ => none
  | depth + 1, data =>
    if data.length ≤ 1 then some data
    else if data.length = 2 then do
      let first ← qsortCompare f data 0 1
      if 0 < first then qsortExchange data 0 1
      else do
        let s ← partitionAround f data
        sortParts f (qsortDepth f depth) s
    else do
      let s ← partitionAround f data
      sortParts f (qsortDepth f depth) s

/-- A stack of one call for each element is enough. -/
def qsort (f : α → α → ℤ) (data : List α) : Option (List α) := qsortDepth f (data.length + 1) data

/-- A comparison function that is a total preorder: it tells by the sign which of two values
comes first. -/
structure IsComparison (f : α → α → ℤ) : Prop where
  sign : ∀ a b, f a b < 0 ↔ 0 < f b a
  trans : ∀ a b c, f a b ≤ 0 → f b c ≤ 0 → f a c ≤ 0

end Os161
