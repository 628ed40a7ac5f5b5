import Os161.Lib.Linked
import Os161.Lib.Run
import Os161.Lib.Tiling
import Os161.Spec.Uio

/-! `malloc` and `free` of the C library (`libc/stdlib/malloc.c`), on a machine with
32-bit words, without debugging. Pointers are addresses and 0 is NULL. Memory is made
of words; a header is two of them, with bit fields from the high end down. -/

namespace Os161

/-- The ways to leave the program: `err` and `errx` with their texts, and `assert`. -/
inductive MallocExit where
  /-- Internal error - bad init call -/
  | badInitCall
  /-- initial sbrk failed -/
  | initialSbrk
  /-- Internal error - heap began at 0 -/
  | beganAtZero
  /-- sbrk failed aligning heap base -/
  | sbrkAligning
  /-- heap base moved during init -/
  | baseMoved
  /-- Internal error - heap top moved itself -/
  | topMoved
  /-- Internal error (size passed to split) -/
  | splitSize
  /-- Internal error (split screwed up?) -/
  | splitScrewedUp
  /-- Internal error - local data corrupt -/
  | localData
  /-- Heap corrupt; header has bad magic bits -/
  | badMagic
  /-- Heap corrupt; header has bad previous-block size -/
  | badPrevious
  /-- Heap corrupt; ran off end -/
  | ranOffEnd
  /-- `assert(size > M_SIZE(mh))` -/
  | assertion
  /-- free: Heap corrupt (inconsistent) -/
  | inconsistent
  /-- free: Invalid pointer freed (out of range) -/
  | outOfRange
  /-- free: Invalid pointer freed (corrupt header) -/
  | corruptHeader
  /-- free: Invalid pointer freed (already free) -/
  | alreadyFree
  deriving DecidableEq

structure Uheap where
  heapbase : ℕ
  heaptop : ℕ
  /-- the word at an address -/
  mem : ℕ → ℕ
  /-- the break of the process, now and when it started -/
  brk : ℕ
  start : ℕ

abbrev UheapM := Op Uheap MallocExit

def errxIf (p : Prop) [Decidable p] (e : MallocExit) : UheapM Unit := if p then Op.fail e else pure ()

/-! ### Headers -/

def mhPrevblock (m : ℕ → ℕ) (mh : ℕ) : ℕ := m mh / 8 % 2 ^ 29

def mhMagic1 (m : ℕ → ℕ) (mh : ℕ) : ℕ := m mh % 4

def mhNextblock (m : ℕ → ℕ) (mh : ℕ) : ℕ := m (mh + 4) / 8 % 2 ^ 29

def mhInuse (m : ℕ → ℕ) (mh : ℕ) : ℕ := m (mh + 4) / 4 % 2

def mhMagic2 (m : ℕ → ℕ) (mh : ℕ) : ℕ := m (mh + 4) % 4

def setPrevblock (mh v : ℕ) (m : ℕ → ℕ) : ℕ → ℕ := Function.update m mh (v % 2 ^ 29 * 8 + m mh % 8)

def setPad (mh v : ℕ) (m : ℕ → ℕ) : ℕ → ℕ := Function.update m mh (m mh / 8 * 8 + v % 2 * 4 + m mh % 4)

def setMagic1 (mh v : ℕ) (m : ℕ → ℕ) : ℕ → ℕ := Function.update m mh (m mh / 4 * 4 + v % 4)

def setNextblock (mh v : ℕ) (m : ℕ → ℕ) : ℕ → ℕ :=
  Function.update m (mh + 4) (v % 2 ^ 29 * 8 + m (mh + 4) % 8)

def setInuse (mh v : ℕ) (m : ℕ → ℕ) : ℕ → ℕ :=
  Function.update m (mh + 4) (m (mh + 4) / 8 * 8 + v % 2 * 4 + m (mh + 4) % 4)

def setMagic2 (mh v : ℕ) (m : ℕ → ℕ) : ℕ → ℕ := Function.update m (mh + 4) (m (mh + 4) / 4 * 4 + v % 4)

/-- A store to memory. -/
def poke (f : (ℕ → ℕ) → ℕ → ℕ) : UheapM Unit := Op.modify fun h => { h with mem := f h.mem }

/-- `MMAGIC` -/
def mmagic : ℕ := 2

/-- `M_NEXTOFF` -/
def mNextoff (m : ℕ → ℕ) (mh : ℕ) : ℕ := mhNextblock m mh * 8

/-- `M_PREVOFF` -/
def mPrevoff (m : ℕ → ℕ) (mh : ℕ) : ℕ := mhPrevblock m mh * 8

/-- `M_NEXT` -/
def mNext (m : ℕ → ℕ) (mh : ℕ) : ℕ := u32 (mh + mNextoff m mh)

/-- `M_PREV` -/
def mPrev (m : ℕ → ℕ) (mh : ℕ) : ℕ := u32 (mh - mPrevoff m mh)

/-- `M_DATA` -/
def mData (mh : ℕ) : ℕ := u32 (mh + 8)

/-- `M_SIZE` -/
def mSize (m : ℕ → ℕ) (mh : ℕ) : ℕ := u32 (mNextoff m mh - 8)

/-- `M_OK` -/
def mOk (m : ℕ → ℕ) (mh : ℕ) : Prop := mhMagic1 m mh = mmagic ∧ mhMagic2 m mh = mmagic

instance (m : ℕ → ℕ) (mh : ℕ) : Decidable (mOk m mh) := inferInstanceAs (Decidable (_ ∧ _))

/-- `M_MKFIELD` -/
def mMkfield (off : ℕ) : ℕ := off / 8

/-! ### The break -/

/-- `(void *)-1` -/
def sbrkFailed : ℕ := 0xffffffff

/-- Where the break goes. The amount is signed. -/
def Uheap.newBrk (h : Uheap) (amount : ℕ) : ℤ :=
  if amount < 2 ^ 31 then h.brk + amount else h.brk + amount - 2 ^ 32

/-- The break stays above where it started, and the heap below 2^31 bytes. -/
def Uheap.Allows (h : Uheap) (amount : ℕ) : Prop :=
  h.start ≤ h.newBrk amount ∧ h.newBrk amount < 2 ^ 32 ∧ h.newBrk amount < h.start + 2 ^ 31

instance (h : Uheap) (amount : ℕ) : Decidable (h.Allows amount) := inferInstanceAs (Decidable (_ ∧ _))

/-- `sbrk` moves the end of the heap, or fails; `grant` says which amounts the system
would give. -/
def sbrk (grant : ℕ → Bool) (amount : ℕ) : UheapM ℕ := do
  let h ← Op.get
  if grant amount ∧ h.Allows amount then do
    Op.set { h with brk := (h.newBrk amount).toNat }
    pure h.brk
  else pure sbrkFailed

/-- `__malloc_init`. The checks of the constants are left out. -/
def mallocInit (grant : ℕ → Bool) : UheapM Unit := do
  let h ← Op.get
  errxIf (h.heapbase ≠ 0 ∨ h.heaptop ≠ 0) .badInitCall
  let x ← sbrk grant 0
  errxIf (x = sbrkFailed) .initialSbrk
  errxIf (x = 0) .beganAtZero
  Op.modify fun h => { h with heapbase := x, heaptop := x }
  if x % 8 ≠ 0 then do
    let adjust := 8 - x % 8
    let y ← sbrk grant adjust
    errxIf (y = sbrkFailed) .sbrkAligning
    errxIf (y ≠ x) .baseMoved
    Op.modify fun h => { h with heapbase := u32 (x + adjust), heaptop := u32 (x + adjust) }
  else pure ()

/-- `__malloc_sbrk` -/
def mallocSbrk (grant : ℕ → Bool) (size : ℕ) : UheapM ℕ := do
  let x ← sbrk grant size
  if x = sbrkFailed then pure 0
  else do
    let h ← Op.get
    errxIf (x ≠ h.heaptop) .topMoved
    Op.modify fun h => { h with heaptop := u32 (h.heaptop + size) }
    pure x

/-! ### Allocation -/

/-- `__malloc_split` -/
def mallocSplit (mh size : ℕ) : UheapM Unit := do
  errxIf (size % 8 ≠ 0) .splitSize
  let h ← Op.get
  if u32 (mSize h.mem mh - size) < 16 then pure ()
  else do
    let mhnext := mNext h.mem mh
    let oldsize := mSize h.mem mh
    poke (setNextblock mh (mMkfield (u32 (size + 8))))
    let h ← Op.get
    let mhnew := mNext h.mem mh
    errxIf (mhnew = mhnext) .splitScrewedUp
    poke (setPrevblock mhnew (mMkfield (u32 (size + 8))))
    poke (setPad mhnew 0)
    poke (setMagic1 mhnew mmagic)
    poke (setNextblock mhnew (mMkfield (u32 (oldsize - size))))
    poke (setInuse mhnew 0)
    poke (setMagic2 mhnew mmagic)
    if mhnext ≠ h.heaptop then do
      let h ← Op.get
      poke (setPrevblock mhnext (mhNextblock h.mem mhnew))
    else pure ()

/-- How the search ends: at a block that will do, or with `i`, `mh` and
`rightprevblock` as they are then. -/
inductive MallocSearch where
  | found (mh : ℕ)
  | ended (i mh rightprevblock : ℕ)

/-- The first-fit search. The first argument bounds the turns. -/
def mallocSearch (size : ℕ) : ℕ → ℕ → ℕ → ℕ → UheapM MallocSearch
  | 0, _, _, _ => Op.panic
  | fuel + 1, i, mh, rightprevblock => do
    let h ← Op.get
    if h.heaptop ≤ i then pure (.ended i mh rightprevblock)
    else do
      let mh := i
      errxIf (¬ mOk h.mem mh) .badMagic
      errxIf (mhPrevblock h.mem mh ≠ rightprevblock) .badPrevious
      let rightprevblock := mhNextblock h.mem mh
      if mhInuse h.mem mh ≠ 0 then mallocSearch size fuel (u32 (i + mNextoff h.mem mh)) mh rightprevblock
      else if mSize h.mem mh < size then mallocSearch size fuel (u32 (i + mNextoff h.mem mh)) mh rightprevblock
      else pure (.found mh)

/-- `malloc` from where the search found nothing. -/
def mallocExpand (grant : ℕ → Bool) (size mh rightprevblock : ℕ) : UheapM ℕ := do
  let h ← Op.get
  let free := mh ≠ 0 ∧ mhInuse h.mem mh = 0
  if free then errxIf (¬ mSize h.mem mh < size) .assertion
  else pure ()
  let morespace := if free then u32 (size - mSize h.mem mh) else u32 (8 + size)
  let morespace := u32 (4096 * (u32 (morespace + 4096 - 1) / 4096 : ℕ))
  let p ← mallocSbrk grant morespace
  if p = 0 then pure 0
  else if free then do
    poke (setNextblock mh (mMkfield (u32 (mNextoff h.mem mh + morespace))))
    poke (setInuse mh 1)
    mallocSplit mh size
    pure (mData mh)
  else do
    poke (setPrevblock p rightprevblock)
    poke (setMagic1 p mmagic)
    poke (setMagic2 p mmagic)
    poke (setPad p 0)
    poke (setInuse p 1)
    poke (setNextblock p (mMkfield morespace))
    mallocSplit p size
    pure (mData p)

/-- `malloc` once the heap has been set up. -/
def mallocReady (grant : ℕ → Bool) (size : ℕ) : UheapM ℕ := do
  let h ← Op.get
  errxIf (h.heapbase = 0 ∨ h.heaptop = 0 ∨ h.heaptop < h.heapbase) .localData
  let size := u32 (size + 8 - 1) / 8 * 8
  match ← mallocSearch size (h.heaptop - h.heapbase + 1) h.heapbase 0 0 with
  | .found mh => do
    mallocSplit mh size
    poke (setInuse mh 1)
    pure (mData mh)
  | .ended i mh rightprevblock => do
    errxIf (i ≠ h.heaptop) .ranOffEnd
    mallocExpand grant size mh rightprevblock

def malloc (grant : ℕ → Bool) (size : ℕ) : UheapM ℕ := do
  let h ← Op.get
  if h.heapbase = 0 then do
    mallocInit grant
    mallocReady grant size
  else mallocReady grant size

/-! ### Release -/

/-- `__malloc_deadbeef` -/
def mallocDeadbeef (ptr size : ℕ) (m : ℕ → ℕ) : ℕ → ℕ :=
  (List.range (size / 4)).foldl (fun m i => Function.update m (ptr + 4 * i) 0xdeadbeef) m

/-- `__malloc_trymerge` -/
def mallocTrymerge (mh mhnext : ℕ) : UheapM Unit := do
  let h ← Op.get
  errxIf (mhNextblock h.mem mh ≠ mhPrevblock h.mem mhnext) .inconsistent
  if mhInuse h.mem mh ≠ 0 ∨ mhInuse h.mem mhnext ≠ 0 then pure ()
  else do
    let mhnextnext := mNext h.mem mhnext
    poke (setNextblock mh (mMkfield (u32 (8 + mSize h.mem mh + 8 + mSize h.mem mhnext))))
    if mhnextnext ≠ h.heaptop then do
      let h ← Op.get
      poke (setPrevblock mhnextnext (mhNextblock h.mem mh))
    else pure ()
    poke (mallocDeadbeef mhnext 8)

def free (x : ℕ) : UheapM Unit := do
  if x = 0 then pure ()
  else do
    let h ← Op.get
    errxIf (h.heapbase = 0 ∨ h.heaptop = 0 ∨ h.heaptop < h.heapbase) .localData
    errxIf (x < h.heapbase ∨ h.heaptop ≤ x) .outOfRange
    let mh := u32 (x - 8)
    errxIf (¬ mOk h.mem mh) .corruptHeader
    errxIf (mhInuse h.mem mh = 0) .alreadyFree
    poke (setInuse mh 0)
    poke (mallocDeadbeef (mData mh) (mSize h.mem mh))
    let mhnext := mNext h.mem mh
    if mhnext ≠ h.heaptop then mallocTrymerge mh mhnext
    else pure ()
    if mh ≠ h.heapbase then do
      let h ← Op.get
      mallocTrymerge (mPrev h.mem mh) mh
    else pure ()

/-! ### The program -/

/-- The byte at an address. -/
def byteAt (m : ℕ → ℕ) (a : ℕ) : ℕ := m (a / 4 * 4) / 256 ^ (3 - a % 4) % 256

def storeByte (a v : ℕ) (m : ℕ → ℕ) : ℕ → ℕ :=
  let k := 256 ^ (3 - a % 4)
  let w := m (a / 4 * 4)
  Function.update m (a / 4 * 4) (w / (k * 256) * (k * 256) + v % 256 * k + w % k)

/-- A pointer that `malloc` returned and that was not freed, with the size asked for. -/
structure UserBlock where
  ptr : ℕ
  size : ℕ

/-- The program has left, or is in a loop for ever. -/
inductive UserEnd where
  | exit (e : MallocExit)
  | hung

structure UserSys where
  heap : Uheap
  live : List UserBlock
  ended : Option UserEnd

/-- A program that starts with its break at `brk`. -/
def UserSys.init (brk : ℕ) (mem : ℕ → ℕ) : UserSys := ⟨⟨0, 0, mem, brk, brk⟩, [], none⟩

inductive UserEv where
  | malloc (size : ℕ) (grant : ℕ → Bool)
  | free (ptr : ℕ)
  /-- the program writes to one of its blocks -/
  | store (a v : ℕ)

/-- A call, and what follows from its result. -/
def UserSys.call {α : Type} (s : UserSys) (x : UheapM α) (next : α → Uheap → UserSys) : UserSys :=
  match x s.heap with
  | .ok a h => next a h
  | .err e h => { s with heap := h, ended := some (.exit e) }
  | .panic => { s with ended := some .hung }

def userStep (s : UserSys) (e : UserEv) : Option UserSys :=
  match s.ended with
  | some _ => none
  | none =>
    match e with
    | .malloc size grant =>
      if size < 2 ^ 31 - 2 ^ 13 then
        some (s.call (malloc grant size) fun ptr h =>
          { s with heap := h, live := if ptr = 0 then s.live else ⟨ptr, size⟩ :: s.live })
      else none
    | .free ptr =>
      if ∃ b ∈ s.live, b.ptr = ptr then
        some (s.call (free ptr) fun _ h => { s with heap := h, live := s.live.filter fun b => b.ptr ≠ ptr })
      else none
    | .store a v =>
      if ∃ b ∈ s.live, b.ptr ≤ a ∧ a < b.ptr + b.size then
        some { s with heap := { s.heap with mem := storeByte a v s.heap.mem } }
      else none

/-! ### What the heap is to be -/

/-- The headers at `hs` tile the heap, each with the size of the one before it. -/
structure Uheap.Tiled (h : Uheap) (hs : List ℕ) : Prop where
  tile : Linked h.heaptop (fun mh => mh + mNextoff h.mem mh) h.heapbase hs
  up : ∀ mh ∈ hs, 0 < mNextoff h.mem mh
  first : ∀ mh ∈ hs.head?, mhPrevblock h.mem mh = 0
  prev : ∀ mh ∈ hs, mh + mNextoff h.mem mh ≠ h.heaptop →
    mhPrevblock h.mem (mh + mNextoff h.mem mh) = mhNextblock h.mem mh
  magic : ∀ mh ∈ hs, mOk h.mem mh

/-- The room of a block. -/
def UserSys.room (s : UserSys) (b : UserBlock) : ℕ := mNextoff s.heap.mem (b.ptr - 8) - 8

/-- The blocks that are out are blocks of the heap with their headers at `hs`. -/
structure UserSys.Blocks (s : UserSys) (hs : List ℕ) : Prop where
  header : ∀ b ∈ s.live, b.ptr - 8 ∈ hs
  aligned : ∀ b ∈ s.live, b.ptr % 8 = 0 ∧ 8 ≤ b.ptr
  size : ∀ b ∈ s.live, b.size ≤ s.room b
  headers : ∀ b ∈ s.live, ∀ mh ∈ hs, Apart b.ptr (s.room b) mh 8
  apart : s.live.Pairwise fun b b' => b.ptr ≠ b'.ptr ∧ Apart b.ptr (s.room b) b'.ptr (s.room b')

/-- The program is still running with a heap in order, or it has left because the
first calls of `sbrk` failed. -/
def UserSys.Good (s : UserSys) : Prop :=
  match s.ended with
  | none => ∃ hs, s.heap.Tiled hs ∧ s.Blocks hs
  | some (.exit e) => e = .initialSbrk ∨ e = .sbrkAligning
  | some .hung => False

/-- A call to `malloc` or `free` leaves every byte of every other block as it is. -/
def UserSys.Keeps (s : UserSys) (e : UserEv) (s' : UserSys) : Prop :=
  ∀ b ∈ s.live, (∀ a v, e ≠ .store a v) → e ≠ .free b.ptr →
    ∀ a, b.ptr ≤ a → a < b.ptr + s.room b → byteAt s'.heap.mem a = byteAt s.heap.mem a

/-- The headers at `hs` tile the heap, and no two free blocks are neighbours. With no block
out the heap is one free block, unless it is empty. -/
structure UserSys.Joined (s : UserSys) (hs : List ℕ) : Prop where
  tiled : s.heap.Tiled hs
  apart : hs.IsChain fun mh mh' => mhInuse s.heap.mem mh ≠ 0 ∨ mhInuse s.heap.mem mh' ≠ 0
  whole : s.live = [] → s.heap.heapbase < s.heap.heaptop → hs = [s.heap.heapbase] ∧
    mhInuse s.heap.mem s.heap.heapbase = 0 ∧ s.heap.heapbase + mNextoff s.heap.mem s.heap.heapbase = s.heap.heaptop

/-- A call to `malloc` that moves the top of the heap found no free block of the size. -/
def UserSys.ExtendsLast (s : UserSys) (e : UserEv) (s' : UserSys) : Prop :=
  ∀ size grant, e = .malloc size grant → s'.heap.heaptop ≠ s.heap.heaptop →
    ∃ hs, s.heap.Tiled hs ∧ ∀ mh ∈ hs, mhInuse s.heap.mem mh = 0 → mSize s.heap.mem mh < size

/-- `ptr` points to the data of a block in use, `size` bytes of it at least. -/
structure Uheap.Holds (h : Uheap) (ptr size : ℕ) : Prop where
  inside : h.heapbase ≤ ptr ∧ ptr + size ≤ h.heaptop
  header : 8 ≤ ptr ∧ ∃ hs, h.Tiled hs ∧ ptr - 8 ∈ hs
  inuse : mhInuse h.mem (ptr - 8) ≠ 0
  room : size + 8 ≤ mNextoff h.mem (ptr - 8)

/-- The heap has not changed, except that it may have been set up. -/
def Uheap.Unchanged (h h' : Uheap) : Prop :=
  h' = h ∨ (h.heapbase = 0 ∧ h'.heapbase = h'.heaptop ∧ h'.mem = h.mem)

/-- `malloc` returns a block of the size, or NULL and changes nothing. It leaves the
program only if there can be no heap at all. -/
def MallocRight (grant : ℕ → Bool) (size : ℕ) (h : Uheap) : Prop :=
  (malloc grant size).wp False (fun ptr h' => if ptr = 0 then h.Unchanged h' else h'.Holds ptr size)
    (fun e _ => e = .initialSbrk ∨ e = .sbrkAligning) h

end Os161
