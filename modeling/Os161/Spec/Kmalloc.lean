import Os161.Lib.Linked
import Os161.Lib.Run
import Os161.Lib.Tiling
import Os161.Spec.Uio

/-! The subpage allocator of `kern/vm/kmalloc.c`, with its debugging modes off as in
the source. Pointers are addresses and 0 is NULL. A pageref page and a page of blocks
are never the same page, so the pagerefs are kept apart from the words of memory that
the free lists run through. Each section under `kmalloc_spinlock` is one step; the
lock is dropped around `alloc_kpages` and `free_kpages`. -/

namespace Os161

/-- Conversion to `uint16_t`. -/
def u16 (x : ℤ) : ℕ := (x % 65536).toNat

def sizes (blktype : ℕ) : ℕ := ([16, 32, 64, 128, 256, 512, 1024, 2048] : List ℕ).getD blktype 0

/-- `INVALID_OFFSET` -/
def invalidOffset : ℕ := 0xffff

structure Pageref where
  nextSamesize : ℕ
  nextAll : ℕ
  pageaddrAndBlocktype : ℕ
  freelistOffset : ℕ
  nfree : ℕ

/-- `PR_PAGEADDR` -/
def Pageref.pageaddr (pr : Pageref) : ℕ := pr.pageaddrAndBlocktype / 4096 * 4096

/-- `PR_BLOCKTYPE` -/
def Pageref.blktype (pr : Pageref) : ℕ := pr.pageaddrAndBlocktype % 4096

/-- `MKPAB` -/
def mkpab (pa blk : ℕ) : ℕ := pa / 4096 * 4096 + blk % 4096

structure KheapRoot where
  page : ℕ
  /-- bit `j % 32` of word `j / 32` -/
  pagerefsInuse : ℕ → Bool
  numinuse : ℕ

structure Kheap where
  kheaproots : ℕ → KheapRoot
  sizebases : ℕ → ℕ
  allbase : ℕ
  /-- the pageref at an address -/
  refs : ℕ → Pageref
  /-- the word at an address -/
  mem : ℕ → ℕ

abbrev HeapM := Op Kheap Empty

def Kheap.setRef (h : Kheap) (pr : ℕ) (f : Pageref → Pageref) : Kheap :=
  { h with refs := Function.update h.refs pr (f (h.refs pr)) }

def Kheap.setRoot (h : Kheap) (r : ℕ) (f : KheapRoot → KheapRoot) : Kheap :=
  { h with kheaproots := Function.update h.kheaproots r (f (h.kheaproots r)) }

def storeWord (a v : ℕ) : HeapM Unit := Op.modify fun h => { h with mem := Function.update h.mem a v }

/-! ### Pagerefs -/

/-- The first root with a bit to spare, and its first clear bit. -/
def Kheap.clearBit (h : Kheap) : Option (ℕ × ℕ) :=
  (List.range 16).findSome? fun r =>
    if 256 ≤ (h.kheaproots r).numinuse then none
    else ((List.range 256).find? fun j => !(h.kheaproots r).pagerefsInuse j).map fun j => (r, j)

/-- What `allocpageref` comes to: NULL, a pageref, or it drops the lock in
`allocpagerefpage` because the root has no page yet. -/
inductive RefResult where
  | null
  | ready (pr : ℕ)
  | noPage (r j : ℕ)

/-- `allocpageref`, up to the first time the lock is dropped. -/
def allocpageref : HeapM RefResult := do
  let h ← Op.get
  match h.clearBit with
  | none => pure .null
  | some (r, j) => do
    Op.modify fun h => h.setRoot r fun root =>
      { root with pagerefsInuse := Function.update root.pagerefsInuse j true, numinuse := root.numinuse + 1 }
    if (h.kheaproots r).page = 0 then pure (.noPage r j)
    else pure (.ready ((h.kheaproots r).page + 16 * j))

/-- `allocpagerefpage` from where it has the lock back; `true` if somebody else
allocated the page, so that the lock is dropped again to free `va`. -/
def allocpagerefpageBack (r va : ℕ) : HeapM Bool :=
  if va = 0 then pure false
  else do
    Op.kassert (va % 4096 = 0)
    let h ← Op.get
    if (h.kheaproots r).page ≠ 0 then pure true
    else do
      Op.modify fun h => h.setRoot r fun root => { root with page := va }
      pure false

/-- The end of `allocpageref`, after `allocpagerefpage`. -/
def allocpagerefEnd (r j : ℕ) : HeapM (Option ℕ) := do
  let h ← Op.get
  if (h.kheaproots r).page = 0 then pure none
  else pure (some ((h.kheaproots r).page + 16 * j))

/-- The loop of `freepageref`, over the roots. -/
def freepagerefLoop (p : ℕ) : List ℕ → HeapM Unit
  | [] => Op.panic
  | r :: rest => do
    let h ← Op.get
    let root := h.kheaproots r
    if root.page = 0 then do
      Op.kassert (root.numinuse = 0)
      freepagerefLoop p rest
    else
      let j := u32 (((p : ℤ) - root.page).tdiv 16)
      if j < 256 then do
        Op.kassert (root.pagerefsInuse j = true)
        Op.kassert (0 < root.numinuse)
        Op.modify fun h => h.setRoot r fun root =>
          { root with pagerefsInuse := Function.update root.pagerefsInuse j false, numinuse := root.numinuse - 1 }
      else freepagerefLoop p rest

def freepageref (p : ℕ) : HeapM Unit := freepagerefLoop p (List.range 16)

/-! ### The lists of pagerefs -/

/-- One of the lists: its head, and the field that links it. -/
structure RefList where
  base : Kheap → ℕ
  setBase : ℕ → Kheap → Kheap
  next : Pageref → ℕ
  setNext : ℕ → Pageref → Pageref

/-- The list of `sizebases[blktype]`. -/
def samesizeList (blktype : ℕ) : RefList where
  base h := h.sizebases blktype
  setBase p h := { h with sizebases := Function.update h.sizebases blktype p }
  next := Pageref.nextSamesize
  setNext p pr := { pr with nextSamesize := p }

/-- The list of `allbase`. -/
def allList : RefList where
  base := Kheap.allbase
  setBase p h := { h with allbase := p }
  next := Pageref.nextAll
  setNext p pr := { pr with nextAll := p }

/-- `TOTAL_PAGEREFS`, which no list is longer than. -/
def totalPagerefs : ℕ := 4096

def RefList.push (l : RefList) (pr : ℕ) : HeapM Unit := do
  Op.modify fun h => h.setRef pr (l.setNext (l.base h))
  Op.modify (l.setBase pr)

/-- The loop of `remove_lists` from `guy = &p->next` on. -/
def RefList.removeFrom (l : RefList) (pr : ℕ) : ℕ → ℕ → HeapM Unit
  | 0, _ => Op.panic
  | fuel + 1, p => do
    let h ← Op.get
    let q := l.next (h.refs p)
    if q = 0 then pure ()
    else if q = pr then Op.modify fun h => h.setRef p (l.setNext (l.next (h.refs pr)))
    else l.removeFrom pr fuel q

def RefList.remove (l : RefList) (pr : ℕ) : HeapM Unit := do
  let h ← Op.get
  let q := l.base h
  if q = 0 then pure ()
  else if q = pr then Op.modify fun h => l.setBase (l.next (h.refs pr)) h
  else l.removeFrom pr totalPagerefs q

def removeLists (pr blktype : ℕ) : HeapM Unit := do
  Op.kassert (blktype < 8)
  (samesizeList blktype).remove pr
  allList.remove pr

/-! ### Blocks -/

def blocktype (clientsz : ℕ) : Option ℕ := (List.range 8).find? fun i => clientsz ≤ sizes i

/-- `subpage_kmalloc` from `doalloc:` on. -/
def doalloc (pr : ℕ) : HeapM ℕ := do
  let h ← Op.get
  let p := h.refs pr
  Op.kassert (p.freelistOffset < 4096)
  let prpage := p.pageaddr
  let retptr := prpage + p.freelistOffset
  let fl := h.mem retptr
  let nfree := u16 (p.nfree - 1)
  if fl ≠ 0 then do
    Op.kassert (0 < nfree)
    Op.kassert (u32 (fl - prpage) < 4096)
    Op.modify fun h => h.setRef pr fun p => { p with nfree := nfree, freelistOffset := u16 (fl - prpage) }
  else do
    Op.kassert (nfree = 0)
    Op.modify fun h => h.setRef pr fun p => { p with nfree := nfree, freelistOffset := invalidOffset }
  pure retptr

/-- The loop over the pages of one block type, for one that has a free block. -/
def findPage (blktype : ℕ) : HeapM (Option ℕ) := do
  let h ← Op.get
  Op.forLinked 0 (fun h pr => (h.refs pr).nextSamesize) (fun pr _ => do
    let h ← Op.get
    Op.kassert ((h.refs pr).blktype = blktype)
    if 0 < (h.refs pr).nfree then pure (.done (some pr)) else pure (.yield none))
    totalPagerefs (h.sizebases blktype) none

/-- The first section of `subpage_kmalloc`; nothing is returned if it has to go for
a new page. -/
def subpageKmalloc (blktype : ℕ) : HeapM (Option ℕ) := do
  match ← findPage blktype with
  | none => pure none
  | some pr => do
    let ptr ← doalloc pr
    pure (some ptr)

/-- The free list of a new page: the blocks from the last one down. The value is the
address of the last one. -/
def threadBlocks (prpage size nfree : ℕ) : HeapM ℕ := do
  storeWord prpage 0
  (List.range (nfree - 1)).foldlM (fun _ i => do
    let fl := prpage + (i + 1) * size
    let next := prpage + i * size
    storeWord fl next
    Op.kassert (fl ≠ next)
    pure fl) prpage

/-- `subpage_kmalloc` from where it has a page and a pageref for it. -/
def subpageNewpage (blktype prpage pr : ℕ) : HeapM ℕ := do
  let nfree := u16 (4096 / sizes blktype : ℕ)
  Op.modify fun h => h.setRef pr fun p =>
    { p with pageaddrAndBlocktype := mkpab prpage blktype, nfree := nfree }
  let fl ← threadBlocks prpage (sizes blktype) nfree
  let offset := u16 (fl - prpage)
  Op.modify fun h => h.setRef pr fun p => { p with freelistOffset := offset }
  Op.kassert (offset = (nfree - 1) * sizes blktype)
  (samesizeList blktype).push pr
  allList.push pr
  doalloc pr

def fillDeadbeef (vptr len : ℕ) : HeapM Unit :=
  (List.range (len / 4)).foldlM (fun _ i => storeWord (vptr + 4 * i) 0xdeadbeef) ()

/-- How the locked section of `subpage_kfree` ends. -/
inductive KfreeResult where
  | notOurs
  | freed
  /-- the whole page is free, and is to be given back -/
  | wholePage (prpage : ℕ)

/-- The loop of `subpage_kfree`, for the page that the block lies on. -/
def findPageOf (ptraddr : ℕ) : HeapM (Option ℕ) := do
  let h ← Op.get
  Op.forLinked 0 (fun h pr => (h.refs pr).nextAll) (fun pr _ => do
    let h ← Op.get
    let prpage := (h.refs pr).pageaddr
    Op.kassert ((h.refs pr).blktype < 8)
    if prpage ≤ ptraddr ∧ ptraddr < prpage + 4096 then pure (.done (some pr)) else pure (.yield none))
    totalPagerefs h.allbase none

/-- The block goes to the front of the free list of its page. -/
def freeBlock (pr ptraddr : ℕ) : HeapM KfreeResult := do
  let h ← Op.get
  let prpage := (h.refs pr).pageaddr
  let blktype := (h.refs pr).blktype
  let offset := ptraddr - prpage
  Op.kassert (offset < 4096 ∧ offset % sizes blktype = 0)
  fillDeadbeef ptraddr (sizes blktype)
  if (h.refs pr).freelistOffset = invalidOffset then storeWord ptraddr 0
  else do
    let next := prpage + (h.refs pr).freelistOffset
    storeWord ptraddr next
    Op.kassert (ptraddr ≠ next)
  let nfree := u16 ((h.refs pr).nfree + 1)
  Op.modify fun h => h.setRef pr fun p => { p with freelistOffset := u16 offset, nfree := nfree }
  Op.kassert (nfree ≤ 4096 / sizes blktype)
  if nfree = 4096 / sizes blktype then do
    removeLists pr blktype
    freepageref pr
    pure (.wholePage prpage)
  else pure .freed

def subpageKfree (ptraddr : ℕ) : HeapM KfreeResult := do
  match ← findPageOf ptraddr with
  | none => pure .notOurs
  | some pr => freeBlock pr ptraddr

/-- `subpage_stats` when it is quiet. -/
def subpageStats (pr : ℕ) : HeapM ℕ := do
  let h ← Op.get
  let p := h.refs pr
  Op.kassert (p.blktype < 8)
  let n := 4096 / sizes p.blktype
  Op.kassert (n ≤ 256)
  if p.freelistOffset ≠ invalidOffset then
    Op.forLinked 0 Kheap.mem (fun fla _ => do
      Op.kassert (u32 (fla - p.pageaddr) / sizes p.blktype < n)
      pure (.yield ())) 256 (p.pageaddr + p.freelistOffset) ()
  pure (u32 (sizes p.blktype * u32 (n - p.nfree)))

def kheapGetused (coremapBytes : ℕ) : HeapM ℕ := do
  let h ← Op.get
  let (total, numPages) ← Op.forLinked 0 (fun h pr => (h.refs pr).nextAll) (fun pr acc => do
    let used ← subpageStats pr
    pure (.yield (u32 (acc.1 + used), acc.2 + 1))) totalPagerefs h.allbase ((0, 0) : ℕ × ℕ)
  if 0 < coremapBytes then pure (u32 (total + u32 (coremapBytes - numPages * 4096)))
  else pure total

/-! ### Threads -/

/-- A thread outside the lock. -/
inductive Kphase where
  | idle
  /-- in `subpage_kmalloc`, no page has a free block -/
  | page (sz : ℕ)
  /-- has a page for the blocks -/
  | fresh (sz prpage : ℕ)
  /-- in `allocpagerefpage`, for entry `j` of root `r` -/
  | refpage (sz prpage r j : ℕ)
  /-- `alloc_kpages` has returned -/
  | refgot (sz prpage r j va : ℕ)
  /-- somebody else allocated the pageref page -/
  | refspare (sz prpage r j va : ℕ)
  | refback (sz prpage r j : ℕ)
  /-- has a page to give back, and then returns -/
  | drop (prpage : ℕ)
  deriving DecidableEq

/-- A block that `kmalloc` returned and that was not freed. -/
structure LiveBlock where
  ptr : ℕ
  sz : ℕ
  deriving DecidableEq

/-- The size class of the block. -/
def LiveBlock.size (b : LiveBlock) : ℕ := ((blocktype b.sz).map sizes).getD 0

structure KheapSys where
  heap : Kheap
  phase : ℕ → Kphase
  /-- the pages that `alloc_kpages` gave to the allocator and that it has not given back -/
  kpages : List ℕ
  live : List LiveBlock

/-- The static variables at boot; pagerefs and memory have any contents. -/
def KheapSys.init (refs : ℕ → Pageref) (mem : ℕ → ℕ) : KheapSys where
  heap := ⟨fun _ => ⟨0, fun _ => false, 0⟩, fun _ => 0, 0, refs, mem⟩
  phase _ := .idle
  kpages := []
  live := []

inductive KheapEv where
  | kmalloc (t sz : ℕ)
  /-- `alloc_kpages(1)` returns to the thread -/
  | allocKpages (t va : ℕ)
  /-- the thread takes the lock (again) and goes on to where it drops it -/
  | locked (t : ℕ)
  | freeKpages (t : ℕ)
  | kfree (t ptr : ℕ)
  /-- someone writes to memory that is theirs -/
  | write (a v : ℕ)

/-- What `alloc_kpages` may return other than 0. -/
def KheapSys.Fresh (s : KheapSys) (va : ℕ) : Prop :=
  va ≠ 0 ∧ va % 4096 = 0 ∧ va + 4096 ≤ 4294967296 ∧ va ∉ s.kpages

instance (s : KheapSys) (va : ℕ) : Decidable (s.Fresh va) := inferInstanceAs (Decidable (_ ∧ _))

/-- A word outside the pages of the allocator, or in a live block. -/
def KheapSys.Foreign (s : KheapSys) (a : ℕ) : Prop :=
  a / 4096 * 4096 ∉ s.kpages ∨ ∃ b ∈ s.live, b.ptr ≤ a ∧ a < b.ptr + b.size

instance (s : KheapSys) (a : ℕ) : Decidable (s.Foreign a) := inferInstanceAs (Decidable (_ ∨ _))

def KheapSys.setPhase (s : KheapSys) (t : ℕ) (ph : Kphase) : KheapSys :=
  { s with phase := Function.update s.phase t ph }

/-- A section under the lock, and what follows from its result. A panic ends the run. -/
def KheapSys.run {α : Type} (s : KheapSys) (x : HeapM α) (next : α → KheapSys → Option KheapSys) :
    Option KheapSys :=
  match x s.heap with
  | .ok a h => next a { s with heap := h }
  | .err e _ => nomatch e
  | .panic => none

/-- `kmalloc` returns a block. -/
def KheapSys.returnBlock (t sz ptr : ℕ) (s : KheapSys) : KheapSys :=
  { s with live := ⟨ptr, sz⟩ :: s.live }.setPhase t .idle

/-- The rest of `subpage_kmalloc` once `allocpageref` has returned. -/
def KheapSys.gotRef (t sz prpage : ℕ) (pr : Option ℕ) (s : KheapSys) : Option KheapSys :=
  match pr with
  | none => some (s.setPhase t (.drop prpage))
  | some pr =>
    match blocktype sz with
    | none => none
    | some blktype => s.run (subpageNewpage blktype prpage pr) fun ptr s => some (s.returnBlock t sz ptr)

/-- One step. The other threads run between any two; `blocktype` panics for sizes
that `kmalloc` does not pass on. -/
def kheapStep (s : KheapSys) : KheapEv → Option KheapSys
  | .kmalloc t sz =>
    if s.phase t = .idle ∧ sz < 2048 then
      match blocktype sz with
      | none => none
      | some blktype => s.run (subpageKmalloc blktype) fun ptr s =>
        match ptr with
        | some ptr => some (s.returnBlock t sz ptr)
        | none => some (s.setPhase t (.page sz))
    else none
  | .allocKpages t va =>
    match s.phase t with
    | .page sz =>
      if va = 0 then some (s.setPhase t .idle)
      else if s.Fresh va then some ({ s with kpages := va :: s.kpages }.setPhase t (.fresh sz va))
      else none
    | .refpage sz prpage r j =>
      if va = 0 then some (s.setPhase t (.refgot sz prpage r j 0))
      else if s.Fresh va then some ({ s with kpages := va :: s.kpages }.setPhase t (.refgot sz prpage r j va))
      else none
    | _ => none
  | .locked t =>
    match s.phase t with
    | .fresh sz prpage => s.run allocpageref fun res s =>
      match res with
      | .null => s.gotRef t sz prpage none
      | .ready pr => s.gotRef t sz prpage (some pr)
      | .noPage r j => some (s.setPhase t (.refpage sz prpage r j))
    | .refgot sz prpage r j va => s.run (allocpagerefpageBack r va) fun spare s =>
      if spare then some (s.setPhase t (.refspare sz prpage r j va))
      else s.run (allocpagerefEnd r j) fun pr s => s.gotRef t sz prpage pr
    | .refback sz prpage r j =>
      if (s.heap.kheaproots r).page = 0 then none
      else s.run (allocpagerefEnd r j) fun pr s => s.gotRef t sz prpage pr
    | _ => none
  | .freeKpages t =>
    match s.phase t with
    | .refspare sz prpage r j va =>
      some ({ s with kpages := s.kpages.erase va }.setPhase t (.refback sz prpage r j))
    | .drop prpage => some ({ s with kpages := s.kpages.erase prpage }.setPhase t .idle)
    | _ => none
  | .kfree t ptr =>
    if s.phase t = .idle ∧ ∃ b ∈ s.live, b.ptr = ptr then
      s.run (subpageKfree ptr) fun res s =>
        let s := { s with live := s.live.filter fun b => b.ptr ≠ ptr }
        match res with
        | .freed => some s
        | .wholePage prpage => some (s.setPhase t (.drop prpage))
        -- taken for a large block
        | .notOurs => if ptr % 4096 = 0 then some (s.setPhase t (.drop ptr)) else none
    else none
  | .write a v =>
    if a % 4 = 0 ∧ s.Foreign a then some { s with heap := { s.heap with mem := Function.update s.heap.mem a v } }
    else none

/-! ### Conditions on a step -/

/-- Going on from this phase does not give up an entry that is marked: `allocpagerefpage`
has a page, or somebody else has got one. -/
def Kheap.KeepsRef (h : Kheap) : Kphase → Prop
  | .refgot _ _ r _ va => va ≠ 0 ∨ (h.kheaproots r).page ≠ 0
  | _ => True

instance (h : Kheap) : (ph : Kphase) → Decidable (h.KeepsRef ph)
  | .refgot _ _ _ _ _ => inferInstanceAs (Decidable (_ ∨ _))
  | .idle => isTrue trivial
  | .page _ => isTrue trivial
  | .fresh _ _ => isTrue trivial
  | .refpage _ _ _ _ => isTrue trivial
  | .refspare _ _ _ _ _ => isTrue trivial
  | .refback _ _ _ _ => isTrue trivial
  | .drop _ => isTrue trivial

def KheapSys.KeepsRef (s : KheapSys) : KheapEv → Prop
  | .locked t => s.heap.KeepsRef (s.phase t)
  | _ => True

/-- A root that has no page yet still has an entry to spare. -/
def KheapSys.Spacious (s : KheapSys) : Prop :=
  ∀ r < 16, (s.heap.kheaproots r).page = 0 → (s.heap.kheaproots r).numinuse < 256

/-- The step after which `kmalloc` returns NULL to thread `t`. -/
def KheapSys.GivesUp (s : KheapSys) (t : ℕ) (e : KheapEv) (s' : KheapSys) : Prop :=
  (e = .allocKpages t 0 ∧ ∃ sz, s.phase t = .page sz) ∨ (e = .locked t ∧ ∃ prpage, s'.phase t = .drop prpage)

/-! ### What the heap is to be -/

/-- The entry that a thread has marked and has not used yet. -/
def Kphase.entry : Kphase → List (ℕ × ℕ)
  | .refpage _ _ r j => [(r, j)]
  | .refgot _ _ r j _ => [(r, j)]
  | .refspare _ _ r j _ => [(r, j)]
  | .refback _ _ r j => [(r, j)]
  | _ => []

/-- The accounts of the pagerefs: a root counts its marked entries, and each of them is
on the list of `allbase` or belongs to an allocation in progress. -/
structure KheapSys.Accounted (s : KheapSys) : Prop where
  count : ∀ r < 16, (s.heap.kheaproots r).numinuse = (List.range 256).countP (s.heap.kheaproots r).pagerefsInuse
  owned : ∃ all, Linked 0 (fun pr => (s.heap.refs pr).nextAll) s.heap.allbase all ∧
    ∀ r < 16, ∀ j < 256, (s.heap.kheaproots r).pagerefsInuse j = true →
      ((s.heap.kheaproots r).page ≠ 0 ∧ (s.heap.kheaproots r).page + 16 * j ∈ all) ∨ ∃ t, (r, j) ∈ (s.phase t).entry

/-- No assertion fails when a live block is freed. -/
def KheapSys.FreesWell (s : KheapSys) : Prop :=
  ∀ b ∈ s.live, ∃ res h, subpageKfree b.ptr s.heap = .ok res h

/-- Where the free list of a page starts. -/
def Pageref.freeHead (p : Pageref) : ℕ :=
  if p.freelistOffset = invalidOffset then 0 else p.pageaddr + p.freelistOffset

/-- The free list of a page visits the blocks `nodes`. -/
def Kheap.FreeList (h : Kheap) (pr : ℕ) (nodes : List ℕ) : Prop :=
  Linked 0 h.mem (h.refs pr).freeHead nodes

/-- The two kinds of lists, the free lists in the pages and the blocks that are out
agree; `all` is the list of `allbase`. -/
structure KheapSys.Agree (s : KheapSys) (all : List ℕ) : Prop where
  allbase : Linked 0 (fun pr => (s.heap.refs pr).nextAll) s.heap.allbase all
  once : all.Nodup
  sizebases : ∀ k < 8, ∃ same, Linked 0 (fun pr => (s.heap.refs pr).nextSamesize) (s.heap.sizebases k) same ∧
    same.Nodup ∧ ∀ pr, pr ∈ same ↔ pr ∈ all ∧ (s.heap.refs pr).blktype = k
  blktype : ∀ pr ∈ all, (s.heap.refs pr).blktype < 8
  /-- a free list has `nfree` nodes: the blocks of the page that are not live, each once -/
  free : ∀ pr ∈ all, ∃ nodes, s.heap.FreeList pr nodes ∧ nodes.length = (s.heap.refs pr).nfree ∧ nodes.Nodup ∧
    ∀ x, x ∈ nodes ↔ (∃ c < 4096 / sizes (s.heap.refs pr).blktype,
      x = (s.heap.refs pr).pageaddr + c * sizes (s.heap.refs pr).blktype) ∧ ∀ b ∈ s.live, b.ptr ≠ x
  /-- a live block is large enough, and a block of its page -/
  live : ∀ b ∈ s.live, b.sz ≤ b.size ∧ ∃ pr ∈ all, b.size = sizes (s.heap.refs pr).blktype ∧
    ∃ c, b.ptr = (s.heap.refs pr).pageaddr + c * b.size ∧
      b.ptr + b.size ≤ (s.heap.refs pr).pageaddr + 4096
  apart : s.live.Pairwise fun b b' => Apart b.ptr b.size b'.ptr b'.size
  apartFree : ∀ b ∈ s.live, ∀ pr ∈ all, ∀ nodes, s.heap.FreeList pr nodes → ∀ x ∈ nodes,
    Apart b.ptr b.size x (sizes (s.heap.refs pr).blktype)
  /-- `kheap_getused` without a coremap -/
  used : kheapGetused 0 s.heap = .ok (s.live.map LiveBlock.size).sum s.heap

/-! ### `kmalloc` -/

/-- Where a request goes. -/
inductive KmallocWay where
  | subpage
  | pages (npages : UInt32)
  deriving DecidableEq

/-- The test in `kmalloc`; `GUARD_OVERHEAD` and `LABEL_OVERHEAD` are 0. -/
def kmallocWay (sz : UInt32) : KmallocWay :=
  let checksz := sz + 0 + 0
  if 2048 ≤ checksz then
    -- round up to a whole number of pages
    .pages ((sz + 4096 - 1) / 4096)
  else .subpage

/-- Pages that `kmalloc` returned. -/
structure LargeBlock where
  addr : ℕ
  sz : UInt32
  npages : UInt32

structure KmallocSys where
  sub : KheapSys
  large : List LargeBlock

def KmallocSys.init (refs : ℕ → Pageref) (mem : ℕ → ℕ) : KmallocSys := ⟨KheapSys.init refs mem, []⟩

inductive KmallocEv where
  /-- `kmalloc(sz)`; `va` is what `alloc_kpages` returns if it is asked for all the pages -/
  | kmalloc (t : ℕ) (sz : UInt32) (va : ℕ)
  /-- what goes on in the subpage allocator -/
  | sub (e : KheapEv)

/-- One step of requests of any size. -/
def kmallocStep (s : KmallocSys) : KmallocEv → Option KmallocSys
  | .kmalloc t sz va =>
    match kmallocWay sz with
    | .subpage => (kheapStep s.sub (.kmalloc t sz.toNat)).map fun sub => { s with sub := sub }
    | .pages npages =>
      if va = 0 then some s
      else if va % 4096 = 0 then some { s with large := ⟨va, sz, npages⟩ :: s.large }
      else none
  | .sub (.kmalloc _ _) => none
  | .sub e => (kheapStep s.sub e).map fun sub => { s with sub := sub }

/-- What was returned for requests of `sz` bytes is large enough. -/
structure KmallocSys.Enough (sz : UInt32) (s : KmallocSys) : Prop where
  sub : ∃ all, s.sub.Agree all ∧ ∀ b ∈ s.sub.live, b.sz = sz.toNat → sz.toNat ≤ b.size
  large : ∀ b ∈ s.large, b.sz = sz → sz.toNat ≤ b.npages.toNat * 4096 ∧ (0 < sz → 1 ≤ b.npages)

end Os161
