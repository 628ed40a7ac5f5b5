import Os161.Spec.Dumbvm

/-! The TLBs of a machine with any number of CPUs under `kern/arch/mips/vm/dumbvm.c`. Each
process has one thread. A thread comes to a CPU through the end of `thread_switch` or through
`thread_startup`, which call `as_activate`; it may be switched out at any step, also in the
middle of `vm_fault`, and go on with another CPU. -/

namespace Os161

/-! ### Address spaces -/

structure Addrspace where
  vbase1 : ℕ
  pbase1 : ℕ
  npages1 : ℕ
  vbase2 : ℕ
  pbase2 : ℕ
  npages2 : ℕ
  stackpbase : ℕ
  deriving DecidableEq

/-- `as_create` -/
def asCreate : Addrspace := ⟨0, 0, 0, 0, 0, 0, 0⟩

/-- `USERSTACK - DUMBVM_STACKPAGES * PAGE_SIZE` -/
def stackbase : ℕ := userspacetop - dumbvmStackpages * pageSize

/-- The calls of `getppages` in `as_prepare_load`. -/
inductive VmAlloc where
  | first
  | second
  | stack
  deriving DecidableEq

namespace Addrspace

variable (as : Addrspace)

/-- `as_define_region`; a base of 0 says that there is no region yet. -/
def defineRegion (vaddr sz : ℕ) : Except Errno Addrspace :=
  -- align the region: first the base, then the length
  let sz := (sz + vaddr % pageSize) % 4294967296
  let vaddr := pageFrame vaddr
  let npages := pageFrame ((sz + pageSize - 1) % 4294967296) / pageSize
  if as.vbase1 = 0 then .ok { as with vbase1 := vaddr, npages1 := npages }
  else if as.vbase2 = 0 then .ok { as with vbase2 := vaddr, npages2 := npages }
  else .error .enosys

/-- What `vm_fault` asserts of an address space. -/
def Ready : Prop :=
  as.vbase1 ≠ 0 ∧ as.pbase1 ≠ 0 ∧ as.npages1 ≠ 0 ∧ as.vbase2 ≠ 0 ∧ as.pbase2 ≠ 0 ∧ as.npages2 ≠ 0 ∧ as.stackpbase ≠ 0 ∧
    pageFrame as.vbase1 = as.vbase1 ∧ pageFrame as.pbase1 = as.pbase1 ∧
    pageFrame as.vbase2 = as.vbase2 ∧ pageFrame as.pbase2 = as.pbase2 ∧ pageFrame as.stackpbase = as.stackpbase

instance : Decidable as.Ready := inferInstanceAs (Decidable (_ ∧ _))

/-- The physical page of a user page, as `vm_fault` finds it: the first match counts. -/
def paddr (faultaddress : ℕ) : Option ℕ :=
  let vtop1 := (as.vbase1 + as.npages1 * pageSize) % 4294967296
  let vtop2 := (as.vbase2 + as.npages2 * pageSize) % 4294967296
  if as.vbase1 ≤ faultaddress ∧ faultaddress < vtop1 then some ((faultaddress - as.vbase1 + as.pbase1) % 4294967296)
  else if as.vbase2 ≤ faultaddress ∧ faultaddress < vtop2 then some ((faultaddress - as.vbase2 + as.pbase2) % 4294967296)
  else if stackbase ≤ faultaddress ∧ faultaddress < userspacetop then
    some ((faultaddress - stackbase + as.stackpbase) % 4294967296)
  else none

/-- The pages that a call asks for. -/
def npages : VmAlloc → ℕ
  | .first => as.npages1
  | .second => as.npages2
  | .stack => dumbvmStackpages

def pbase : VmAlloc → ℕ
  | .first => as.pbase1
  | .second => as.pbase2
  | .stack => as.stackpbase

def setPbase (paddr : ℕ) : VmAlloc → Addrspace
  | .first => { as with pbase1 := paddr }
  | .second => { as with pbase2 := paddr }
  | .stack => { as with stackpbase := paddr }

end Addrspace

/-! ### One thread and the TLB of its CPU -/

inductive VmPhase where
  | unborn
  -- `runprogram` has not given its process an address space, or `load_elf` failed
  | kernel
  -- between `proc_setas` and `as_activate` in `runprogram`
  | setas
  -- in `load_elf`, before `as_prepare_load`
  | regions
  -- in `as_prepare_load`, before this call of `getppages`
  | prepare (k : VmAlloc)
  -- going to touch user memory, in `load_segment` or in user mode
  | user
  -- in `vm_fault`, before the page is looked up in the address space
  | fault (page : ℕ)
  -- in `vm_fault`, before the TLB is written
  | found (page paddr : ℕ)
  | gone
  deriving DecidableEq

/-- Behind a call of `getppages` that succeeded. -/
def VmAlloc.next : VmAlloc → VmPhase
  | .first => .prepare .second
  | .second => .prepare .stack
  | .stack => .user

/-- A thread, and `p_addrspace` of its process. -/
structure VmThread where
  phase : VmPhase
  as : Option Addrspace
  deriving DecidableEq

/-- The valid entries of a TLB have a page and its physical page. -/
abbrev Tlb := List (Option (ℕ × ℕ))

def Tlb.pages (l : Tlb) : List ℕ := (l.filterMap id).map Prod.fst

/-- The loop of `vm_fault` over the TLB: the first entry that is not valid is written. -/
def tlbInstall (e : ℕ × ℕ) : Tlb → Option Tlb
  | [] => none
  | none :: rest => some (some e :: rest)
  | some x :: rest => (tlbInstall e rest).map (some x :: ·)

/-- `as_activate`, which does nothing for a thread without an address space. -/
def asActivate (x : VmThread) (l : Tlb) : Tlb := if x.as = none then l else List.replicate 64 none

/-- Physical memory that `getppages` handed out, to the process of a thread or to the kernel. -/
structure VmRange where
  owner : Option ℕ
  paddr : ℕ
  npages : ℕ
  deriving DecidableEq

def VmRange.top (r : VmRange) : ℕ := r.paddr + r.npages * pageSize

inductive VmOp where
  | setas
  | activate
  | define (vaddr sz : UInt32)
  | prepare
  -- `getppages` in `as_prepare_load` gives this address
  | getppages (paddr : ℕ)
  -- user memory is read or written at this address
  | touch (va : UInt32)
  | translate
  | install
  -- `load_elf` returns an error
  | leave
  | exit

/-- A step of thread `t`: the thread, the TLB and the memory it was given afterwards. There
is none if the thread is not at that point, or if an assertion fails. -/
def VmThread.step (t : ℕ) (x : VmThread) (l : Tlb) (op : VmOp) : Option (VmThread × Tlb × Option VmRange) :=
  match op, x.phase, x.as with
  | .setas, .kernel, none => some (⟨.setas, some asCreate⟩, l, none)
  | .activate, .setas, some a => some (⟨.regions, some a⟩, asActivate x l, none)
  | .define vaddr sz, .regions, some a =>
    match a.defineRegion vaddr.toNat sz.toNat with
    | .ok a => some (⟨.regions, some a⟩, l, none)
    | .error _ => some (⟨.kernel, some a⟩, l, none)
  | .prepare, .regions, some a =>
    if a.pbase1 = 0 ∧ a.pbase2 = 0 ∧ a.stackpbase = 0 then some (⟨.prepare .first, some a⟩, l, none) else none
  | .getppages paddr, .prepare k, some a =>
    if paddr = 0 then some (⟨.kernel, some a⟩, l, none)
    else some (⟨k.next, some (a.setPbase paddr k)⟩, l, some ⟨some t, paddr, a.npages k⟩)
  | .touch va, .user, some a =>
    if pageFrame va.toNat ∈ Tlb.pages l then some (x, l, none) else some (⟨.fault (pageFrame va.toNat), some a⟩, l, none)
  | .translate, .fault page, some a =>
    if a.Ready then
      match a.paddr page with
      | some paddr => if pageFrame paddr = paddr then some (⟨.found page paddr, some a⟩, l, none) else none
      | none => some (⟨.user, some a⟩, l, none)
    else none
  -- without an entry that is free, the fault is an error
  | .install, .found page paddr, some a => some (⟨.user, some a⟩, (tlbInstall (page, paddr) l).getD l, none)
  | .leave, .regions, some a => some (⟨.kernel, some a⟩, l, none)
  | .leave, .user, some a => some (⟨.kernel, some a⟩, l, none)
  | .exit, _, _ => some (⟨.gone, none⟩, l, none)
  | _, _, _ => none

/-! ### The machine -/

structure Vm where
  ncpus : ℕ
  /-- `curthread` of each CPU -/
  cur : ℕ → ℕ
  tlb : ℕ → Tlb
  thread : ℕ → VmThread
  given : List VmRange

def Vm.curthread (s : Vm) (c : ℕ) : VmThread := s.thread (s.cur c)

inductive VmEvent where
  -- `thread_fork`
  | fork (t : ℕ)
  -- a CPU goes on with a thread that no other CPU runs
  | switch (c t : ℕ)
  | run (c : ℕ) (op : VmOp)
  -- `getppages` for the kernel
  | kpages (npages paddr : ℕ)

def vmStep (s : Vm) : VmEvent → Option Vm
  | .fork t =>
    if (s.thread t).phase = .unborn then some { s with thread := Function.update s.thread t ⟨.kernel, none⟩ } else none
  | .switch c t =>
    if c < s.ncpus ∧ (∀ c' < s.ncpus, c' ≠ c → s.cur c' ≠ t) ∧ (s.thread t).phase ≠ .unborn ∧ (s.thread t).phase ≠ .gone then
      some { s with cur := Function.update s.cur c t, tlb := Function.update s.tlb c (asActivate (s.thread t) (s.tlb c)) }
    else none
  | .run c op =>
    if c < s.ncpus then
      ((s.curthread c).step (s.cur c) (s.tlb c) op).map fun r => { s with
        thread := Function.update s.thread (s.cur c) r.1
        tlb := Function.update s.tlb c r.2.1
        given := r.2.2.toList ++ s.given }
    else none
  | .kpages npages paddr => some { s with given := if paddr = 0 then s.given else ⟨none, paddr, npages⟩ :: s.given }

/-- The range is of physical memory, and meets none that was given before. -/
def Vm.Fresh (s : Vm) (r : VmRange) : Prop := r.top ≤ 4294967296 ∧ ∀ q ∈ s.given, r.top ≤ q.paddr ∨ q.top ≤ r.paddr

instance Vm.decidableFresh (s : Vm) (r : VmRange) : Decidable (s.Fresh r) := inferInstanceAs (Decidable (_ ∧ _))

/-- What is assumed of `getppages`: the memory that a step is given is new. -/
def VmEvent.disjoint (s : Vm) : VmEvent → Bool
  | .run c op => (((s.curthread c).step (s.cur c) (s.tlb c) op).bind (·.2.2)).all fun r => s.Fresh r
  | .kpages npages paddr => paddr = 0 ∨ s.Fresh ⟨none, paddr, npages⟩
  | _ => true

/-- Every CPU runs a thread of its own, and there are no user processes yet. Nothing is said
about the TLBs. -/
structure Vm.Boot (s : Vm) : Prop where
  cur : ∀ c < s.ncpus, ∀ c' < s.ncpus, s.cur c = s.cur c' → c = c'
  kernel : ∀ t, (s.thread t).as = none
  given : s.given = []

/-- The thread goes on with user memory at its next step, or is in `vm_fault` because of it. -/
def VmPhase.touches : VmPhase → Bool
  | .user | .fault _ | .found _ _ => true
  | _ => false

/-- The valid entries of the CPU's TLB are translations of this address space, each to a page
of its own memory, which is not that of another process or of the kernel. No page has two. -/
structure Vm.Maps (s : Vm) (c : ℕ) (a : Addrspace) : Prop where
  paddr : ∀ e, some e ∈ s.tlb c → a.paddr e.1 = some e.2
  own : ∀ e, some e ∈ s.tlb c → ∃ k, ⟨some (s.cur c), a.pbase k, a.npages k⟩ ∈ s.given ∧
    a.pbase k ≤ e.2 ∧ e.2 + pageSize ≤ a.pbase k + a.npages k * pageSize
  apart : ∀ e, some e ∈ s.tlb c → ∀ r ∈ s.given, r.owner ≠ some (s.cur c) → e.2 + pageSize ≤ r.paddr ∨ r.top ≤ e.2
  once : (Tlb.pages (s.tlb c)).Nodup

def Vm.Isolated (s : Vm) : Prop :=
  ∀ c < s.ncpus, ∀ a, (s.curthread c).as = some a → (s.curthread c).phase.touches = true → s.Maps c a

end Os161
