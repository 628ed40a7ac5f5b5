import Os161.Spec.Uio

/-! The processors on the bus: `lamebus_find_cpus` makes a `struct cpu` for each of them,
and `lamebus_start_cpus` hands a number to each that is not running yet. -/

namespace Os161

structure BusCpu where
  /-- `c_number` -/
  number : ℕ
  /-- `c_hardware_number` -/
  hardwareNumber : ℕ
  deriving DecidableEq

/-- The registers of the bus controller that are read. -/
structure CtlRegs where
  vid : ℕ
  did : ℕ
  /-- `CTLREG_CPUS` -/
  cpus : ℕ
  /-- `CTLREG_SELF` -/
  self : ℕ

/-- What the two functions write. `curcpu` is the first of `allcpus`. -/
structure Lamebus where
  /-- `ls_uniprocessor` -/
  uniprocessor : Bool
  allcpus : List BusCpu
  /-- whether the next calls of `cpu_create` get their memory; those after them do -/
  kmem : List Bool
  /-- `CTLCPU_CIRQE` of each processor -/
  cirqe : ℕ → ℕ
  /-- the second word of the CRAM area of each processor, the first being the entry point -/
  cram : ℕ → Option ℕ
  /-- `CTLREG_CPUE`, if it was written -/
  cpue : Option ℕ

abbrev LamebusM := Op Lamebus Errno

/-- `LB_VENDOR_CS161` -/
def lbVendorCs161 : ℕ := 1

/-- `LBCS161_UPBUSCTL` -/
def upbusctl : ℕ := 1

/-- `MAXCPUS` -/
def maxcpus : ℕ := 32

/-- `cpu_create`; without memory it panics. `cpuarray_add` gives the number. -/
def cpuCreate (hardwareNumber : ℕ) : LamebusM Unit := do
  let s ← Op.get
  match s.kmem with
  | false :: _ => Op.panic
  | kmem => do
    Op.set { s with
      kmem := kmem.tail
      allcpus := s.allcpus ++ [⟨s.allcpus.length, hardwareNumber⟩] }
    -- `cpu_machdep_init`
    Op.kassert (s.allcpus.length < maxcpus)

/-- `curcpu->c_hardware_number = i` -/
def setHardwareNumber (i : ℕ) : LamebusM Unit :=
  Op.modify fun s => { s with allcpus := s.allcpus.modify 0 fun c => { c with hardwareNumber := i } }

/-- `bootcpu` and `hwnum`, whose length is `numcpus`. -/
structure CpuScan where
  bootcpu : ℕ
  hwnum : List ℕ

def findCpu (regs : CtlRegs) (f : CpuScan) (i : ℕ) : LamebusM CpuScan :=
  if regs.cpus.testBit i = true then
    if regs.self.testBit i = true then do
      setHardwareNumber i
      pure ⟨f.hwnum.length, f.hwnum ++ [i]⟩
    else pure { f with hwnum := f.hwnum ++ [i] }
  else pure f

/-- `hwnum[i]` -/
def CpuScan.get (f : CpuScan) (i : ℕ) : ℕ := f.hwnum.getD i 0

def routeIrqs (f : CpuScan) (i : ℕ) : LamebusM Unit :=
  Op.modify fun s => { s with cirqe := Function.update s.cirqe (f.get i) (if i ≠ f.bootcpu then 0 else 4294967295) }

def lamebusFindCpus (regs : CtlRegs) : LamebusM Unit :=
  if regs.vid = lbVendorCs161 ∧ regs.did = upbusctl then Op.modify fun s => { s with uniprocessor := true }
  else do
    let f ← (List.range 32).foldlM (findCpu regs) ⟨0, []⟩
    (List.range f.hwnum.length).foldlM (fun _ i => if i ≠ f.bootcpu then cpuCreate (f.get i) else pure ()) ()
    (List.range f.hwnum.length).foldlM (fun _ i => routeIrqs f i) ()

/-- `cram[0] = cpu_start_secondary; cram[1] = cpunum++` for processor `i`. -/
def startCpu (regs : CtlRegs) (cpunum i : ℕ) : LamebusM ℕ :=
  if regs.cpus.testBit i = true then
    if regs.self.testBit i = true then pure cpunum
    else do
      Op.modify fun s => { s with cram := Function.update s.cram i (some cpunum) }
      pure (cpunum + 1)
  else pure cpunum

def lamebusStartCpus (regs : CtlRegs) : LamebusM Unit := do
  let s ← Op.get
  if s.uniprocessor = true then pure ()
  else do
    let _ ← (List.range 32).foldlM (startCpu regs) 1
    Op.modify fun s => { s with cpue := some regs.cpus }

/-- What `mainbus_bootstrap` and `mainbus_start_cpus` do about the processors. -/
def bringUpCpus (regs : CtlRegs) : LamebusM Unit := do
  lamebusFindCpus regs
  lamebusStartCpus regs

/-- The bus before that: only the boot processor has its structure, with some hardware
number, and nothing was written. -/
def Lamebus.booted (hardwareNumber : ℕ) (cirqe : ℕ → ℕ) (kmem : List Bool) : Lamebus where
  uniprocessor := false
  allcpus := [⟨0, hardwareNumber⟩]
  kmem := kmem
  cirqe := cirqe
  cram _ := none
  cpue := none

/-- The processor with hardware number `h` was switched on with the number `k`. -/
def Lamebus.Started (s : Lamebus) (h k : ℕ) : Prop :=
  (∃ mask, s.cpue = some mask ∧ mask.testBit h = true) ∧ s.cram h = some k

/-- The numbers agree with the structures. -/
structure Lamebus.NumbersAgree (s : Lamebus) (secondaries : Finset ℕ) : Prop where
  started : ∀ h, h ∈ secondaries ↔ ∃ k, s.Started h k
  agree : ∀ h ∈ secondaries, ∀ k, s.Started h k ↔ (⟨k, h⟩ : BusCpu) ∈ s.allcpus
  /-- the structure with number `k` is the one at index `k` -/
  index : ∀ k (c : BusCpu), s.allcpus[k]? = some c → c.number = k
  distinct : ∀ h h' k, s.Started h k → s.Started h' k → h = h'
  numbers : ∀ k, (∃ h, s.Started h k) ↔ 1 ≤ k ∧ k ≤ secondaries.card

/-- The processors of the mask but the boot processor. -/
def CtlRegs.secondaries (regs : CtlRegs) (boot : ℕ) : Finset ℕ :=
  (Finset.range 32).filter fun h => regs.cpus.testBit h = true ∧ h ≠ boot

end Os161
