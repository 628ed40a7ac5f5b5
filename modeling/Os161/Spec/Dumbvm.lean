import Os161.Lib.Run
import Os161.Spec.Uio

/-! Physical memory of `kern/arch/mips/vm`: `ram.c`, and constants of `dumbvm.c`. Addresses,
sizes and page counts are 32-bit words. -/

namespace Os161

def pageSize : ℕ := 4096

/-- `USERSPACETOP`, which is also `USERSTACK` -/
def userspacetop : ℕ := 2147483648

def dumbvmStackpages : ℕ := 18

/-- `a & PAGE_FRAME` -/
def pageFrame (a : ℕ) : ℕ := a / pageSize * pageSize

/-- `firstpaddr` and `lastpaddr` -/
structure Ram where
  firstpaddr : ℕ
  lastpaddr : ℕ
  first_word : firstpaddr < 4294967296
  last_word : lastpaddr < 4294967296
  deriving DecidableEq

/-- `ram_stealmem`; 0 says that there is no memory. -/
def ramStealmem (npages : ℕ) (ram : Ram) : ℕ × Ram :=
  let size := npages * pageSize % 4294967296
  let top := (ram.firstpaddr + size) % 4294967296
  if ram.lastpaddr < top then (0, ram)
  else (ram.firstpaddr, { ram with firstpaddr := top, first_word := Nat.mod_lt _ (by decide) })

/-- A call of `ram_stealmem` that succeeded. -/
structure Stolen where
  paddr : ℕ
  npages : ℕ
  deriving DecidableEq

def Stolen.top (r : Stolen) : ℕ := r.paddr + r.npages * pageSize

/-- The memory after some calls, and those that succeeded, last first. -/
structure StealLog where
  ram : Ram
  stolen : List Stolen

/-- `getppages` makes each call of `ram_stealmem` under `stealmem_lock`. -/
def stealStep (s : StealLog) (npages : UInt32) : Option StealLog :=
  let (paddr, ram) := ramStealmem npages.toNat s.ram
  some { ram := ram, stolen := if paddr = 0 then s.stolen else ⟨paddr, npages.toNat⟩ :: s.stolen }

/-- The ranges lie in the memory there was at first, and none meets another. -/
structure StealLog.Right (ram : Ram) (s : StealLog) : Prop where
  inside : ∀ r ∈ s.stolen, ram.firstpaddr ≤ r.paddr ∧ r.top ≤ ram.lastpaddr
  disjoint : s.stolen.Pairwise fun r q => r.top ≤ q.paddr ∨ q.top ≤ r.paddr

/-- The end of the range asked for is an address, or wraps to one that is refused. -/
def StealLog.Fits (s : StealLog) (npages : UInt32) : Prop :=
  s.ram.firstpaddr = 0 ∨ s.ram.firstpaddr + npages.toNat * pageSize < 4294967296 ∨
    s.ram.lastpaddr < (s.ram.firstpaddr + npages.toNat * pageSize) % 4294967296

instance (s : StealLog) (npages : UInt32) : Decidable (s.Fits npages) :=
  inferInstanceAs (Decidable (_ ∨ _ ∨ _))

end Os161
