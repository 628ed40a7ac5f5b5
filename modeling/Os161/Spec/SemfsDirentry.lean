import Os161.Spec.SemfsTable
import Os161.Spec.Uio

/-! `semfs_getdirentry` and a program that reads the whole directory with it. The position is
the slot of an entry, and what moves it on is `uiomove`, by the length of the name. -/

namespace Os161

def semfsGetdirentry (dents : List (Option SemDirent)) : Op Uio Errno Unit := do
  let u ← Op.get
  Op.kassert (0 ≤ u.offset)
  if dents.length ≤ u32 u.offset then pure ()
  else
    match slotAt dents (u32 u.offset) with
    -- `dent->semd_name` of a null pointer
    | none => Op.panic
    | some dent => do
      let _ ← uiomove dent.name
      pure ()

/-- Calls from `offset` on, each with the transfer that `uio` makes for its offset, until one
of them transfers nothing: the names that they give. There is no list if a call fails, or if
`calls` calls are not enough. -/
def readDir (dents : List (Option SemDirent)) (uio : ℤ → Uio) : ℕ → ℤ → Option (List (List UInt8))
  | 0, _ => none
  | calls + 1, offset =>
    match semfsGetdirentry dents (uio offset) with
    | .ok _ u => if u.passed = [] then some [] else (readDir dents uio calls u.offset).map (u.passed :: ·)
    | .err _ _ => none
    | .panic => none

/-- The transfers are reads at their offsets, each with room for any name of the directory. -/
structure ReadsNames (dents : List (Option SemDirent)) (uio : ℤ → Uio) : Prop where
  offset : ∀ offset, (uio offset).offset = offset
  passed : ∀ offset, (uio offset).passed = []
  rw : ∀ offset, (uio offset).rw = .read
  ready : ∀ offset, (uio offset).Ready
  room : ∀ offset i d, slotAt dents i = some d → d.name.length ≤ (uio offset).resid

/-- The calls come to an end, and give each name of the directory once. -/
def Enumerates (dents : List (Option SemDirent)) (uio : ℤ → Uio) : Prop :=
  ∃ calls names, readDir dents uio calls 0 = some names ∧ names.Nodup ∧
    ∀ name, name ∈ names ↔ ∃ i d, slotAt dents i = some d ∧ d.name = name

/-- The array of pointers and a name are in one address space. -/
def FitsMemory (dents : List (Option SemDirent)) : Prop :=
  4 * dents.length ≤ 4294967296 ∧ ∀ i d, slotAt dents i = some d → 4 * dents.length + d.name.length ≤ 4294967296

/-- There is an entry in slot `i`, or it is past the end. -/
def AtEntry (dents : List (Option SemDirent)) (i : ℕ) : Prop := i < dents.length → ∃ d, slotAt dents i = some d

/-- The length of each name from slot `p` on is the way from its slot to that of the next
one, or leads past the end from the last. -/
def InStep (dents : List (Option SemDirent)) (p : ℕ) : Prop :=
  AtEntry dents p ∧ ∀ i d, p ≤ i → slotAt dents i = some d →
    d.name ≠ [] ∧ AtEntry dents (i + d.name.length) ∧
      ∀ j, i < j → j < i + d.name.length → slotAt dents j = none

end Os161
