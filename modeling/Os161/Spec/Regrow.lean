import Os161.Spec.FileWrite

/-! A file that is cut short and grows again: what is to be read in the part that was cut off. -/

namespace Os161

/-- The calls that write a file or set its length. -/
inductive GrowEv where
  | write (r : FileReq)
  | truncate (ino len : ℕ)

/-- A run of such calls, whether they succeed or not. -/
def growStep (s : Sfs) : GrowEv → Option Sfs
  | .write r => ((sfsIo r.ino).after (s, r.uio)).map Prod.fst
  | .truncate ino len => (sfsItrunc ino len).after s

/-- The calls are for open regular files, and those that write file `i` start at `start`
or behind, where the numbers of file blocks do not wrap. -/
def GrowEv.WritesBehind (i start : ℕ) (s : Sfs) : GrowEv → Prop
  | .write r => ∃ off, r.IsWrite s off ∧ (r.ino = i → start ≤ off ∧ ¬ WrapsLow off)
  | .truncate ino _ => s.vol.loaded ino ∧ (s.vol.block ino).sfiType = sfsTypeFile

/-- From `a` up to `start` the file reads as zeros. -/
def Sfs.ZerosBetween (i a start : ℕ) (s : Sfs) : Prop :=
  ∀ k, a ≤ k → k < start → k < (s.vol.block i).sfiSize → s.vol.fbyte i k = 0

/-- The blocks that a truncation to `a` leaves in the file hold zeros from `a` on. These
are the blocks before the new end, and behind the indirect block one more, or all of
them if the new end is in the last two. -/
def Sfs.NothingStale (s : Sfs) (i a : ℕ) : Prop :=
  ∀ k, a ≤ k → (k / 512 < (a + 511) / 512 ∨ (15 ≤ k / 512 ∧ (k / 512 = (a + 511) / 512 ∨ 142 ≤ (a + 511) / 512))) →
    s.vol.fbyte i k = 0

end Os161
