import Os161.Lib.Copy

/-! `memcpy` and `memmove` of libc, over the bytes of one memory with 32-bit addresses. -/

namespace Os161

namespace LibcString

/-- The address of `p[i]`, for elements of `w` bytes -/
def elemAddr (p w i : ℕ) : ℕ := (p + i * w) % 4294967296

/-- `d[i] = s[i]` -/
def assign (w dst src : ℕ) (mem : ℕ → UInt8) (i : ℕ) : ℕ → UInt8 :=
  copyCells w mem (elemAddr dst w i) (elemAddr src w i)

/-- `for (i=0; i<n; i++) d[i] = s[i]` -/
def forwards (w dst src n : ℕ) (mem : ℕ → UInt8) : ℕ → UInt8 := (List.range n).foldl (assign w dst src) mem

/-- `for (i=n; i>0; i--) d[i-1] = s[i-1]` -/
def backwards (w dst src : ℕ) : ℕ → (ℕ → UInt8) → ℕ → UInt8
  | 0, mem => mem
  | i + 1, mem => backwards w dst src i (assign w dst src mem i)

/-- Whether a copy goes by words: `sizeof(long)` is 4. -/
def Aligned (dst src len : ℕ) : Prop := dst % 4 = 0 ∧ src % 4 = 0 ∧ len % 4 = 0

instance (dst src len : ℕ) : Decidable (Aligned dst src len) := inferInstanceAs (Decidable (_ ∧ _))

/-- The pointer that is returned, and the memory. -/
def memcpy (dst src len : ℕ) (mem : ℕ → UInt8) : ℕ × (ℕ → UInt8) :=
  if Aligned dst src len then (dst, forwards 4 dst src (len / 4) mem) else (dst, forwards 1 dst src len mem)

def memmove (dst src len : ℕ) (mem : ℕ → UInt8) : ℕ × (ℕ → UInt8) :=
  if dst < src then memcpy dst src len mem
  else if Aligned dst src len then (dst, backwards 4 dst src (len / 4) mem)
  else (dst, backwards 1 dst src len mem)

/-- What `memmove` is for, and that its loops by words do what those by bytes do. -/
structure Moves (dst src len : ℕ) (mem : ℕ → UInt8) : Prop where
  returned : (memmove dst src len mem).1 = dst
  moved : ∀ i < len, (memmove dst src len mem).2 (dst + i) = mem (src + i)
  kept : ∀ a, a < dst ∨ dst + len ≤ a → (memmove dst src len mem).2 a = mem a
  up : dst < src → Aligned dst src len → forwards 4 dst src (len / 4) mem = forwards 1 dst src len mem
  down : src ≤ dst → Aligned dst src len → backwards 4 dst src (len / 4) mem = backwards 1 dst src len mem

end LibcString

end Os161
