import Mathlib.Tactic

/-! Buffers of a fixed number of bytes, read and written in slices, with the
big-endian numbers that lie in them. -/

namespace Os161

/-- A buffer of `n` bytes. -/
def Bytes (n : ℕ) : Type := Fin n → UInt8

/-- The value of a big-endian number. -/
def ofBe (l : List UInt8) : ℕ := l.foldl (fun v x => 256 * v + x.toNat) 0

/-- The `w` bytes of a big-endian number. -/
def toBe : ℕ → ℕ → List UInt8
  | 0, _ => []
  | w + 1, v => toBe w (v / 256) ++ [UInt8.ofNat (v % 256)]

@[simp] theorem length_toBe (w v : ℕ) : (toBe w v).length = w := by
  induction w generalizing v with
  | zero => rfl
  | succ w ih => simp [toBe, ih]

theorem ofBe_concat (l : List UInt8) (x : UInt8) : ofBe (l ++ [x]) = 256 * ofBe l + x.toNat := by
  simp [ofBe]

theorem ofBe_toBe {w v : ℕ} (h : v < 256 ^ w) : ofBe (toBe w v) = v := by
  induction w generalizing v with
  | zero => simp_all [toBe, ofBe]
  | succ w ih =>
    have hdiv : v / 256 < 256 ^ w := by
      rw [pow_succ] at h
      omega
    have hmod : (UInt8.ofNat (v % 256)).toNat = v % 256 := by
      rw [UInt8.toNat_ofNat']
      omega
    rw [toBe, ofBe_concat, ih hdiv, hmod]
    omega

theorem ofBe_lt (l : List UInt8) : ofBe l < 256 ^ l.length := by
  induction l using List.reverseRecOn with
  | nil => decide
  | append_singleton l x ih =>
    have hx := x.toNat_lt
    rw [ofBe_concat, List.length_append, List.length_singleton, pow_succ]
    omega

namespace Bytes

variable {n : ℕ}

def zero : Bytes n := fun _ => 0

/-- The byte at an offset, 0 past the end. -/
def byte (b : Bytes n) (k : ℕ) : UInt8 := if h : k < n then b ⟨k, h⟩ else 0

/-- The `len` bytes from offset `o` on. -/
def slice (b : Bytes n) (o len : ℕ) : List UInt8 := (List.range len).map fun k => b.byte (o + k)

/-- The bytes of `l` go over those from offset `o` on. -/
def splice (b : Bytes n) (o : ℕ) (l : List UInt8) : Bytes n := fun k =>
  if o ≤ k.1 ∧ k.1 < o + l.length then l.getD (k.1 - o) 0 else b k

def toList (b : Bytes n) : List UInt8 := b.slice 0 n

def ofList (l : List UInt8) : Bytes n := zero.splice 0 l

/-- The big-endian number of `w` bytes at offset `o`. -/
def num (w : ℕ) (b : Bytes n) (o : ℕ) : ℕ := ofBe (b.slice o w)

def setNum (w : ℕ) (b : Bytes n) (o v : ℕ) : Bytes n := b.splice o (toBe w v)

@[ext] theorem ext {b c : Bytes n} (h : ∀ k, k < n → b.byte k = c.byte k) : b = c := by
  funext k
  simpa [byte] using h k k.2

@[simp] theorem byte_zero (k : ℕ) : (zero : Bytes n).byte k = 0 := by
  unfold byte zero
  split_ifs <;> rfl

theorem byte_splice (b : Bytes n) (o : ℕ) (l : List UInt8) {k : ℕ} (hk : k < n) :
    (b.splice o l).byte k = if o ≤ k ∧ k < o + l.length then l.getD (k - o) 0 else b.byte k := by
  simp [byte, splice, hk]

theorem byte_splice_of_not_mem (b : Bytes n) {o k : ℕ} {l : List UInt8}
    (h : k < o ∨ o + l.length ≤ k) : (b.splice o l).byte k = b.byte k := by
  by_cases hk : k < n
  · rw [byte_splice _ _ _ hk, if_neg (by omega)]
  · simp [byte, hk]

@[simp] theorem length_slice (b : Bytes n) (o len : ℕ) : (b.slice o len).length = len := by
  simp [slice]

theorem slice_getD (b : Bytes n) (o : ℕ) {len k : ℕ} (hk : k < len) :
    (b.slice o len).getD k 0 = b.byte (o + k) := by
  simp [slice, hk]

theorem slice_congr {b c : Bytes n} {o len : ℕ}
    (h : ∀ k, o ≤ k → k < o + len → b.byte k = c.byte k) : b.slice o len = c.slice o len := by
  unfold slice
  apply List.map_congr_left
  intro k hk
  rw [List.mem_range] at hk
  exact h _ (by omega) (by omega)

/-- What was written is read back. -/
theorem slice_splice_same (b : Bytes n) {o : ℕ} {l : List UInt8} (h : o + l.length ≤ n) :
    (b.splice o l).slice o l.length = l := by
  apply List.ext_getElem
  · simp
  · intro k hk hl
    rw [length_slice] at hk
    simp only [slice, List.getElem_map, List.getElem_range]
    rw [byte_splice b o l (by omega), if_pos (by omega), Nat.add_sub_cancel_left]
    simp [hl]

/-- A write changes nothing outside. -/
theorem slice_splice_of_disjoint (b : Bytes n) {o o' len : ℕ} {l : List UInt8}
    (h : o' + len ≤ o ∨ o + l.length ≤ o') : (b.splice o l).slice o' len = b.slice o' len :=
  slice_congr fun _ h1 h2 => byte_splice_of_not_mem b (by omega)

theorem slice_append (b : Bytes n) (o k len : ℕ) :
    b.slice o (k + len) = b.slice o k ++ b.slice (o + k) len := by
  simp [slice, List.range_add, Nat.add_assoc]

@[simp] theorem slice_zero_eq (o len : ℕ) : (zero : Bytes n).slice o len = List.replicate len 0 := by
  simp [slice]

@[simp] theorem ofList_toList (b : Bytes n) : ofList b.toList = b := by
  apply ext
  intro k hk
  rw [ofList, byte_splice _ _ _ hk, toList, length_slice, if_pos (by omega), Nat.sub_zero,
    slice_getD _ _ hk, Nat.zero_add]

@[simp] theorem length_toList (b : Bytes n) : b.toList.length = n := length_slice ..

/-- A buffer that is only begun is filled up with zeros. -/
theorem toList_ofList_pad {l : List UInt8} (h : l.length ≤ n) :
    (ofList l : Bytes n).toList = l ++ List.replicate (n - l.length) 0 := by
  obtain ⟨k, rfl⟩ := Nat.exists_eq_add_of_le h
  rw [toList, ofList, slice_append, slice_splice_same _ (by omega), slice_splice_of_disjoint _ (Or.inr (by omega)),
    slice_zero_eq, Nat.add_sub_cancel_left]

theorem toList_map (f : UInt8 → UInt8) (b : Bytes n) : toList (fun i => f (b i)) = b.toList.map f := by
  unfold toList slice
  rw [List.map_map]
  apply List.map_congr_left
  intro k hk
  simp [byte, List.mem_range.mp hk]

/-- The whole buffer is written. -/
theorem splice_all (b : Bytes n) {l : List UInt8} (h : l.length = n) : b.splice 0 l = ofList l := by
  apply ext
  intro k hk
  rw [ofList, byte_splice _ _ _ hk, byte_splice _ _ _ hk, if_pos (by omega), if_pos (by omega)]

theorem num_lt (w : ℕ) (b : Bytes n) (o : ℕ) : b.num w o < 256 ^ w := by
  simpa [num] using ofBe_lt (b.slice o w)

theorem num_setNum_same (b : Bytes n) {w o v : ℕ} (h : o + w ≤ n) (hv : v < 256 ^ w) :
    (b.setNum w o v).num w o = v := by
  have := slice_splice_same b (o := o) (l := toBe w v) (by simpa using h)
  rw [length_toBe] at this
  rw [num, setNum, this, ofBe_toBe hv]

theorem num_setNum_of_disjoint (b : Bytes n) {w w' o o' v : ℕ} (h : o' + w' ≤ o ∨ o + w ≤ o') :
    (b.setNum w o v).num w' o' = b.num w' o' := by
  rw [num, setNum, slice_splice_of_disjoint _ (by simpa using h)]
  rfl

theorem ofBe_replicate_zero (w : ℕ) : ofBe (List.replicate w 0) = 0 := by
  induction w with
  | zero => rfl
  | succ w ih => rw [List.replicate_succ', ofBe_concat, ih]; rfl

@[simp] theorem num_zero (w o : ℕ) : (zero : Bytes n).num w o = 0 := by
  rw [num, slice_zero_eq, ofBe_replicate_zero]

end Bytes

end Os161
