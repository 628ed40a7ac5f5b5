import Mathlib.Data.List.GetD
import Os161.Proofs.Freemap

/-! The bytes of a file: what putting some of them into the blocks does to the file, to its
size, and to its contents as an array. -/

namespace Os161

open Op

/-- A number behind the end of the buffer. -/
theorem Bytes.num_of_le {n : ℕ} (b : Bytes n) (w : ℕ) {o : ℕ} (h : n ≤ o) : b.num w o = 0 := by
  have hslice : b.slice o w = List.replicate w 0 := by
    rw [← Bytes.slice_zero_eq o w]
    apply Bytes.slice_congr
    intro k hk _
    rw [Bytes.byte_zero, Bytes.byte, dif_neg (by omega)]
  rw [Bytes.num, hslice, Bytes.ofBe_replicate_zero]

namespace Vol

variable {V V' V'' : Vol} {P : List ℕ} {i j fb k off n : ℕ} {l l' : List UInt8}

theorem map_big (h : 143 ≤ fb) : V.map i fb = 0 := by
  rw [map, if_neg (by omega)]
  split_ifs
  · rfl
  · exact Bytes.num_of_le _ 4 (by omega)

theorem fbyte_big (h : 143 * 512 ≤ k) : V.fbyte i k = 0 := by
  rw [fbyte, data, if_pos (map_big (by omega)), Bytes.byte_zero]

@[simp] theorem length_bytes : (V.bytes i off n).length = n := by simp [bytes]

theorem bytes_getD (hk : k < n) : (V.bytes i off n).getD k 0 = V.fbyte i (off + k) := by
  simp [bytes, hk]

theorem bytes_add (m : ℕ) : V.bytes i off (n + m) = V.bytes i off n ++ V.bytes i (off + n) m := by
  simp [bytes, List.range_add, Nat.add_assoc]

theorem bytes_congr (h : ∀ k, off ≤ k → k < off + n → V'.fbyte j k = V.fbyte i k) :
    V'.bytes j off n = V.bytes i off n := by
  unfold bytes
  apply List.map_congr_left
  intro k hk
  rw [List.mem_range] at hk
  exact h _ (by omega) (by omega)

/-- The bytes of a file within one block. -/
theorem bytes_block {o : ℕ} (h : o + n ≤ 512) : V.bytes i (fb * 512 + o) n = (V.data i fb).slice o n := by
  unfold bytes Bytes.slice
  apply List.map_congr_left
  intro k hk
  rw [List.mem_range] at hk
  rw [fbyte, show (fb * 512 + o + k) / 512 = fb by omega, show (fb * 512 + o + k) % 512 = o + k by omega]

/-- `V'` is `V` with the bytes `l` in file `i` from offset `off` on. -/
structure Patched (V V' : Vol) (i off : ℕ) (l : List UInt8) : Prop where
  inode : ∀ j, V'.Inode j ↔ V.Inode j
  head : ∀ j, V.Inode j → (V.block j).SameHead (V'.block j)
  fbyte : ∀ j, V.Inode j → ∀ k, V'.fbyte j k =
    if j = i ∧ off ≤ k ∧ k < off + l.length then l.getD (k - off) 0 else V.fbyte j k

theorem patched_self (V : Vol) (i off n : ℕ) : V.Patched V i off (V.bytes i off n) := by
  refine ⟨fun _ => Iff.rfl, fun _ _ => .refl _, fun j _ k => ?_⟩
  split_ifs with h
  · obtain ⟨rfl, hle, hlt⟩ := h
    rw [length_bytes] at hlt
    rw [bytes_getD (by omega), show off + (k - off) = k by omega]
  · rfl

theorem Patched.trans (h : V.Patched V' i off l) (h' : V'.Patched V'' i (off + l.length) l') :
    V.Patched V'' i off (l ++ l') := by
  refine ⟨fun j => (h'.inode j).trans (h.inode j),
    fun j hj => (h.head j hj).trans (h'.head j ((h.inode j).mpr hj)), fun j hj k => ?_⟩
  rw [h'.fbyte j ((h.inode j).mpr hj), h.fbyte j hj, List.length_append]
  by_cases hji : j = i
  · simp only [hji, true_and]
    by_cases h1 : k < off
    · rw [if_neg (by omega), if_neg (by omega), if_neg (by omega)]
    · by_cases h2 : k < off + l.length
      · rw [if_neg (by omega), if_pos (by omega), if_pos (by omega), List.getD_append _ _ _ _ (by omega)]
      · by_cases h3 : k < off + l.length + l'.length
        · rw [if_pos (by omega), if_pos (by omega), List.getD_append_right _ _ _ _ (by omega), Nat.sub_sub]
        · rw [if_neg (by omega), if_neg (by omega), if_neg (by omega)]
  · simp only [hji, false_and, if_false]

theorem Same.fbyte (h : V.Same V') (hj : V.Inode j) (k : ℕ) : V'.fbyte j k = V.fbyte j k := by
  by_cases hk : k / 512 < 143
  · rw [Vol.fbyte, Vol.fbyte, h.data j hj _ hk]
  · rw [fbyte_big (by omega), fbyte_big (by omega)]

theorem Same.patched (h : V.Same V') (h' : V'.Patched V'' i off l) : V.Patched V'' i off l := by
  refine ⟨fun j => (h'.inode j).trans (h.inode j),
    fun j hj => (h.head j hj).trans (h'.head j ((h.inode j).mpr hj)), fun j hj k => ?_⟩
  rw [h'.fbyte j ((h.inode j).mpr hj), h.fbyte hj]

theorem SetData.patched {o : ℕ} (ho : o + l.length ≤ 512) (hfb : fb < 143)
    (hs : V.SetData V' i fb ((V.data i fb).splice o l)) : V.Patched V' i (fb * 512 + o) l := by
  refine ⟨hs.inode, hs.head, fun j hj k => ?_⟩
  by_cases hk : k / 512 < 143
  · rw [Vol.fbyte, Vol.fbyte, hs.data j hj _ hk]
    by_cases hji : j = i ∧ k / 512 = fb
    · obtain ⟨rfl, rfl⟩ := hji
      simp only [true_and, if_true]
      rw [Bytes.byte_splice _ _ _ (by omega)]
      by_cases hin : o ≤ k % 512 ∧ k % 512 < o + l.length
      · rw [if_pos hin, if_pos (by omega)]
        congr 1
        omega
      · rw [if_neg hin, if_neg (by omega)]
    · rw [if_neg hji, if_neg (by omega)]
  · rw [fbyte_big (by omega), fbyte_big (by omega), if_neg (by omega)]

end Vol

/-! ### The size of the file -/

/-- The volume after `out:` of `sfs_io`. -/
def Sfs.extended (t : Sfs) (i origresid : ℕ) (u : Uio) : Sfs :=
  if u.resid ≠ origresid ∧ u.rw = .write ∧ ((t.vol.block i).sfiSize : ℤ) < u.offset then
    t.dirtied i (·.setSfiSize (u32 u.offset))
  else t

variable {i off : ℕ}

theorem sfsIoOut_wp {c : Prop} {t : Sfs} {u : Uio} (hl : t.vol.loaded i) {origresid extraresid : ℕ}
    {result : Except Errno Unit} {Q : Unit → Sfs × Uio → Prop} {E : Errno → Sfs × Uio → Prop}
    (hok : ∀ a, result = .ok a → Q a (t.extended i origresid u, { u with resid := u32 (u.resid + extraresid) }))
    (herr : ∀ e, result = .error e →
      E e (t.extended i origresid u, { u with resid := u32 (u.resid + extraresid) })) :
    (sfsIoOut i origresid extraresid result).wp c Q E (t, u) := by
  unfold sfsIoOut
  simp only [wp_bind, wp_get, onFs, wp_zoom]
  refine getVnode_wp hl fun v _ _ hv => ?_
  unfold Sfs.extended at hok herr
  rw [← hv] at hok herr
  simp only [wp_ite, wp_bind, wp_zoom, wp_modify]
  refine ⟨fun hgrow => ?_, fun hkeep => ?_⟩
  · rw [if_pos hgrow] at hok herr
    cases result
    · exact herr _ rfl
    · exact hok _ rfl
  · rw [if_neg hkeep] at hok herr
    cases result
    · exact herr _ rfl
    · exact hok _ rfl

theorem sfsIoEof_read {u : Uio} (hrw : u.rw = .read) (hoff : u.offset = off) (hshort : off + u.resid ≤ 143 * 512)
    (size : ℕ) :
    sfsIoEof size u = if size ≤ off then none else some (u.resid - min u.resid (size - off)) := by
  unfold sfsIoEof
  rw [hrw, hoff]
  simp only [Nat.cast_le]
  by_cases hpast : size ≤ off
  · rw [if_pos hpast, if_pos hpast]
  · rw [if_neg hpast, if_neg hpast]
    split_ifs
    · rw [Option.some.injEq, u32]
      omega
    · rw [Option.some.injEq]
      omega

namespace Vol

variable {V V' V'' : Vol} {j : ℕ} {l : List UInt8}

/-- What a call of `sfs_io` that moves `l` into file `i` does to the files. -/
structure Stored (V V' : Vol) (i off : ℕ) (l : List UInt8) : Prop where
  inode : ∀ j, V'.Inode j ↔ V.Inode j
  size : (V'.block i).sfiSize = if l = [] then (V.block i).sfiSize else max (V.block i).sfiSize (off + l.length)
  others : ∀ j, V.Inode j → j ≠ i → (V'.block j).sfiSize = (V.block j).sfiSize
  fbyte : ∀ j, V.Inode j → ∀ k, V'.fbyte j k =
    if j = i ∧ off ≤ k ∧ k < off + l.length then l.getD (k - off) 0 else V.fbyte j k

theorem Patched.stored (h : V.Patched V' i off l) (hi : V.Inode i)
    (hl : l = [] ∨ off + l.length ≤ (V.block i).sfiSize) : V.Stored V' i off l := by
  refine ⟨h.inode, ?_, fun j hj _ => (h.head j hj).size, h.fbyte⟩
  rw [(h.head i hi).size]
  split_ifs with hnil
  · rfl
  · have := hl.resolve_left hnil
    omega

theorem Patched.extended (h : V.Patched V' i off l) (hl : l ≠ [])
    (hgrow : (V.block i).sfiSize < off + l.length) (hword : off + l.length < 4294967296)
    (hs : V'.SetHead V'' i ((V'.block i).setSfiSize (off + l.length))) : V.Stored V'' i off l := by
  have hin (j : ℕ) (hj : V.Inode j) := (h.inode j).mpr hj
  refine ⟨fun j => (hs.inode j).trans (h.inode j), ?_, fun j hj hji => ?_, fun j hj k => ?_⟩
  · rw [hs.self, Bytes.sfiSize_setSfiSize hword, if_neg hl]
    omega
  · rw [hs.head j (hin j hj) hji, (h.head j hj).size]
  · rw [← h.fbyte j hj]
    by_cases hk : k / 512 < 143
    · rw [Vol.fbyte, Vol.fbyte, hs.data j (hin j hj) _ hk]
    · rw [fbyte_big (by omega), fbyte_big (by omega)]

/-! ### Files as arrays -/

theorem length_overlay {old : List UInt8} (hl : l ≠ []) :
    (overlay old off l).length = max old.length (off + l.length) := by
  rw [overlay, if_neg hl]
  simp only [List.length_append, List.length_take, List.length_replicate, List.length_drop]
  omega

theorem overlay_getD {old : List UInt8} (hl : l ≠ []) (k : ℕ) :
    (overlay old off l).getD k 0 = if off ≤ k ∧ k < off + l.length then l.getD (k - off) 0 else old.getD k 0 := by
  have hfront : (old.take off ++ List.replicate (off - old.length) 0).length = off := by
    simp only [List.length_append, List.length_take, List.length_replicate]
    omega
  have hover : (old.take off ++ List.replicate (off - old.length) 0 ++ l).length = off + l.length := by
    rw [List.length_append, hfront]
  rw [overlay, if_neg hl]
  by_cases hk : k < off + l.length
  · rw [List.getD_append _ _ _ _ (by omega)]
    by_cases hoff : off ≤ k
    · rw [if_pos ⟨hoff, hk⟩, List.getD_append_right _ _ _ _ (by omega), hfront]
    · rw [if_neg (by omega), List.getD_append _ _ _ _ (by omega)]
      by_cases hold : k < old.length
      · rw [List.getD_append _ _ _ _ (by rw [List.length_take]; omega)]
        simp only [List.getD_eq_getElem?_getD, List.getElem?_take_of_lt (not_le.mp hoff)]
      · rw [List.getD_append_right _ _ _ _ (by rw [List.length_take]; omega), List.getD_eq_default old 0 (by omega)]
        simp only [List.getD_eq_getElem?_getD, List.getElem?_replicate]
        split_ifs <;> rfl
  · rw [if_neg (by omega), List.getD_append_right _ _ _ _ (by omega), hover]
    simp only [List.getD_eq_getElem?_getD, List.getElem?_drop]
    rw [Nat.add_sub_cancel' (by omega)]

@[simp] theorem length_contents : (V.contents i).length = (V.block i).sfiSize := length_bytes

theorem Tidy.contents_getD (h : V.Tidy) (hi : V.Inode i) (hi1 : i ≠ 1) (k : ℕ) :
    (V.contents i).getD k 0 = V.fbyte i k := by
  by_cases hk : k < (V.block i).sfiSize
  · rw [contents, bytes_getD hk, Nat.zero_add]
  · rw [List.getD_eq_default _ _ (by rw [length_contents]; omega), h i hi hi1 k (by omega)]

/-- What a read of `n` bytes at `off` is to give. -/
theorem contents_slice (n : ℕ) :
    ((V.contents i).drop off).take n = V.bytes i off (min n ((V.block i).sfiSize - off)) := by
  apply List.ext_getElem
  · simp
  · intro k hk _
    simp [contents, bytes]

theorem contents_congr (hsize : (V'.block j).sfiSize = (V.block j).sfiSize)
    (h : ∀ k, V'.fbyte j k = V.fbyte j k) : V'.contents j = V.contents j := by
  unfold contents
  rw [hsize]
  exact bytes_congr fun k _ _ => h k

theorem Stored.contents_of_ne (h : V.Stored V' i off l) (hj : V.Inode j) (hji : j ≠ i) :
    V'.contents j = V.contents j := by
  refine contents_congr (h.others j hj hji) fun k => ?_
  rw [h.fbyte j hj, if_neg (by tauto)]

theorem Stored.contents_nil (h : V.Stored V' i off []) (hj : V.Inode j) : V'.contents j = V.contents j := by
  by_cases hji : j = i
  · subst hji
    refine contents_congr (by rw [h.size, if_pos rfl]) fun k => ?_
    rw [h.fbyte j hj, if_neg (by rw [List.length_nil]; omega)]
  · exact h.contents_of_ne hj hji

theorem Stored.tidy (h : V.Stored V' i off l) (ht : V.Tidy) : V'.Tidy := by
  intro j hj h1 k hk
  rw [h.inode] at hj
  rw [h.fbyte j hj]
  by_cases hji : j = i
  · subst hji
    rw [h.size] at hk
    split_ifs at hk with hl
    · rw [if_neg (by rw [hl, List.length_nil]; omega)]
      exact ht j hj h1 k hk
    · rw [if_neg (by omega)]
      exact ht j hj h1 k (by omega)
  · rw [if_neg (by tauto)]
    rw [h.others j hj hji] at hk
    exact ht j hj h1 k hk

theorem Stored.contents (h : V.Stored V' i off l) (ht : V.Tidy) (hi : V.Inode i) (hi1 : i ≠ 1) :
    V'.contents i = overlay (V.contents i) off l := by
  by_cases hl : l = []
  · subst hl
    rw [overlay, if_pos rfl]
    exact h.contents_nil hi
  have hsize := h.size
  rw [if_neg hl] at hsize
  apply List.ext_getElem
  · rw [length_contents, hsize, length_overlay hl, length_contents]
  · intro k hk hk'
    rw [length_contents] at hk
    rw [← List.getD_eq_getElem _ 0 hk', overlay_getD hl, ht.contents_getD hi hi1]
    simp only [Vol.contents, bytes, List.getElem_map, List.getElem_range, Nat.zero_add]
    rw [h.fbyte i hi]
    simp only [true_and]

end Vol

end Os161
