import Os161.Proofs.Bitmap
import Os161.Spec.BitmapSet

/-! A bitmap refines the set of its indexes. Every state of a run is a bitmap whose bits
behind the end are set, and of such a one each call is the call on the set. -/

namespace Os161

open Op

namespace Bitmap

variable {b : Bitmap} {k n : ℕ}

/-! ### `bitmap_create` -/

theorem words_eq (hn : n + 7 < 4294967296) : words n = (n + 7) / 8 := by
  unfold words
  omega

/-- Setting the bits from `n` on, one by one. -/
theorem bitOf_setBits {v : List UInt8} {m : ℕ} (hm : n + m ≤ 8 * v.length) :
    ((List.range m).foldl (fun v j => setBit v (n + j)) v).length = v.length ∧
      ∀ k, bitOf ((List.range m).foldl (fun v j => setBit v (n + j)) v) k =
        (bitOf v k || decide (n ≤ k ∧ k < n + m)) := by
  induction m with
  | zero => simp
  | succ m ih =>
    obtain ⟨hlen, hbit⟩ := ih (by omega)
    rw [List.range_succ, List.foldl_append, List.foldl_cons, List.foldl_nil]
    refine ⟨by rw [length_setBit, hlen], fun k => ?_⟩
    rw [bitOf_setBit (by omega), Function.update_apply, hbit]
    by_cases hk : k = n + m
    · simp [hk]
    · rw [if_neg hk]
      congr 2
      rw [eq_iff_iff]
      omega

theorem bit_create (hn : n + 7 < 4294967296) : (create n).v.length = (n + 7) / 8 ∧
    ∀ k, (create n).bit k = decide (n ≤ k ∧ k < 8 * ((n + 7) / 8)) := by
  have hfit : n + (8 * words n - n) ≤ 8 * (List.replicate (words n) (0 : UInt8)).length := by
    rw [List.length_replicate, words_eq hn]
    omega
  obtain ⟨hlen, hbit⟩ := bitOf_setBits hfit
  rw [List.length_replicate] at hlen
  refine ⟨by rw [← words_eq hn]; exact hlen, fun k => ?_⟩
  have hend : n + (8 * words n - n) = 8 * ((n + 7) / 8) := by
    rw [words_eq hn]
    omega
  rw [hend] at hbit
  rw [bit, create, hbit, bitOf_replicate_zero, Bool.false_or]

theorem padded_create (hn : n + 7 < 4294967296) : (create n).Padded := by
  obtain ⟨hlen, hbit⟩ := bit_create hn
  refine ⟨hlen, hn, fun k hk hlt => ?_⟩
  rw [hbit, decide_eq_true_eq, ← hlen]
  exact ⟨hk, hlt⟩

/-- The loop over the leftover bits of the last word. -/
theorem orBits_wp {ix o m : ℕ} (hm : o + m ≤ 8) {Q : Unit → Bitmap → Prop} {E : Errno → Bitmap → Prop}
    (hQ : Q () { b with v := (List.range m).foldl (fun v j => setBit v (ix * 8 + o + j)) b.v }) :
    ((List.range m).foldlM (fun _ j => orBit ix (o + j)) ()).wp False Q E b := by
  apply wp_foldlM_range
    (fun j _ t => t = { b with v := (List.range j).foldl (fun v i => setBit v (ix * 8 + o + i)) b.v })
  · rintro j hj _ t rfl
    unfold orBit
    rw [wp_modify, List.range_succ, List.foldl_append, List.foldl_cons, List.foldl_nil]
    simp only [setBit]
    rw [show (ix * 8 + o + j) / 8 = ix by omega, show (ix * 8 + o + j) % 8 = o + j by omega]
  · rintro _ t rfl
    exact hQ
  · rfl

/-- The assertions of `bitmap_create` hold, and it makes the bitmap that the rest of the
model starts from. -/
theorem bitmapCreate_eq (hn : n + 7 < 4294967296) (b : Bitmap) : bitmapCreate n b = .ok () (create n) := by
  apply eq_ok_of_wp
  unfold bitmapCreate markLeftover
  rw [wp_bind, wp_set, wp_ite]
  have hwords := words_eq hn
  refine ⟨fun hpart => ?_, fun hwhole => ⟨rfl, ?_⟩⟩
  · set ix := words n - 1 with hix
    have hover : (n + 4294967296 - ix * 8) % 4294967296 = n - ix * 8 := by omega
    simp only [hover]
    rw [wp_bind, wp_kassert_of (by omega), wp_bind, wp_kassert_of (by omega)]
    apply orBits_wp (by omega)
    refine ⟨trivial, ?_⟩
    rw [create, show ix * 8 + (n - ix * 8) = n by omega, show 8 - (n - ix * 8) = 8 * words n - n by omega]
  · rw [create, show 8 * words n - n = 0 by omega, List.range_zero, List.foldl_nil]

/-! ### The set -/

theorem mem_indexes : k ∈ b.indexes ↔ k < b.nbits ∧ b.bit k = true := by
  rw [indexes, Finset.mem_filter, Finset.mem_range, isset_iff]

theorem Padded.bit_mark (h : b.Padded) (hk : k < b.nbits) : (b.mark k).bit = Function.update b.bit k true := by
  have := h.length
  exact bitOf_setBit (by omega)

theorem Padded.bit_cleared (h : b.Padded) (hk : k < b.nbits) :
    (b.cleared k).bit = Function.update b.bit k false := by
  have := h.length
  exact bitOf_clearBit (by omega)

theorem Padded.mark (h : b.Padded) (hk : k < b.nbits) : (b.mark k).Padded := by
  have hlen : (b.mark k).v.length = b.v.length := length_setBit
  refine ⟨hlen.trans h.length, h.word, fun j hj hlt => ?_⟩
  rw [h.bit_mark hk, Function.update_of_ne (by change b.nbits ≤ j at hj; omega)]
  exact h.padding j hj (hlen ▸ hlt)

theorem Padded.cleared (h : b.Padded) (hk : k < b.nbits) : (b.cleared k).Padded := by
  have hlen : (b.cleared k).v.length = b.v.length := length_clearBit
  refine ⟨hlen.trans h.length, h.word, fun j hj hlt => ?_⟩
  rw [h.bit_cleared hk, Function.update_of_ne (by change b.nbits ≤ j at hj; omega)]
  exact h.padding j hj (hlen ▸ hlt)

theorem Padded.indexes_mark (h : b.Padded) (hk : k < b.nbits) : (b.mark k).indexes = insert k b.indexes := by
  ext j
  rw [Finset.mem_insert, mem_indexes, mem_indexes, h.bit_mark hk, Function.update_apply]
  change j < b.nbits ∧ _ ↔ _
  by_cases hj : j = k
  · simp [hj, hk]
  · simp [hj]

theorem Padded.indexes_cleared (h : b.Padded) (hk : k < b.nbits) : (b.cleared k).indexes = b.indexes.erase k := by
  ext j
  rw [Finset.mem_erase, mem_indexes, mem_indexes, h.bit_cleared hk, Function.update_apply]
  change j < b.nbits ∧ _ ↔ _
  by_cases hj : j = k
  · simp [hj]
  · simp [hj]

/-! ### The calls -/

theorem First.alloc (h : b.First k) (hk : k < b.nbits) :
    IndexSet.alloc b.nbits b.indexes = .ok k (insert k b.indexes) := by
  have hfind : (List.range b.nbits).find? (fun j => j ∉ b.indexes) = some k := by
    rw [List.find?_range_eq_some]
    refine ⟨?_, List.mem_range.mpr hk, fun j hj => ?_⟩
    · simp [mem_indexes, h.1]
    · simp [mem_indexes, h.2 j hj, hj.trans hk]
  apply eq_ok_of_wp
  unfold IndexSet.alloc
  rw [wp_bind, wp_get]
  simp only [hfind]
  rw [wp_bind, wp_set, wp_pure]
  exact ⟨rfl, rfl⟩

theorem alloc_full (h : ∀ k < b.nbits, b.bit k = true) : IndexSet.alloc b.nbits b.indexes = .err .enospc b.indexes := by
  have hfind : (List.range b.nbits).find? (fun j => j ∉ b.indexes) = none := by
    rw [List.find?_eq_none]
    intro j hj
    have hlt := List.mem_range.mp hj
    simp [mem_indexes, hlt, h j hlt]
  apply eq_err_of_wp
  unfold IndexSet.alloc
  rw [wp_bind, wp_get]
  simp only [hfind]
  rw [wp_fail]
  exact ⟨rfl, rfl⟩

theorem Padded.alloc_map (h : b.Padded) : (alloc b).map indexes = IndexSet.alloc b.nbits b.indexes := by
  symm
  apply map_of_wp
  apply alloc_wp h
  · intro k hk hfirst
    rw [h.indexes_mark hk]
    exact hfirst.alloc hk
  · exact alloc_full

theorem Padded.bitmapMark_map (h : b.Padded) (k : ℕ) :
    (bitmapMark k b).map indexes = IndexSet.mark b.nbits k b.indexes := by
  symm
  unfold bitmapMark IndexSet.mark
  rw [get_bind, get_bind]
  refine bind_map (kassert_map Iff.rfl) fun _ t ht => ?_
  obtain ⟨hk, rfl⟩ := kassert_eq_ok ht
  have hfree : k ∉ t.indexes ↔ t.v.getD (k / 8) 0 &&& bitMask (k % 8) = 0 := by
    rw [and_bitMask_eq_zero (by omega), mem_indexes, bit, bitOf]
    simp [hk]
  refine bind_map (kassert_map hfree) fun _ u hu => ?_
  obtain ⟨-, rfl⟩ := kassert_eq_ok hu
  exact congrArg (Res.ok ()) (h.indexes_mark hk).symm

theorem Padded.unmark_map (h : b.Padded) (k : ℕ) : (unmark k b).map indexes = IndexSet.unmark b.nbits k b.indexes := by
  symm
  unfold unmark IndexSet.unmark
  rw [get_bind, get_bind]
  refine bind_map (kassert_map Iff.rfl) fun _ t ht => ?_
  obtain ⟨hk, rfl⟩ := kassert_eq_ok ht
  have hset : k ∈ t.indexes ↔ t.v.getD (k / 8) 0 &&& bitMask (k % 8) ≠ 0 := by
    rw [mem_indexes, ← isset_iff, isset]
    exact and_iff_right hk
  refine bind_map (kassert_map hset) fun _ u hu => ?_
  obtain ⟨-, rfl⟩ := kassert_eq_ok hu
  exact congrArg (Res.ok ()) (h.indexes_cleared hk).symm

theorem Padded.refinesSet (h : b.Padded) : b.RefinesSet b.nbits where
  nbits := rfl
  length := h.length
  alloc := h.alloc_map
  mark := h.bitmapMark_map
  unmark := h.unmark_map
  isset k hk := by simp [indexes, hk]
  padding k hk hlt := isset_iff.mpr (h.padding k hk hlt)

end Bitmap

/-! ### Runs -/

/-- A call leaves the bits behind the end alone. -/
theorem bitmapStep_padded {b t : Bitmap} {e : BitmapEv} (h : b.Padded) (ht : bitmapStep b e = some t) :
    t.Padded ∧ t.nbits = b.nbits := by
  cases e with
  | alloc =>
    have hwp : Bitmap.alloc.wp False (fun _ t => t.Padded ∧ t.nbits = b.nbits)
        (fun _ t => t.Padded ∧ t.nbits = b.nbits) b :=
      Bitmap.alloc_wp h (fun k hk _ => ⟨h.mark hk, rfl⟩) fun _ => ⟨h, rfl⟩
    exact hwp.after ht
  | mark k =>
    have hwp : (Bitmap.bitmapMark k).wp True (fun _ t => t.Padded ∧ t.nbits = b.nbits)
        (fun _ t => t.Padded ∧ t.nbits = b.nbits) b := by
      unfold Bitmap.bitmapMark
      rw [wp_bind, wp_get, wp_bind, wp_kassert_true]
      intro hk
      rw [wp_bind, wp_kassert_true]
      intro _
      exact ⟨h.mark hk, rfl⟩
    exact hwp.after ht
  | unmark k =>
    have hwp : (Bitmap.unmark k).wp True (fun _ t => t.Padded ∧ t.nbits = b.nbits)
        (fun _ t => t.Padded ∧ t.nbits = b.nbits) b := by
      unfold Bitmap.unmark
      rw [wp_bind, wp_get, wp_bind, wp_kassert_true]
      intro hk
      rw [wp_bind, wp_kassert_true]
      intro _
      exact ⟨h.cleared hk, rfl⟩
    exact hwp.after ht

/-- From `bitmap_create` on, a bitmap is the set of the indexes that were allocated or
marked, in every run of calls. -/
theorem bitmap_refines_set (n : ℕ) (hn : n ≤ 4294967288) (evs : List BitmapEv) :
    (∀ b, Bitmap.bitmapCreate n b = .ok () (Bitmap.create n)) ∧ (Bitmap.create n).indexes = ∅ ∧
      AllStates bitmapStep (Bitmap.RefinesSet n) (Bitmap.create n) evs := by
  have hword : n + 7 < 4294967296 := by omega
  refine ⟨Bitmap.bitmapCreate_eq hword, ?_, ?_⟩
  · ext k
    have hbits : (Bitmap.create n).nbits = n := rfl
    rw [Bitmap.mem_indexes, (Bitmap.bit_create hword).2, hbits, decide_eq_true_eq]
    simp
    omega
  · have hinv : AllStates bitmapStep (fun b => b.Padded ∧ b.nbits = n) (Bitmap.create n) evs := by
      apply allStates_of_step
      · intro b e t hb ht
        obtain ⟨hpad, hbits⟩ := bitmapStep_padded hb.1 ht
        exact ⟨hpad, hbits.trans hb.2⟩
      · exact ⟨Bitmap.padded_create hword, rfl⟩
    apply hinv.mono
    intro b hb
    rw [← hb.2]
    exact hb.1.refinesSet

theorem bitmap_refines_set_eleven : 11 ≤ 4294967288 ∧ AllStates bitmapStep (Bitmap.RefinesSet 11) (Bitmap.create 11)
    [.mark 2, .alloc, .unmark 2, .alloc] :=
  ⟨by decide, (bitmap_refines_set 11 (by decide) _).2.2⟩

end Os161
