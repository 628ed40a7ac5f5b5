import Os161.Spec.Sfsck

/-! The freemap of `sfsck`: the order of the calls that mark blocks does not matter, and
`freemap_check` writes the map of the blocks in use to the disk. -/

namespace Os161

namespace Fsck

open Op

variable {s t : Fsck} {calls : List FreemapCall} {block : ℕ} {c : Prop}

/-! ### The two calls -/

/-- The state after `freemap_blockinuse`. -/
def markInuse (s : Fsck) (block : ℕ) (how : Blockusage) : Fsck :=
  { s with
    tofreedata := if bitOf s.tofreedata block = true then clearBit s.tofreedata block else s.tofreedata
    badness := if bitOf s.freemapdata block = true ∧ s.badness < exitUnrecov then exitUnrecov else s.badness
    freemapdata := setBit s.freemapdata block
    blocksinuse := if how ≠ .pastend then s.blocksinuse + 1 else s.blocksinuse }

/-- The state after `freemap_blockfree`. -/
def markFree (s : Fsck) (block : ℕ) : Fsck :=
  if bitOf s.tofreedata block = true ∨ bitOf s.freemapdata block = true then s
  else { s with tofreedata := setBit s.tofreedata block }

/-- The test of a bit in a map. -/
theorem bit_test (v : List UInt8) (b : ℕ) : v.getD (b / 8) 0 &&& bitMask (b % 8) ≠ 0 ↔ bitOf v b = true := by
  rw [Ne, and_bitMask_eq_zero (by omega), bitOf, Bool.not_eq_false]

variable {Q : Unit → Fsck → Prop} {E : FsckExit → Fsck → Prop}

theorem freemapBlockinuse_wp (how : Blockusage) (h : s.InMaps block) (hQ : Q () (s.markInuse block how)) :
    (freemapBlockinuse block how).wp c Q E s := by
  unfold freemapBlockinuse setbadness
  simp only [wp_bind, wp_get, bit_test]
  rw [wp_kassert_of h]
  unfold markInuse at hQ
  split_ifs <;> simp_all

theorem freemapBlockfree_wp (h : s.InMaps block) (hQ : Q () (s.markFree block)) : (freemapBlockfree block).wp c Q E s := by
  unfold freemapBlockfree
  simp only [wp_bind, wp_get, bit_test]
  rw [wp_kassert_of h]
  unfold markFree at hQ
  split_ifs <;> simp_all

theorem markInuse_freemapdata (how : Blockusage) (h : s.InMaps block) :
    bitOf (s.markInuse block how).freemapdata = Function.update (bitOf s.freemapdata) block true :=
  bitOf_setBit (by have := h.1; omega)

theorem markInuse_tofreedata (how : Blockusage) (h : s.InMaps block) :
    bitOf (s.markInuse block how).tofreedata = Function.update (bitOf s.tofreedata) block false := by
  unfold markInuse
  by_cases hbit : bitOf s.tofreedata block = true
  · rw [if_pos hbit]
    exact bitOf_clearBit (by have := h.2; omega)
  · rw [if_neg hbit]
    rw [Bool.not_eq_true] at hbit
    rw [← hbit, Function.update_eq_self]

theorem markFree_freemapdata : (s.markFree block).freemapdata = s.freemapdata := by
  unfold markFree
  split_ifs <;> rfl

theorem markFree_tofreedata (h : s.InMaps block) :
    bitOf (s.markFree block).tofreedata =
      Function.update (bitOf s.tofreedata) block (bitOf s.tofreedata block || !bitOf s.freemapdata block) := by
  unfold markFree
  split_ifs with hbit
  · rcases hbit with hfree | hin
    · rw [hfree, Bool.true_or, ← hfree, Function.update_eq_self]
    · rw [hin, Bool.not_true, Bool.or_false, Function.update_eq_self]
  · rw [not_or, Bool.not_eq_true, Bool.not_eq_true] at hbit
    rw [hbit.1, hbit.2, Bool.not_false, Bool.or_true]
    exact bitOf_setBit (by have := h.2; omega)

/-! ### Any calls in any order -/

/-- The maps keep their size, and nothing is changed but them and the counts. -/
structure OnlyMarks (s t : Fsck) : Prop where
  rest : t = { s with
    freemapdata := t.freemapdata, tofreedata := t.tofreedata, blocksinuse := t.blocksinuse, badness := t.badness }
  inuse : t.freemapdata.length = s.freemapdata.length
  tofree : t.tofreedata.length = s.tofreedata.length

theorem OnlyMarks.refl (s : Fsck) : s.OnlyMarks s := ⟨rfl, rfl, rfl⟩

theorem OnlyMarks.trans {u : Fsck} (h : s.OnlyMarks t) (h' : t.OnlyMarks u) : s.OnlyMarks u := by
  refine ⟨?_, h'.inuse.trans h.inuse, h'.tofree.trans h.tofree⟩
  have hu := h'.rest
  rw [h.rest] at hu
  exact hu

theorem OnlyMarks.disk (h : s.OnlyMarks t) : t.disk = s.disk := by rw [h.rest]

theorem OnlyMarks.diskblocks (h : s.OnlyMarks t) : t.diskblocks = s.diskblocks := by rw [h.rest]

theorem OnlyMarks.sb (h : s.OnlyMarks t) : t.sb = s.sb := by rw [h.rest]

theorem onlyMarks_markInuse (how : Blockusage) : s.OnlyMarks (s.markInuse block how) := by
  refine ⟨rfl, length_setBit, ?_⟩
  change (if bitOf s.tofreedata block = true then clearBit s.tofreedata block else s.tofreedata).length = _
  split_ifs
  · exact length_clearBit
  · rfl

theorem onlyMarks_markFree : s.OnlyMarks (s.markFree block) := by
  unfold markFree
  split_ifs
  · exact .refl s
  · exact ⟨rfl, rfl, length_setBit⟩

theorem markedBy_nil (h : s.NewMaps) : s.MarkedBy [] := by
  refine ⟨fun b => ?_, fun b => ?_, fun b => ?_⟩
  · simp [h.inuse]
  · simp [h.tofree]
  · simp [h.inuse]

theorem MarkedBy.inuse_call (h : s.MarkedBy calls) (how : Blockusage) (hin : s.InMaps block) :
    (s.markInuse block how).MarkedBy (calls ++ [.inuse block how]) := by
  refine ⟨fun b => ?_, fun b => ?_, fun b => ?_⟩
  · rw [markInuse_freemapdata how hin]
    by_cases hb : b = block
    · simp [hb]
    · rw [Function.update_of_ne hb, h.inuse]
      simp [hb]
  · rw [markInuse_tofreedata how hin]
    by_cases hb : b = block
    · rw [hb, Function.update_self]
      have hnow : FreemapCall.inuse block how ∈ calls ++ [.inuse block how] := by simp
      exact ⟨fun hfalse => absurd hfalse (by simp), fun hnot => absurd hnow (hnot.2 how)⟩
    · rw [Function.update_of_ne hb, h.tofree]
      simp [hb]
  · rw [markInuse_freemapdata how hin, markInuse_tofreedata how hin]
    by_cases hb : b = block
    · simp [hb]
    · rw [Function.update_of_ne hb, Function.update_of_ne hb]
      exact h.apart b

theorem MarkedBy.free_call (h : s.MarkedBy calls) (hin : s.InMaps block) :
    (s.markFree block).MarkedBy (calls ++ [.free block]) := by
  have hbits := markFree_tofreedata hin
  have hnew : (bitOf s.tofreedata block || !bitOf s.freemapdata block) = !bitOf s.freemapdata block := by
    have := h.apart block
    cases hf : bitOf s.tofreedata block <;> cases hi : bitOf s.freemapdata block <;> simp_all
  rw [hnew] at hbits
  refine ⟨fun b => ?_, fun b => ?_, fun b => ?_⟩
  · rw [markFree_freemapdata, h.inuse]
    simp
  · rw [hbits]
    by_cases hb : b = block
    · have hinuse := h.inuse b
      rw [hb] at hinuse ⊢
      rw [Function.update_self, Bool.not_eq_true', ← Bool.not_eq_true, hinuse]
      simp
    · rw [Function.update_of_ne hb, h.tofree]
      simp [hb]
  · rw [markFree_freemapdata, hbits]
    by_cases hb : b = block
    · rw [hb, Function.update_self]
      simp
    · rw [Function.update_of_ne hb]
      exact h.apart b

theorem OnlyMarks.inMaps (h : s.OnlyMarks t) : t.InMaps block ↔ s.InMaps block := by
  unfold InMaps
  rw [h.inuse, h.tofree]

/-- One call. -/
theorem freemapCall_wp (h : s.MarkedBy calls) (call : FreemapCall) (hin : s.InMaps call.block)
    (hQ : ∀ t, t.MarkedBy (calls ++ [call]) → s.OnlyMarks t → Q () t) : (freemapCall call).wp c Q E s := by
  cases call with
  | inuse block how => exact freemapBlockinuse_wp how hin (hQ _ (h.inuse_call how hin) (onlyMarks_markInuse how))
  | free block => exact freemapBlockfree_wp hin (hQ _ (h.free_call hin) onlyMarks_markFree)

/-- Any number of calls. -/
theorem freemapCalls_wp (h : s.NewMaps) (hin : ∀ call ∈ calls, s.InMaps call.block)
    (hQ : ∀ t, t.MarkedBy calls → s.OnlyMarks t → Q () t) : (freemapCalls calls).wp c Q E s := by
  unfold freemapCalls
  apply wp_foldlM fun rest _ t => ∃ done, calls = done ++ rest ∧ t.MarkedBy done ∧ s.OnlyMarks t
  · intro call rest _ t hI
    obtain ⟨done, hcalls, hmarked, honly⟩ := hI
    have hmem : call ∈ calls := by simp [hcalls]
    refine freemapCall_wp hmarked call (honly.inMaps.mpr (hin call hmem)) fun u hu htu => ?_
    exact ⟨done ++ [call], by simp [hcalls], hu, honly.trans htu⟩
  · intro _ t hI
    obtain ⟨done, hcalls, hmarked, honly⟩ := hI
    rw [List.append_nil] at hcalls
    exact hQ t (hcalls ▸ hmarked) honly
  · exact ⟨[], rfl, markedBy_nil h, .refl s⟩

/-! ### `freemap_check` -/

theorem byte_freemapByte (expected tofree : UInt8) {j : ℕ} (hj : j < 512) (r : FreemapScan) (k : ℕ) :
    (freemapByte expected tofree j r).actual.byte k = if k = j then expected else r.actual.byte k := by
  have hsplice : (r.actual.splice j [expected]).byte k = if k = j then expected else r.actual.byte k := by
    by_cases hkj : k = j
    · rw [hkj, Bytes.byte_splice _ _ _ hj]
      simp
    · rw [if_neg hkj]
      exact Bytes.byte_splice_of_not_mem _ (by simp only [List.length_singleton]; omega)
  unfold freemapByte
  by_cases hsame : r.actual.byte j = expected
  · simp only [if_pos hsame]
    by_cases hkj : k = j
    · rw [if_pos hkj, hkj, hsame]
    · rw [if_neg hkj]
  · simp only [if_neg hsame]
    split
    · exact hsplice
    · exact hsplice

theorem bchanged_freemapByte {expected tofree : UInt8} {j : ℕ} {r : FreemapScan}
    (h : (freemapByte expected tofree j r).bchanged = false) : freemapByte expected tofree j r = r := by
  unfold freemapByte at h ⊢
  by_cases hsame : r.actual.byte j = expected
  · simp only [if_pos hsame]
  · simp only [if_neg hsame] at h
    split at h <;> exact absurd h (by simp)

/-- No byte has a bit in both maps. -/
theorem and_eq_zero_of_apart (h : ∀ b, ¬ (bitOf s.freemapdata b = true ∧ bitOf s.tofreedata b = true)) (k : ℕ) :
    s.freemapdata.getD k 0 &&& s.tofreedata.getD k 0 = 0 := by
  apply byte_ext
  intro o ho
  have hb := h (8 * k + o)
  rw [bitOf, bitOf, show (8 * k + o) / 8 = k by omega, show (8 * k + o) % 8 = o by omega] at hb
  rw [byteBit_and, byteBit_zero, Bool.and_eq_false_iff, ← Bool.not_eq_true, ← Bool.not_eq_true]
  exact not_and_or.mp hb

/-- Nothing but the disk is changed, the badness and the record of what was written apart. -/
structure OnlyWrites (s t : Fsck) : Prop where
  diskblocks : t.diskblocks = s.diskblocks
  sb : t.sb = s.sb
  inuse : t.freemapdata = s.freemapdata
  tofree : t.tofreedata = s.tofreedata

theorem OnlyWrites.refl (s : Fsck) : s.OnlyWrites s := ⟨rfl, rfl, rfl, rfl⟩

theorem OnlyWrites.trans {u : Fsck} (h : s.OnlyWrites t) (h' : t.OnlyWrites u) : s.OnlyWrites u :=
  ⟨h'.diskblocks.trans h.diskblocks, h'.sb.trans h.sb, h'.inuse.trans h.inuse, h'.tofree.trans h.tofree⟩

theorem diskSeek_of_lt {b : ℕ} (h : b < 8388608) : diskSeek b = b := by
  unfold diskSeek
  omega

theorem diskread_wp {b : ℕ} {Q : Block → Fsck → Prop} (hQ : diskSeek b < s.diskblocks → Q (s.disk (diskSeek b)) s)
    (hE : s.diskblocks ≤ diskSeek b → E .io s) : (diskread b).wp c Q E s := by
  unfold diskread
  rw [wp_bind, wp_get, wp_ite]
  exact ⟨fun h => hQ h, fun h => hE (not_lt.mp h)⟩

theorem diskwrite_wp {b : ℕ} (data : Block) (hdisk : diskSeek b < s.diskblocks)
    (hQ : Q () { s with disk := Function.update s.disk (diskSeek b) data, written := s.written ++ [b] }) :
    (diskwrite data b).wp c Q E s := by
  unfold diskwrite
  rw [wp_bind, wp_get, wp_ite]
  exact ⟨fun _ => hQ, fun h => absurd hdisk h⟩

/-- The first `n` bytes of block `i` of the map: each becomes the expected one, and the block
is as it was unless `bchanged` says so. -/
theorem freemapScan_wp (happart : ∀ b, ¬ (bitOf s.freemapdata b = true ∧ bitOf s.tofreedata b = true)) (i : ℕ)
    {n : ℕ} (hn : n ≤ 512) (r : FreemapScan) :
    ((List.range n).foldlM (fun r j => (do
      Op.kassert (s.freemapdata.getD (i * 512 + j) 0 &&& s.tofreedata.getD (i * 512 + j) 0 = 0)
      pure (freemapByte (s.freemapdata.getD (i * 512 + j) 0) (s.tofreedata.getD (i * 512 + j) 0) j r) :
        FsckM FreemapScan)) r).wp c
      (fun r' t => t = s ∧ (∀ m < n, r'.actual.byte m = s.freemapdata.getD (i * 512 + m) 0) ∧
        (r'.bchanged = false → r'.actual = r.actual)) E s := by
  apply wp_foldlM_range fun k (r' : FreemapScan) t => t = s ∧
    (∀ m < k, r'.actual.byte m = s.freemapdata.getD (i * 512 + m) 0) ∧ (r'.bchanged = false → r'.actual = r.actual)
  · intro k hk r' t hI
    obtain ⟨rfl, hbytes, hsame⟩ := hI
    rw [wp_bind, wp_kassert_of (and_eq_zero_of_apart happart _), wp_pure]
    refine ⟨rfl, fun m hm => ?_, fun hch => ?_⟩
    · rw [byte_freemapByte _ _ (by omega)]
      by_cases hmk : m = k
      · rw [if_pos hmk, hmk]
      · rw [if_neg hmk]
        exact hbytes m (by omega)
    · have hr := bchanged_freemapByte hch
      rw [hr] at hch ⊢
      exact hsame hch
  · exact fun _ _ hI => hI
  · exact ⟨rfl, fun m hm => absurd hm (Nat.not_lt_zero m), fun _ => rfl⟩

set_option maxRecDepth 2000 in
theorem freemapCheckBlock_wp (happart : ∀ b, ¬ (bitOf s.freemapdata b = true ∧ bitOf s.tofreedata b = true))
    {i : ℕ} (hi : 2 + i < 8388608) (counts : ℕ × ℕ) {Q : ℕ × ℕ → Fsck → Prop} (hE : s.diskblocks ≤ 2 + i → E .io s)
    (hQ : ∀ r t, s.OnlyWrites t → (∀ b, b ≠ 2 + i → t.disk b = s.disk b) →
      (∀ j < 512, (t.disk (2 + i)).byte j = s.freemapdata.getD (i * 512 + j) 0) → Q r t) :
    (freemapCheckBlock counts i).wp c Q E s := by
  have hseek := diskSeek_of_lt hi
  unfold freemapCheckBlock
  rw [wp_bind]
  refine diskread_wp (fun hdisk => ?_) (hseek.symm ▸ hE)
  rw [hseek] at hdisk ⊢
  rw [wp_bind, wp_get, wp_bind]
  refine (freemapScan_wp happart i (Nat.le_refl 512) _).mono (fun r t hI => ?_) fun _ _ he => he
  obtain ⟨rfl, hbytes, hsame⟩ := hI
  dsimp only
  rw [wp_ite]
  constructor
  · intro _
    rw [wp_bind]
    apply diskwrite_wp _ (hseek.symm ▸ hdisk)
    rw [hseek]
    refine hQ _ _ ⟨rfl, rfl, rfl, rfl⟩ (fun b hb => Function.update_of_ne hb _ _) fun j hj => ?_
    simp only [Function.update_self]
    exact hbytes j hj
  · intro hch
    rw [Bool.not_eq_true] at hch
    refine hQ _ _ (.refl t) (fun b _ => rfl) fun j hj => ?_
    have hactual : r.actual = t.disk (2 + i) := hsame hch
    rw [← hactual]
    exact hbytes j hj

theorem onlyWrites_setbadness_if (n code : ℕ) (hQ : ∀ t, s.OnlyWrites t → t.disk = s.disk → Q () t) :
    (if 0 < n then setbadness code else pure () : FsckM Unit).wp c Q E s := by
  rw [wp_ite]
  exact ⟨fun _ => hQ _ ⟨rfl, rfl, rfl, rfl⟩ rfl, fun _ => hQ s (.refl s) rfl⟩

theorem freemapblocks_lt (n : ℕ) : sfsFreemapblocks n < 1048577 := by
  unfold sfsFreemapblocks sfsFreemapbits
  omega

theorem freemapCheck_wp (happart : ∀ b, ¬ (bitOf s.freemapdata b = true ∧ bitOf s.tofreedata b = true))
    (hQ : ∀ t, s.OnlyWrites t → t.FreemapWritten → Q () t)
    (hE : ∀ t, s.diskblocks < 2 + sfsFreemapblocks s.nblocks → E .io t) : freemapCheck.wp c Q E s := by
  have hfew := freemapblocks_lt s.nblocks
  unfold freemapCheck
  rw [wp_bind, wp_get, wp_bind]
  apply wp_foldlM_range fun k _ t => s.OnlyWrites t ∧
    ∀ i < k, ∀ j < 512, (t.disk (2 + i)).byte j = s.freemapdata.getD (i * 512 + j) 0
  · intro k hk counts t hI
    obtain ⟨honly, hdone⟩ := hI
    refine freemapCheckBlock_wp (by rwa [honly.inuse, honly.tofree]) (by omega) counts
      (fun hend => hE t (by rw [honly.diskblocks] at hend; omega)) fun r u hu hother hthis => ⟨honly.trans hu, fun i hik j hj => ?_⟩
    by_cases hi : i = k
    · rw [hi, hthis j hj, honly.inuse]
    · rw [hother (2 + i) (by omega)]
      exact hdone i (by omega) j hj
  · intro counts t hI
    obtain ⟨honly, hdone⟩ := hI
    have hend : ∀ u, t.OnlyWrites u → u.disk = t.disk → Q () u := fun u hu hd => by
      have hsu := honly.trans hu
      refine hQ u hsu fun i hi j hj => ?_
      rw [nblocks, hsu.sb] at hi
      rw [hd, hdone i hi j hj, hsu.inuse]
    dsimp only
    rw [wp_ite]
    constructor
    · intro _
      rw [wp_bind]
      exact onlyWrites_setbadness_if 1 _ fun u hu hd =>
        onlyWrites_setbadness_if _ _ fun w hw hdw => hend w (hu.trans hw) (hdw.trans hd)
    · intro _
      exact onlyWrites_setbadness_if _ _ hend
  · exact ⟨.refl s, fun i hi => absurd hi (Nat.not_lt_zero i)⟩

/-- The calls may come in any order: a block is in use afterwards if any of them marked it,
it is to be freed if it was freed and never marked, and no block is both. `freemap_check`
then makes the freemap on the disk that of the blocks in use, whatever was there, and ends
early only where the disk does not hold the freemap. -/
theorem freemap_marks (s : Fsck) (calls : List FreemapCall) (hnew : s.NewMaps)
    (hcalls : ∀ call ∈ calls, call.block < sfsFreemapbits s.nblocks) :
    (freemapCalls calls).wp False
      (fun _ t => t.MarkedBy calls ∧
        freemapCheck.wp False (fun _ u => u.freemapdata = t.freemapdata ∧ u.tofreedata = t.tofreedata ∧ u.FreemapWritten)
          (fun e _ => e = .io ∧ t.diskblocks < 2 + sfsFreemapblocks t.nblocks) t)
      (fun _ _ => False) s := by
  have hmaps : ∀ call ∈ calls, s.InMaps call.block := fun call hmem => by
    have hlt := hcalls call hmem
    unfold InMaps
    rw [hnew.inuse, hnew.tofree, List.length_replicate]
    unfold sfsFreemapblocks sfsFreemapbits at *
    omega
  exact freemapCalls_wp hnew hmaps fun t hmarked _ =>
    ⟨hmarked, freemapCheck_wp hmarked.apart (fun u honly hwritten => ⟨honly.inuse, honly.tofree, hwritten⟩) fun _ h => ⟨rfl, h⟩⟩

/-- A volume of sixteen blocks whose maps are new. -/
@[irreducible] def sixteenBlocks : Fsck :=
  { start (fun _ => Bytes.zero) 16 [] [] with
    sb := Bytes.zero.setNum 4 4 16
    freemapdata := List.replicate (sfsFreemapblocks 16 * 512) 0
    tofreedata := List.replicate (sfsFreemapblocks 16 * 512) 0 }

theorem nblocks_sixteenBlocks : sixteenBlocks.nblocks = 16 := by decide +kernel

theorem newMaps_sixteenBlocks : sixteenBlocks.NewMaps := by
  constructor <;> rw [nblocks_sixteenBlocks, sixteenBlocks]

/-- A block that is freed before and after it is marked is in use. -/
theorem freemap_marks_sixteen :
    (freemapCalls [.free 5, .inuse 5 .data, .free 5, .free 7]).wp False
      (fun _ t => t.MarkedBy [.free 5, .inuse 5 .data, .free 5, .free 7] ∧
        freemapCheck.wp False (fun _ u => u.freemapdata = t.freemapdata ∧ u.tofreedata = t.tofreedata ∧ u.FreemapWritten)
          (fun e _ => e = .io ∧ t.diskblocks < 2 + sfsFreemapblocks t.nblocks) t)
      (fun _ _ => False) sixteenBlocks :=
  freemap_marks sixteenBlocks _ newMaps_sixteenBlocks (by rw [nblocks_sixteenBlocks]; decide)

end Fsck

end Os161
