import Os161.Proofs.SfsBlocks

/-! Truncation of a file that is not the directory. The loop over the indirect
block frees blocks while the block on the disk still names them, so what is
accounted for there is the volume with the buffer in the place of that block. -/

namespace Os161

open Op

namespace Vol

variable {V V' V'' : Vol} {P : List ℕ} {i fb : ℕ} {F G : ℕ → Prop}

/-- `V'` is `V` without the blocks of file `i` in `F`. -/
structure Cut (V V' : Vol) (i : ℕ) (F : ℕ → Prop) : Prop where
  nblocks : V'.nblocks = V.nblocks
  loaded : V'.loaded = V.loaded
  inode : ∀ j, V'.Inode j ↔ V.Inode j
  head : ∀ j, V.Inode j → (V.block j).SameHead (V'.block j)
  gone : ∀ fb < 143, F fb → V'.map i fb = 0
  kept : ∀ fb < 143, ¬ F fb → V'.map i fb = V.map i fb
  data : ∀ j, V.Inode j → ∀ fb < 143, ¬ (j = i ∧ F fb) → V'.data j fb = V.data j fb

theorem Cut.refl (V : Vol) (i : ℕ) : V.Cut V i fun _ => False :=
  ⟨rfl, rfl, fun _ => Iff.rfl, fun _ _ => .refl _, fun _ _ h => h.elim, fun _ _ _ => rfl, fun _ _ _ _ _ => rfl⟩

/-- A block that is not there is cut. -/
theorem Cut.skip (h : V.Cut V' i F) (hFG : ∀ fb < 143, F fb → G fb)
    (hG : ∀ fb < 143, G fb → F fb ∨ V'.map i fb = 0) : V.Cut V' i G where
  nblocks := h.nblocks
  loaded := h.loaded
  inode := h.inode
  head := h.head
  gone fb hfb hg := (hG fb hfb hg).elim (h.gone fb hfb) id
  kept fb hfb hg := h.kept fb hfb fun hf => hg (hFG fb hfb hf)
  data j hj fb hfb hg := h.data j hj fb hfb fun hf => hg ⟨hf.1, hFG fb hfb hf.2⟩

/-- One more block is given back. -/
theorem Cut.detach (h : V.Cut V' i F) (hi : V.Inode i) (hs : V'.PtrSet V'' i fb 0)
    (hd : V'.SetData V'' i fb Bytes.zero) : V.Cut V'' i fun x => F x ∨ x = fb where
  nblocks := hd.nblocks.trans h.nblocks
  loaded := hd.loaded.trans h.loaded
  inode j := (hd.inode j).trans (h.inode j)
  head j hj := (h.head j hj).trans (hd.head j ((h.inode j).mpr hj))
  gone x hx hF := by
    rw [hs.map i ((h.inode i).mpr hi)]
    split_ifs with hxfb
    · rfl
    · exact h.gone x hx (hF.resolve_right fun he => hxfb ⟨rfl, he⟩)
  kept x hx hF := by
    rw [not_or] at hF
    rw [hs.map_of_ne ((h.inode i).mpr hi) (by simp [hF.2]), h.kept x hx hF.1]
  data j hj x hx hF := by
    rw [hd.data j ((h.inode j).mpr hj) x hx, if_neg fun he => hF ⟨he.1, Or.inr he.2⟩,
      h.data j hj x hx fun he => hF ⟨he.1, Or.inl he.2⟩]

/-- Nothing more changes. -/
theorem Cut.same (h : V.Cut V' i F) (hs : V'.Same V'') (hmap : ∀ fb < 143, V''.map i fb = V'.map i fb) :
    V.Cut V'' i F where
  nblocks := hs.nblocks.trans h.nblocks
  loaded := hs.loaded.trans h.loaded
  inode j := (hs.inode j).trans (h.inode j)
  head j hj := (h.head j hj).trans (hs.head j ((h.inode j).mpr hj))
  gone fb hfb hF := (hmap fb hfb).trans (h.gone fb hfb hF)
  kept fb hfb hF := (hmap fb hfb).trans (h.kept fb hfb hF)
  data j hj fb hfb hF := (hs.data j ((h.inode j).mpr hj) fb hfb).trans (h.data j hj fb hfb hF)

end Vol

variable {s t : Sfs} {P : List ℕ} {i fb b blocklen : ℕ} {c D : Prop}

/-! ### The direct blocks -/

theorem truncDirect_wp {F : ℕ → Prop} (h : t.Sound D P) (hcut : s.vol.Cut t.vol i F) (hl : t.vol.loaded i)
    (hroot : i ≠ 1) {k : ℕ} (hk : k < 15) {Q : Unit → Sfs → Prop} {E : Errno → Sfs → Prop}
    (hQ : ∀ u, u.Sound D P → u.table = t.table →
      s.vol.Cut u.vol i (fun x => F x ∨ (x = k ∧ blocklen ≤ k)) → Q () u) :
    (truncDirect i blocklen k).wp c Q E t := by
  have hi := Sfs.inode_of_loaded hl
  unfold truncDirect
  rw [wp_bind]
  refine getVnode_wp hl fun v _ _ hv => ?_
  have hmap : v.i.sfiDirect k = t.vol.map i k := by rw [hv, Vol.map, if_pos hk]
  rw [hmap, wp_ite]
  refine ⟨fun hcond => ?_, fun hcond => ?_⟩
  · obtain ⟨hbits, hused⟩ := h.marked (r := .pointer i k) (b := t.vol.map i k) ⟨hi, by omega, hcond.2, rfl⟩
    rw [wp_bind, sfsBfree_wp hbits hused, dirtyInode_wp]
    have hw := Sfs.vol_dirtied (s := t.freed (t.vol.map i k)) (·.setSfiDirect k 0) hl
    have hs := h.struct.ptrSet_direct hi hk (by omega) ⟨hw.nblocks, hw.loaded, hw.block⟩
    obtain ⟨hstruct, hdata⟩ := h.struct.detach hi hroot (by omega) hcond.2 hs rfl
    refine hQ _ ⟨(h.mounted.freed _).dirtied _, hstruct⟩ (Sfs.table_dirtied _) ?_
    refine (hcut.detach ((hcut.inode i).mp hi) hs hdata).skip (fun x _ hx => ?_) fun x _ hx => Or.inl ?_
    · rcases hx with hx | hx
      · exact Or.inl hx
      · exact Or.inr ⟨hx, hcond.1⟩
    · rcases hx with hx | hx
      · exact Or.inl hx
      · exact Or.inr hx.1
  · refine hQ t h rfl (hcut.skip (fun x _ hx => Or.inl hx) fun x _ hx => ?_)
    rcases hx with hx | ⟨rfl, hle⟩
    · exact Or.inl hx
    · exact Or.inr (by tauto)

/-! ### The indirect block -/

/-- The volume with a buffer in the place of a block. -/
def Sfs.volWith (s : Sfs) (b : ℕ) (buf : Block) : Vol :=
  { s.vol with block := Function.update s.vol.block b buf }

theorem Sfs.volWith_self (buf : Block) : (s.volWith b buf).block b = buf := Function.update_self ..

/-- After `k` turns of the loop that started in `s`; `F` was cut from `V` before. -/
structure TruncInv (V : Vol) (F : ℕ → Prop) (s : Sfs) (P : List ℕ) (i blocklen k : ℕ) (T : TruncState)
    (t : Sfs) : Prop where
  only : t = { s with freemap := t.freemap, freemapdirty := t.freemapdirty }
  struct : (t.volWith (s.vol.ind i) T.idbuf).Struct P
  cut : V.Cut (t.volWith (s.vol.ind i) T.idbuf) i fun x => F x ∨ ∃ j < k, x = 15 + j ∧ blocklen < 15 + j
  ind : (t.volWith (s.vol.ind i) T.idbuf).ind i = s.vol.ind i
  nonzero : T.hasnonzero = true ↔ ∃ j < k, T.idbuf.idEntry j ≠ 0
  clean : T.iddirty = false → T.idbuf = s.vol.block (s.vol.ind i)
  map : t.freemapdirty = false → t = s

variable {V : Vol} {F : ℕ → Prop} {k : ℕ} {T : TruncState} {buf : Block}

theorem TruncInv.ind_ne_zero (h : TruncInv V F s P i blocklen k T t) (h0 : s.vol.ind i ≠ 0) :
    (t.volWith (s.vol.ind i) T.idbuf).ind i ≠ 0 := by
  rw [h.ind]
  exact h0

theorem TruncInv.entry (h : TruncInv V F s P i blocklen k T t) (h0 : s.vol.ind i ≠ 0) (j : ℕ) :
    (t.volWith (s.vol.ind i) T.idbuf).map i (15 + j) = T.idbuf.idEntry j := by
  rw [Vol.map, h.ind, if_neg (by omega), if_neg h0, Nat.add_sub_cancel_left, Sfs.volWith_self]

/-- The first part of a turn, which frees the block. -/
theorem TruncInv.free (h : TruncInv V F s P i blocklen k T t) (hl : s.vol.loaded i) (hroot : i ≠ 1)
    (h0 : s.vol.ind i ≠ 0) (hk : k < 128) (hne : T.idbuf.idEntry k ≠ 0) :
    (T.idbuf.idEntry k < sfsFreemapbits t.nblocks ∧ t.freemap (T.idbuf.idEntry k) = true) ∧
    TruncInv V (fun x => F x ∨ x = 15 + k) s P i blocklen k
      { T with idbuf := T.idbuf.setIdEntry k 0, iddirty := true } (t.freed (T.idbuf.idEntry k)) := by
  have hi : (t.volWith (s.vol.ind i) T.idbuf).Inode i := by
    refine Or.inr (Or.inl ?_)
    rw [h.only]
    exact hl
  have hmap := h.entry h0 k
  have hw : (t.volWith (s.vol.ind i) T.idbuf).Wrote
      ((t.freed (T.idbuf.idEntry k)).volWith (s.vol.ind i) (T.idbuf.setIdEntry k 0))
      ((t.volWith (s.vol.ind i) T.idbuf).ind i)
      (((t.volWith (s.vol.ind i) T.idbuf).block ((t.volWith (s.vol.ind i) T.idbuf).ind i)).setIdEntry k 0) := by
    refine ⟨rfl, rfl, ?_⟩
    rw [h.ind]
    simp only [Sfs.volWith, Function.update_self, Function.update_idem]
    rfl
  have hptr := h.struct.ptrSet_entry hi (h.ind_ne_zero h0) hk (by omega) hw
  have hne' : (t.volWith (s.vol.ind i) T.idbuf).map i (15 + k) ≠ 0 := by
    rw [hmap]
    exact hne
  obtain ⟨hstruct, hdata⟩ := h.struct.detach hi hroot (by omega) hne' hptr (by rw [hmap]; rfl)
  have hused := h.struct.used_map hi (by omega) hne'
  rw [hmap] at hused
  refine ⟨hused, ⟨?_, hstruct, ?_, ?_, ?_, fun hd => Bool.noConfusion hd, fun hd => Bool.noConfusion hd⟩⟩
  · conv_lhs => rw [h.only]
    rfl
  · refine (h.cut.detach ((h.cut.inode i).mp hi) hptr hdata).skip (fun x _ hx => ?_) fun x _ hx => Or.inl ?_
    · rcases hx with (hx | hx) | hx
      · exact Or.inl (Or.inl hx)
      · exact Or.inr hx
      · exact Or.inl (Or.inr hx)
    · rcases hx with (hx | hx) | hx
      · exact Or.inl (Or.inl hx)
      · exact Or.inr hx
      · exact Or.inl (Or.inr hx)
  · rw [hptr.ind i hi, h.ind]
  · rw [h.nonzero]
    refine exists_congr fun j => and_congr_right fun hj => ?_
    rw [Bytes.idEntry_setIdEntry hk (by omega), if_neg (by omega)]

theorem truncEntry_wp (h : TruncInv V F s P i blocklen k T t) (hl : s.vol.loaded i) (hroot : i ≠ 1)
    (h0 : s.vol.ind i ≠ 0) (hk : k < 128) {E : Errno → Sfs → Prop} :
    (truncEntry blocklen T k).wp c (fun T' t' => TruncInv V F s P i blocklen (k + 1) T' t') E t := by
  unfold truncEntry
  simp only [wp_bind, wp_ite, wp_pure]
  have hsplit (x : ℕ) : (∃ j < k + 1, x = 15 + j ∧ blocklen < 15 + j) ↔
      (∃ j < k, x = 15 + j ∧ blocklen < 15 + j) ∨ (x = 15 + k ∧ blocklen < 15 + k) := by
    constructor
    · rintro ⟨j, hj, hx, hb⟩
      by_cases hjk : j = k
      · exact Or.inr (hjk ▸ ⟨hx, hb⟩)
      · exact Or.inl ⟨j, by omega, hx, hb⟩
    · rintro (⟨j, hj, hx, hb⟩ | ⟨hx, hb⟩)
      · exact ⟨j, by omega, hx, hb⟩
      · exact ⟨k, by omega, hx, hb⟩
  have hnext {buf : Block} {nonzero : Bool} (hz : nonzero = true ↔ ∃ j < k, buf.idEntry j ≠ 0) :
      (nonzero || decide (buf.idEntry k ≠ 0)) = true ↔ ∃ j < k + 1, buf.idEntry j ≠ 0 := by
    rw [Bool.or_eq_true, hz, decide_eq_true_eq, Nat.exists_lt_succ_right]
  refine ⟨fun hcond => ?_, fun hcond => ?_⟩
  · obtain ⟨⟨hbits, hused⟩, hinv⟩ := h.free hl hroot h0 hk hcond.2
    rw [sfsBfree_wp hbits hused]
    refine ⟨hinv.only, hinv.struct, ?_, hinv.ind, hnext hinv.nonzero, hinv.clean, hinv.map⟩
    refine hinv.cut.skip (fun x _ hx => ?_) fun x _ hx => Or.inl ?_
    · rw [hsplit]
      rcases hx with (hx | hx) | hx
      · exact Or.inl hx
      · exact Or.inr (Or.inr ⟨hx, hcond.1⟩)
      · exact Or.inr (Or.inl hx)
    · rw [hsplit] at hx
      rcases hx with hx | hx | hx
      · exact Or.inl (Or.inl hx)
      · exact Or.inr hx
      · exact Or.inl (Or.inr hx.1)
  · refine ⟨h.only, h.struct, h.cut.skip (fun x _ hx => ?_) fun x _ hx => ?_, h.ind, hnext h.nonzero, h.clean, h.map⟩
    · rw [hsplit]
      rcases hx with hx | hx
      · exact Or.inl hx
      · exact Or.inr (Or.inl hx)
    · rw [hsplit] at hx
      rcases hx with hx | hx | ⟨rfl, hb⟩
      · exact Or.inl (Or.inl hx)
      · exact Or.inl (Or.inr hx)
      · rw [h.entry h0]
        exact Or.inr (by tauto)

theorem Sfs.volWith_eq_self (h : buf = s.vol.block b) : s.volWith b buf = s.vol := by
  rw [volWith, h, Function.update_eq_self]

theorem Sfs.vol_poke_eq (hl : ¬ s.vol.loaded b) (buf : Block) : (s.poke b buf).vol = s.volWith b buf := by
  have hw := vol_poke buf hl
  rw [volWith, ← hw.block]
  rfl

/-- An indirect block without entries goes, although the disk still has it. -/
theorem TruncInv.dropInd (h : TruncInv V F s P i blocklen 128 T t) (hl : s.vol.loaded i)
    (h0 : s.vol.ind i ≠ 0) (hz : T.hasnonzero = false) :
    ((t.freed (s.vol.ind i)).dirtied i (·.setSfiIndirect 0)).vol.Struct P ∧
    V.Cut ((t.freed (s.vol.ind i)).dirtied i (·.setSfiIndirect 0)).vol i
      (fun x => F x ∨ ∃ j < 128, x = 15 + j ∧ blocklen < 15 + j) ∧
    ((t.freed (s.vol.ind i)).dirtied i (·.setSfiIndirect 0)).vol.ind i = 0 := by
  have hl' : t.vol.loaded i := by
    rw [h.only]
    exact hl
  have hi : (t.volWith (s.vol.ind i) T.idbuf).Inode i := Or.inr (Or.inl hl')
  have hne : i ≠ s.vol.ind i := by
    rw [← h.ind]
    exact h.struct.inode_ne_ind hi hi (h.ind_ne_zero h0)
  set u := (t.freed (s.vol.ind i)).dirtied i (·.setSfiIndirect 0) with hu
  have hw : (t.freed (s.vol.ind i)).vol.Wrote u.vol i (((t.freed (s.vol.ind i)).vol.block i).setSfiIndirect 0) :=
    Sfs.vol_dirtied _ hl'
  have hblock : u.vol.block = Function.update t.vol.block i ((t.vol.block i).setSfiIndirect 0) := hw.block
  have hw₁ : (t.volWith (s.vol.ind i) T.idbuf).Wrote (u.volWith (s.vol.ind i) T.idbuf) i
      (((t.volWith (s.vol.ind i) T.idbuf).block i).setSfiIndirect 0) := by
    refine ⟨hw.nblocks, hw.loaded, ?_⟩
    simp only [Sfs.volWith, hblock, Function.update_of_ne hne]
    exact Function.update_comm hne ..
  have hempty (j : ℕ) (hj : j < 128) :
      ((t.volWith (s.vol.ind i) T.idbuf).block ((t.volWith (s.vol.ind i) T.idbuf).ind i)).idEntry j = 0 := by
    rw [h.ind, Sfs.volWith_self]
    by_contra hj0
    rw [h.nonzero.mpr ⟨j, hj, hj0⟩] at hz
    exact Bool.noConfusion hz
  obtain ⟨hstruct, hsame, hmap⟩ := h.struct.detachInd hi (h.ind_ne_zero h0) hempty hw₁ (by rw [h.ind]; rfl)
  have hw₂ : (u.volWith (s.vol.ind i) T.idbuf).Wrote u.vol (s.vol.ind i) (u.vol.block (s.vol.ind i)) :=
    ⟨rfl, rfl, by simp only [Sfs.volWith, Function.update_idem, Function.update_eq_self]⟩
  obtain ⟨hstruct', hsame', hmap'⟩ := hstruct.wrote_unused hw₂ (Function.update_self ..) rfl
  have hi' := (hsame.inode i).mpr hi
  refine ⟨hstruct', h.cut.same (hsame.trans hsame') fun fb hfb => ?_, ?_⟩
  · rw [(hmap' i hi').2, hmap fb hfb]
  · rw [Vol.ind, hw.self, Bytes.sfiIndirect_setSfiIndirect (by omega)]

theorem TruncInv.mounted (h : TruncInv V F s P i blocklen k T t) (hs : s.Mounted D) : t.Mounted D := by
  by_cases hd : t.freemapdirty = true
  · rw [h.only, hd]
    exact hs.remap _
  · rw [h.map (by simpa using hd)]
    exact hs

theorem TruncInv.table (h : TruncInv V F s P i blocklen k T t) : t.table = s.table := by
  rw [h.only]
  rfl

theorem truncIndirect_wp (h : s.Sound D P) (hcut : V.Cut s.vol i F) (hl : s.vol.loaded i) (hroot : i ≠ 1)
    (h0 : s.vol.ind i ≠ 0) {Q : Unit → Sfs → Prop} {E : Errno → Sfs → Prop}
    (hQ : ∀ u, u.Sound D P → u.table = s.table →
      V.Cut u.vol i (fun x => F x ∨ ∃ j < 128, x = 15 + j ∧ blocklen < 15 + j) →
      (u.vol.ind i = 0 ∨ ∃ fb < 143, u.vol.map i fb ≠ 0) → Q () u) :
    (truncIndirect i (s.vol.ind i) blocklen).wp c Q E s := by
  have hi := Sfs.inode_of_loaded hl
  have hnot := h.not_loaded_ind hi h0
  have hbuf := Sfs.block_of_not_loaded hnot
  unfold truncIndirect
  rw [wp_bind, h.mounted.readblock_wp (h.struct.indBound i hi), wp_bind]
  apply wp_foldlM_range (fun k T t => TruncInv V F s P i blocklen k T t)
  · exact fun k hk T t hinv => truncEntry_wp hinv hl hroot h0 hk
  · intro T t hinv
    have hwith : (t.poke (s.vol.ind i) T.idbuf).vol = t.volWith (s.vol.ind i) T.idbuf :=
      Sfs.vol_poke_eq (by rw [hinv.only]; exact hnot) T.idbuf
    have hsome (hz : T.hasnonzero = true) : ∃ fb < 143, (t.volWith (s.vol.ind i) T.idbuf).map i fb ≠ 0 := by
      obtain ⟨j, hj, hne⟩ := hinv.nonzero.mp hz
      refine ⟨15 + j, by omega, ?_⟩
      rw [hinv.entry h0]
      exact hne
    have hmounted := hinv.mounted h.mounted
    have hnblocks : t.nblocks = s.nblocks := by rw [hinv.only]
    simp only [wp_ite, wp_bind, wp_pure]
    refine ⟨fun hz => ?_, fun hz => ⟨fun hd => ?_, fun hd => ?_⟩⟩
    · -- no entry is left
      obtain ⟨hbits, hused⟩ := hinv.struct.used_ind (Or.inr (Or.inl (by rw [hinv.only]; exact hl)))
        (hinv.ind_ne_zero h0)
      rw [hinv.ind] at hbits hused
      obtain ⟨hstruct, hcut', hzero⟩ := hinv.dropInd hl h0 hz
      rw [sfsBfree_wp hbits hused, dirtyInode_wp]
      exact hQ _ ⟨(hmounted.freed _).dirtied _, hstruct⟩ ((Sfs.table_dirtied _).trans hinv.table) hcut'
        (Or.inl hzero)
    · rw [hmounted.writeblock_wp (by rw [hnblocks]; exact h.struct.indBound i hi)]
      have hsound : (t.poke (s.vol.ind i) T.idbuf).Sound D P :=
        ⟨hmounted.poke _ (by rw [hinv.only]; exact hnot) (by rw [hinv.only]; exact h.struct.clear_ind hi h0),
          by rw [hwith]; exact hinv.struct⟩
      refine hQ _ hsound hinv.table ?_ (Or.inr ?_)
      · rw [hwith]
        exact hinv.cut
      · rw [hwith]
        exact hsome (by simpa using hz)
    · have hsame : t.volWith (s.vol.ind i) T.idbuf = t.vol := by
        apply Sfs.volWith_eq_self
        rw [hinv.clean (by simpa using hd), hinv.only]
        rfl
      rw [hsame] at hsome
      refine hQ t ⟨hmounted, hsame ▸ hinv.struct⟩ hinv.table (hsame ▸ hinv.cut) (Or.inr ?_)
      exact hsome (by simpa using hz)
  · have hself : s.volWith (s.vol.ind i) (s.dev.sector (s.vol.ind i)) = s.vol :=
      Sfs.volWith_eq_self hbuf.symm
    refine ⟨rfl, ?_, ?_, ?_, by simp, fun _ => hbuf.symm, fun _ => rfl⟩
    · rw [hself]
      exact h.struct
    · rw [hself]
      refine hcut.skip (fun _ _ hx => Or.inl hx) fun _ _ hx => hx.elim Or.inl ?_
      rintro ⟨_, hj, _⟩
      omega
    · rw [hself]

/-! ### `sfs_itrunc` -/

/-- The file blocks that a truncation to `blocklen` blocks gives back. In the indirect
block the comparison is off by one, and the last entry is left alone. -/
def TruncGone (blocklen fb : ℕ) : Prop :=
  if fb < 15 then blocklen ≤ fb else blocklen < 142 ∧ blocklen < fb

/-- `V'` is `V` with file `i` truncated. -/
structure Vol.Trunc (V V' : Vol) (i blocklen size : ℕ) : Prop where
  nblocks : V'.nblocks = V.nblocks
  loaded : V'.loaded = V.loaded
  inode : ∀ j, V'.Inode j ↔ V.Inode j
  head : ∀ j, V.Inode j → j ≠ i → (V.block j).SameHead (V'.block j)
  size : (V'.block i).sfiSize = size
  type : (V'.block i).sfiType = (V.block i).sfiType
  linkcount : (V'.block i).sfiLinkcount = (V.block i).sfiLinkcount
  gone : ∀ fb < 143, TruncGone blocklen fb → V'.map i fb = 0
  kept : ∀ fb < 143, ¬ TruncGone blocklen fb → V'.map i fb = V.map i fb
  data : ∀ j, V.Inode j → ∀ fb < 143, ¬ (j = i ∧ TruncGone blocklen fb) → V'.data j fb = V.data j fb
  empty : blocklen < 142 → (∀ fb < 143, V'.map i fb = 0) → V'.ind i = 0

/-- The size is set when the blocks are gone. -/
theorem Vol.Cut.setSize {V V' V'' : Vol} {x : Block} {size : ℕ} (h : V.Cut V' i (TruncGone blocklen))
    (hi : V.Inode i) (hind : blocklen < 142 → (∀ fb < 143, V'.map i fb = 0) → V'.ind i = 0)
    (hset : V'.SetHead V'' i x) (hx : x = (V'.block i).setSfiSize size) (hsize : size < 4294967296)
    (hind' : V''.ind i = V'.ind i) (hmap : ∀ fb, V''.map i fb = V'.map i fb) :
    V.Trunc V'' i blocklen size where
  nblocks := hset.nblocks.trans h.nblocks
  loaded := hset.loaded.trans h.loaded
  inode j := (hset.inode j).trans (h.inode j)
  head j hj hji := by
    rw [hset.head j ((h.inode j).mpr hj) hji]
    exact h.head j hj
  size := by rw [hset.self, hx, Bytes.sfiSize_setSfiSize hsize]
  type := by rw [hset.self, hx, Bytes.sfiType_setSfiSize, (h.head i hi).type]
  linkcount := by rw [hset.self, hx, Bytes.sfiLinkcount_setSfiSize, (h.head i hi).linkcount]
  gone fb hfb hg := by rw [hmap, h.gone fb hfb hg]
  kept fb hfb hg := by rw [hmap, h.kept fb hfb hg]
  data j hj fb hfb hg := by rw [hset.data j ((h.inode j).mpr hj) fb hfb, h.data j hj fb hfb hg]
  empty hlen hz := by
    rw [hind']
    exact hind hlen fun fb hfb => by rw [← hmap, hz fb hfb]

theorem truncSize_wp (h : t.Sound D P) (hl : t.vol.loaded i) (hroot : i ≠ 1)
    (hcut : V.Cut t.vol i (TruncGone blocklen))
    (hind : blocklen < 142 → (∀ fb < 143, t.vol.map i fb = 0) → t.vol.ind i = 0) {size : ℕ}
    (hsize : size < 4294967296) {Q : Unit → Sfs → Prop} {E : Errno → Sfs → Prop}
    (hQ : ∀ u, u.Sound D P → u.table = t.table → V.Trunc u.vol i blocklen size → Q () u) :
    (dirtyInode i (·.setSfiSize size)).wp c Q E t := by
  have hi := Sfs.inode_of_loaded hl
  have hw := Sfs.vol_dirtied (·.setSfiSize size) hl
  have hx := Bytes.samePointers_setNum (b := t.vol.block i) (w := 4) (o := 0) (by omega) size
  have hroot' := hw.of_ne (Ne.symm hroot)
  have hin := h.struct.inode_wrote_head hi hw hx (by rw [hroot'])
  obtain ⟨hstruct, hset⟩ := h.struct.setHead hi hw hx rfl hin (by rw [hroot']; exact h.struct.dirSize)
  obtain ⟨hind', hmap, -⟩ := h.struct.wrote_head hi hw hx
  rw [dirtyInode_wp]
  exact hQ _ ⟨h.mounted.dirtied _, hstruct⟩ (Sfs.table_dirtied _)
    (hcut.setSize ((hcut.inode i).mp hi) hind hset rfl hsize (hind' i hi) (hmap i hi))

theorem u32_lt (x : ℤ) : u32 x < 4294967296 := by
  unfold u32
  omega

/-- Truncation never fails, and the blocks stay accounted for. -/
theorem sfsItrunc_wp (h : s.Sound D P) (hl : s.vol.loaded i) (hroot : i ≠ 1) (len : ℤ)
    {Q : Unit → Sfs → Prop} {E : Errno → Sfs → Prop}
    (hQ : ∀ u, u.Sound D P → u.table = s.table →
      s.vol.Trunc u.vol i (u32 ((len + 511).tdiv 512)) (u32 len) → Q () u) :
    (sfsItrunc i len).wp c Q E s := by
  unfold sfsItrunc
  generalize hblocklen : u32 ((len + 511).tdiv 512) = blocklen at hQ
  have hloaded {t : Sfs} (ht : t.table = s.table) : t.vol.loaded i := by
    rw [Sfs.loaded_congr ht]
    exact hl
  simp only [wp_bind]
  apply wp_foldlM_range (fun k (_ : Unit) t => t.Sound D P ∧ t.table = s.table ∧
    s.vol.Cut t.vol i fun x => x < k ∧ blocklen ≤ x)
  · rintro k hk _ t ⟨ht, htable, hcut⟩
    refine truncDirect_wp ht hcut (hloaded htable) hroot hk fun u hu hutable hcut' => ?_
    refine ⟨hu, hutable.trans htable, hcut'.skip (fun x _ hx => ?_) fun x _ hx => Or.inl ?_⟩
    · rcases hx with ⟨h1, h2⟩ | ⟨rfl, h2⟩
      · exact ⟨by omega, h2⟩
      · exact ⟨by omega, h2⟩
    · by_cases hxk : x = k
      · exact Or.inr ⟨hxk, hxk ▸ hx.2⟩
      · exact Or.inl ⟨by omega, hx.2⟩
  · rintro _ t ⟨ht, htable, hcut⟩
    have hlt := hloaded htable
    refine getVnode_wp hlt fun v _ _ hv => ?_
    have hind : v.i.sfiIndirect = t.vol.ind i := by rw [hv, Vol.ind]
    rw [hind, wp_ite]
    refine ⟨fun hcond => ?_, fun hcond => ?_⟩
    · rw [wp_bind]
      refine truncIndirect_wp ht hcut hlt hroot hcond.2 fun u hu hutable hcut' hsome => ?_
      refine truncSize_wp hu (hloaded (hutable.trans htable)) hroot
        (hcut'.skip (fun x hx hx' => ?_) fun x hx hx' => Or.inl ?_) (fun _ hz => ?_) (u32_lt len)
        fun w hw hwtable htrunc => hQ w hw (hwtable.trans (hutable.trans htable)) htrunc
      · unfold TruncGone
        rcases hx' with ⟨h1, h2⟩ | ⟨j, hj, rfl, hlt⟩
        · rw [if_pos h1]
          exact h2
        · rw [if_neg (by omega)]
          exact ⟨hcond.1, hlt⟩
      · unfold TruncGone at hx'
        split_ifs at hx' with h15
        · exact Or.inl ⟨h15, hx'⟩
        · exact Or.inr ⟨x - 15, by omega, by omega, by omega⟩
      · rcases hsome with h0 | ⟨fb, hfb, hne⟩
        · exact h0
        · exact absurd (hz fb hfb) hne
    · refine truncSize_wp ht hlt hroot (hcut.skip (fun x _ hx => ?_) fun x hx hx' => ?_)
        (fun hlen _ => by tauto) (u32_lt len)
        fun w hw hwtable htrunc => hQ w hw (hwtable.trans htable) htrunc
      · unfold TruncGone
        rw [if_pos hx.1]
        exact hx.2
      · unfold TruncGone at hx'
        split_ifs at hx' with h15
        · exact Or.inl ⟨h15, hx'⟩
        · right
          rw [Vol.map, if_neg h15, if_pos (by tauto)]
  · exact ⟨h, rfl, (Vol.Cut.refl s.vol i).skip (fun _ _ hx => hx.elim) fun _ _ hx => absurd hx.1 (by omega)⟩

end Os161
