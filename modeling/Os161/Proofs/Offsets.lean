import Os161.Proofs.WriteErrors

/-! Offsets and lengths of 64 bits, which `sfs_io` and `sfs_itrunc` put into the 32 bits
of a block number and of `sfi_size`. -/

namespace Os161

variable {s t : Sfs} {r : FileReq} {i off n d m : ℕ} {e : Errno} {u : Uio}

/-! ### Room on the disk -/

/-- With two inodes, at most 292 of 4096 blocks are in use. -/
theorem not_full_of_two (h : t.Inv False [] 0) (hn : t.nblocks = 4096) (hin : ∀ j, t.vol.Inode j → j = 1 ∨ j = i) :
    ¬ t.Full := by
  intro hfull
  let S : Finset ℕ := {0, 1, 2, i, t.vol.ind 1, t.vol.ind i} ∪
    ((Finset.range 143).image (t.vol.map 1) ∪ (Finset.range 143).image (t.vol.map i))
  have hbits : sfsFreemapbits t.nblocks = 4096 := by
    rw [hn]
    decide
  have hmem : ∀ b ∈ Finset.range 4096, b ∈ S := by
    intro b hb
    rw [Finset.mem_range] at hb
    obtain ⟨ref, href⟩ := (h.freemapExact.exact b (by rw [show t.vol.nblocks = t.nblocks from rfl, hbits]; exact hb)).mp
      (hfull b (by rw [hbits]; exact hb))
    simp only [S, Finset.mem_union, Finset.mem_insert, Finset.mem_singleton, Finset.mem_image, Finset.mem_range]
    cases ref with
    | super => exact .inl (.inl href)
    | freemap k =>
      have hk : k < sfsFreemapblocks t.nblocks := href.1
      rw [sfsFreemapblocks, hbits] at hk
      have hb2 : b = 2 + k := href.2
      exact .inl (.inr (.inr (.inl (by omega))))
    | pastEnd =>
      have hb' : t.nblocks ≤ b := href.1
      omega
    | inode j =>
      rcases hin j href.1 with rfl | rfl
      · exact .inl (.inr (.inl href.2))
      · exact .inl (.inr (.inr (.inr (.inl href.2))))
    | indirect j =>
      rcases hin j href.1 with rfl | rfl
      · exact .inl (.inr (.inr (.inr (.inr (.inl href.2.2)))))
      · exact .inl (.inr (.inr (.inr (.inr (.inr href.2.2)))))
    | pointer j fb =>
      rcases hin j href.1 with rfl | rfl
      · exact .inr (.inl ⟨fb, href.2.1, href.2.2.2.symm⟩)
      · exact .inr (.inr ⟨fb, href.2.1, href.2.2.2.symm⟩)
  have hcard : (Finset.range 4096).card ≤ S.card := Finset.card_le_card hmem
  have hsix : ({0, 1, 2, i, t.vol.ind 1, t.vol.ind i} : Finset ℕ).card ≤ 6 := Finset.card_le_six
  have hroot : ((Finset.range 143).image (t.vol.map 1)).card ≤ 143 := Finset.card_image_le.trans (by simp)
  have hfile : ((Finset.range 143).image (t.vol.map i)).card ≤ 143 := Finset.card_image_le.trans (by simp)
  have hboth := Finset.card_union_le ((Finset.range 143).image (t.vol.map 1)) ((Finset.range 143).image (t.vol.map i))
  have hall := Finset.card_union_le ({0, 1, 2, i, t.vol.ind 1, t.vol.ind i} : Finset ℕ)
    ((Finset.range 143).image (t.vol.map 1) ∪ (Finset.range 143).image (t.vol.map i))
  rw [Finset.card_range] at hcard
  change 4096 ≤ Finset.card (_ ∪ _) at hcard
  omega

/-! ### Writes -/

/-- A write is right for these offsets and lengths, whatever the file. -/
theorem keepsOffset_of_fits (hs : s.Inv False [] 0) (hr : r.IsWrite s off) (hfits : OffsetFits off r.uio.resid) :
    r.KeepsOffset s off := by
  have hi := Sfs.inode_of_loaded hr.loaded
  have hgo := hr.pouring hs
  have hio := hr.io_wp hs
  have hsum := sum_parts off r.uio.resid
  -- once a block below 143 was reached the offset is what it seems
  have hreal (hpos : 0 < r.uio.resid) (hfb : off % 2199023255552 / 512 < 143) : off % 2199023255552 = off := by
    rcases hfits with ⟨-, hlow⟩ | ⟨hzero, -⟩
    · apply Nat.mod_eq_of_lt
      by_contra hge
      exact hlow ⟨by omega, by omega⟩
    · omega
  refine ⟨?_, ?_, ?_⟩
  · intro hpanic
    unfold Op.wp at hio
    rw [hpanic] at hio
    exact hio
  · intro t u hok
    rw [Op.wp_of_ok hok] at hio
    obtain ⟨t₀, hparts, ht⟩ := hio
    simp only at hparts ht
    have hit := hparts.stays.loaded hr.loaded
    have hadv := (hgo.carried hparts hsum.le).1
    have hlen : (r.uio.iov.flatten.take r.uio.resid).length = r.uio.resid := List.length_take_of_le hr.enough
    have hresid : u.resid + r.uio.resid = r.uio.resid := by
      have hresid := hadv.resid
      rw [hsum, hlen] at hresid
      exact hresid
    have hoffset : u.offset = (off + r.uio.resid : ℕ) := by
      have hoffset := hadv.offset
      rw [hsum, hlen] at hoffset
      simp only at hoffset
      rw [hoffset, hr.offset]
      push_cast
      rfl
    have hsize := (hparts.patched.head _ hi).size
    rw [ht, Sfs.extended_size hparts.stays.inv hit hgo.file, hsize, hoffset]
    rcases hfits with ⟨hpos, -⟩ | ⟨hzero, hoff⟩
    · have hne : parts off r.uio.resid ≠ [] := by
        intro hnil
        rw [hnil, List.sum_nil] at hsum
        omega
      obtain ⟨hfb, hend⟩ := hparts.low.resolve_left hne
      rw [hreal hpos hfb, hsum] at hend
      refine ⟨hend, ?_⟩
      have hrw := hadv.rw.trans hgo.write
      simp only
      split_ifs with hgrow
      · rw [u32_natCast (by omega)]
        have := hgrow.2.2
        omega
      · have hge : ¬ ((s.vol.block r.ino).sfiSize < off + r.uio.resid) := by
          intro hlt
          exact hgrow ⟨by omega, hrw, by exact_mod_cast hlt⟩
        omega
    · rw [if_neg (by omega)]
      simp only
      rcases hoff with hoff | ⟨hoff, hbig⟩
      · omega
      · -- the block of the offset is out of reach
        have hne : parts off r.uio.resid ≠ [] := by
          unfold parts headParts
          rw [if_neg hoff]
          simp
        have hfb := (hparts.low.resolve_left hne).1
        omega
  · intro e t u herr hbeyond k hk
    rw [Op.wp_of_err herr] at hio
    obtain ⟨t₀, d, m, hgiven, ht⟩ := hio
    simp only at hgiven ht
    have hit := hgiven.stays.loaded hr.loaded
    have hwithin : d + m ≤ r.uio.resid := hgiven.within
    have henough := hr.enough
    rw [ht, Sfs.extended_fbyte hgiven.stays.inv hit hgo.file _ _ (Sfs.inode_of_loaded hit), hgiven.patched.fbyte _ hi]
    apply if_neg
    rintro ⟨-, hge, hlt⟩
    rw [List.length_take_of_le (by simp only; omega)] at hlt
    have hfb := (hgiven.low.resolve_left (by omega)).1
    rw [hreal (by omega) hfb] at hge
    omega

/-- A write of ones to an empty file. -/
def onesWrite (off n : ℕ) : FileReq := ⟨3, uioKinit (List.replicate n 1) off .write⟩

theorem onesWrite_isWrite {n : ℕ} (hn : n < 4294967296) (off : ℕ) :
    (onesWrite off n).IsWrite (Sfs.oneFile 4096 3 0 (by decide)) off where
  small := (by decide : 4096 ≤ 8388608)
  loaded := (Sfs.oneFile.loaded_iff 3).mpr rfl
  file := by
    change ((Sfs.oneFile 4096 3 0 _).vol.block 3).sfiType = sfsTypeFile
    rw [Sfs.oneFile.block_self]
    decide +kernel
  write := rfl
  enough := by simp [onesWrite, uioKinit]
  word := by simpa [onesWrite, uioKinit] using hn
  offset := rfl

theorem emptyFile_consistent : (Sfs.oneFile 4096 3 0 (by decide)).Consistent :=
  Sfs.oneFile.consistent ⟨by decide, by decide, by decide, Or.inl rfl⟩

theorem emptyFile_fbyte (k : ℕ) : (Sfs.oneFile 4096 3 0 (by decide)).vol.fbyte 3 k = 0 := by
  rw [Vol.fbyte, Sfs.oneFile.data_hole (by decide), Bytes.byte_zero]

/-- It ends early only where a file can have no more blocks. -/
theorem onesWrite_cause {n : ℕ} (hn : n < 4294967296)
    (h : GivenUp 3 (off % 2199023255552) (parts off n) (Sfs.oneFile 4096 3 0 (by decide), (onesWrite off n).uio) d m e (t, u)) :
    143 * 512 ≤ off % 2199023255552 + d := by
  rcases h.cause with ⟨-, -, hfull⟩ | ⟨-, -, hbig⟩ | ⟨-, hfault⟩
  · refine absurd hfull (not_full_of_two (i := 3) h.stays.inv h.stays.nblocks ?_)
    intro j hj
    exact (Sfs.oneFile.inode_iff (by decide) j).mp ((h.patched.inode j).mp hj)
  · exact hbig.1
  · have hready : (onesWrite off n).uio.Ready :=
      ⟨(onesWrite_isWrite hn off).enough, (onesWrite_isWrite hn off).word, trivial⟩
    have hresid : (onesWrite off n).uio.resid = n := by simp [onesWrite, uioKinit]
    rw [Uio.faultAt_good hready (by rw [sum_parts, hresid])] at hfault
    cases hfault

/-- For every other offset and length there is a file for which it is not. -/
theorem fits_of_keepsOffset {n : ℕ} (hn : n < 4294967296)
    (h : (onesWrite off n).KeepsOffset (Sfs.oneFile 4096 3 0 (by decide)) off) : OffsetFits off n := by
  have hr := onesWrite_isWrite hn off
  have hresid : (onesWrite off n).uio.resid = n := by simp [onesWrite, uioKinit]
  have hio := hr.io_wp (emptyFile_consistent.inv False.elim)
  have hgo := hr.pouring (emptyFile_consistent.inv False.elim)
  have hi := Sfs.inode_of_loaded hr.loaded
  rw [hresid] at hio
  obtain ⟨_, ⟨t, u⟩, hok, t₀, hparts, ht⟩ | ⟨e, ⟨t, u⟩, herr, t₀, d, m, hgiven, ht⟩ | ⟨hpanic, -⟩ := hio.cases
  · -- the write succeeds
    obtain ⟨hend, hsize⟩ := h.success t u hok
    rw [hresid] at hend hsize
    by_cases hzero : n = 0
    · have hsum := sum_parts off n
      have hstill : u.resid = n := by
        have hleft := hparts.resid hgo (by rw [hsum, hresid])
        simp only [hresid, hsum] at hleft
        omega
      simp only at ht
      rw [ht, Sfs.extended_size hparts.stays.inv (hparts.stays.loaded hr.loaded) hgo.file,
        if_neg (by simp [hstill]), (hparts.patched.head _ hi).size] at hsize
      have hempty : ((Sfs.oneFile 4096 3 0 (by decide)).vol.block (onesWrite off n).ino).sfiSize = 0 := by
        change ((Sfs.oneFile 4096 3 0 _).vol.block 3).sfiSize = 0
        rw [Sfs.oneFile.block_self]
        decide +kernel
      simp only [hempty] at hsize
      exact .inr ⟨hzero, .inl (by omega)⟩
    · refine .inl ⟨by omega, ?_⟩
      intro hwraps
      have := hwraps.1
      omega
  · -- it comes to the end of what a file can have
    have hcause := onesWrite_cause hn hgiven
    have hwithin : d + m ≤ n := by
      have hwithin := hgiven.within
      simp only [hresid] at hwithin
      exact hwithin
    by_cases hzero : n = 0
    · refine .inr ⟨hzero, .inr ⟨?_, by omega⟩⟩
      intro hal
      have hsome := hgiven.some
      unfold parts headParts at hsome
      rw [if_pos hal, hzero] at hsome
      exact hsome rfl
    · refine .inl ⟨by omega, ?_⟩
      intro hwraps
      obtain ⟨hfar, hlow⟩ := hwraps
      have hsame := h.failure e t u herr (by rw [hresid]; omega) (off % 2199023255552) (by omega)
      have hit := hgiven.stays.loaded hr.loaded
      simp only at ht
      rw [ht, Sfs.extended_fbyte hgiven.stays.inv hit hgo.file _ _ (Sfs.inode_of_loaded hit), hgiven.patched.fbyte _ hi] at hsame
      have hbytes : (onesWrite off n).uio.iov.flatten = List.replicate n 1 := by simp [onesWrite, uioKinit]
      simp only [hbytes, List.take_replicate, List.length_replicate, Nat.min_eq_left (show d ≤ n by omega)] at hsame
      rw [if_pos ⟨trivial, le_rfl, by omega⟩, Nat.sub_self] at hsame
      have hone : (List.replicate d (1 : UInt8)).getD 0 0 = 1 := by
        rw [List.getD_eq_getElem _ _ (by rw [List.length_replicate]; omega), List.getElem_replicate]
      have hzero' : (Sfs.oneFile 4096 3 0 (by decide)).vol.fbyte (onesWrite off n).ino (off % 2199023255552) = 0 :=
        emptyFile_fbyte _
      rw [hone, hzero'] at hsame
      exact absurd hsame (by decide)
  · exact absurd hpanic h.returns

/-! ### Truncation -/

theorem Vol.Trunc.fbyte {V V' : Vol} {j blocklen size : ℕ} (h : V.Trunc V' i blocklen size) (hj : V.Inode j) (k : ℕ)
    (hkept : ¬ (j = i ∧ TruncGone blocklen (k / 512))) : V'.fbyte j k = V.fbyte j k := by
  by_cases hk : k / 512 < 143
  · rw [Vol.fbyte, Vol.fbyte, h.data j hj _ hk hkept]
  · rw [Vol.fbyte_big (by omega), Vol.fbyte_big (by omega)]

/-- A truncation returns 0 and leaves the volume in order. -/
theorem sfsItrunc_inv (h : s.Inv False [] 0) (hl : s.vol.loaded i) (hi1 : i ≠ 1) (len : ℕ) :
    (sfsItrunc i len).wp False (fun _ t => s.Stays False t ∧ s.vol.Trunc t.vol i (u32 (((len + 511) / 512 : ℕ) : ℤ)) (u32 len))
      (fun _ _ => False) s := by
  apply sfsItrunc_wp h.sound hl hi1
  intro t ht htable htrunc
  have hblocks : ((len : ℤ) + 511).tdiv 512 = (((len + 511) / 512 : ℕ) : ℤ) := by
    exact_mod_cast (Int.ofNat_tdiv (len + 511) 512).symm
  rw [hblocks] at htrunc
  exact ⟨⟨h.trunc hi1 ht htrunc, htrunc.nblocks, htable⟩, htrunc⟩

theorem keepsLength_iff (hs : s.Consistent) (hl : s.vol.loaded i) (hfile : (s.vol.block i).sfiType = sfsTypeFile) (len : ℕ) :
    s.KeepsLength i len ↔ len < 4294967296 := by
  have hi := Sfs.inode_of_loaded hl
  have hi1 : i ≠ 1 := by
    intro h1
    rw [h1, hs.rootType] at hfile
    exact absurd hfile (by decide)
  have hwp := sfsItrunc_inv (hs.inv False.elim) hl hi1 len
  constructor
  · intro h
    obtain ⟨_, t, hok, -, htrunc⟩ | ⟨_, _, _, hf⟩ | ⟨_, hf⟩ := hwp.cases
    · have hsize := (h.success t hok).1
      rw [htrunc.size] at hsize
      rw [← hsize]
      exact u32_lt _
    · exact hf.elim
    · exact hf.elim
  · intro hlen
    refine ⟨?_, ?_, ?_⟩
    · intro hpanic
      unfold Op.wp at hwp
      rw [hpanic] at hwp
      exact hwp
    · intro t hok
      rw [Op.wp_of_ok hok] at hwp
      refine ⟨by rw [hwp.2.size, u32_natCast hlen], ?_⟩
      intro k hk
      apply hwp.2.fbyte hi
      rw [u32_natCast (by omega)]
      unfold TruncGone
      split_ifs <;> omega
    · intro e t herr
      rw [Op.wp_of_err herr] at hwp
      exact hwp.elim

end Os161
