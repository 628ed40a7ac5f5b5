import Os161.Proofs.Mounted
import Os161.Spec.Device

/-! Which sectors a request reaches. The range check of `lhd_io` adds in 32 bits, and
`sfs_blockio` multiplies in 32 bits; both are right as long as nothing wraps. -/

namespace Os161

open Op

variable {dBlocks resid : ℕ} {offset : ℤ}

theorem u32_tmod_ne_zero : u32 (offset.tmod 512) ≠ 0 ↔ ¬ (512 : ℤ) ∣ offset := by
  rw [Int.dvd_iff_tmod_eq_zero]
  have hlow : -512 < offset.tmod 512 := Int.lt_tmod_of_pos offset (by decide)
  have hhigh : offset.tmod 512 < 512 := Int.tmod_lt_of_pos offset (by decide)
  unfold u32
  omega

theorem lhdIo_eq (d : Lhd) (u : Uio) : lhdIo (d, u) = lhdLoop (lhdSectors d.dBlocks u.offset u.resid) (d, u) := by
  simp only [lhdIo, lhdSectors, bind, Op.get]
  split_ifs with h1 h2
  · rfl
  · rfl
  · rw [lhdLoop, List.foldlM_map]

theorem devRw_eq (d : Lhd) (u : Uio) :
    devRw u.rw (d, u) = lhdLoop (devSectors d.dBlocks u.offset u.resid) (d, u) := by
  simp only [devRw, devSectors, bind, Op.get]
  cases devTryseek d.dBlocks u.offset with
  | error e => rfl
  | ok _ =>
    simp only [Op.kassert, if_true]
    exact lhdIo_eq d u

/-- The sector numbers of a request for whole sectors. -/
theorem lhdSectors_mul (q : ℤ) (len : ℕ) : lhdSectors dBlocks (512 * q) (512 * len) =
    if dBlocks < (u32 q + len) % 4294967296 then .error .einval
    else .ok ((List.range len).map fun i => (u32 q + i) % 4294967296) := by
  have hq : (512 * q).tdiv 512 = q := Int.mul_tdiv_cancel_left q (by decide)
  have hlen : 512 * len / 512 = len := by omega
  unfold lhdSectors
  rw [if_neg (by rw [u32_tmod_ne_zero]; omega)]
  simp only [hq, hlen]

theorem addressed_mul {q : ℤ} {len : ℕ} {sects : List ℕ} :
    Addressed dBlocks (512 * q) (512 * len) (.ok sects) ↔
      sects.map Nat.cast = (List.range len).map (fun i : ℕ => q + i) ∧ ∀ sect ∈ sects, sect < dBlocks := by
  have hq : 512 * q / 512 = q := by omega
  have hlen : 512 * len / 512 = len := by omega
  unfold Addressed
  rw [hq, hlen]
  simp

/-- The request lies within the disk, or is empty. -/
theorem sectors_on_disk {q : ℤ} {len : ℕ} (hd : dBlocks < 4294967296) :
    (((List.range len).map fun i => (u32 q + i) % 4294967296).map Nat.cast = (List.range len).map (fun i : ℕ => q + i) ∧
      ∀ sect ∈ (List.range len).map fun i => (u32 q + i) % 4294967296, sect < dBlocks) ↔
    len = 0 ∨ 0 ≤ q ∧ q + len ≤ dBlocks := by
  rw [List.map_map, List.map_inj_left]
  simp only [List.mem_range, List.mem_map, forall_exists_index, and_imp, Function.comp_apply]
  constructor
  · rintro ⟨heq, hlt⟩
    rcases Nat.eq_zero_or_pos len with h0 | hpos
    · exact Or.inl h0
    · have hfirst := heq 0 hpos
      have hlast := heq (len - 1) (by omega)
      have hbelow := hlt _ (len - 1) (by omega) rfl
      exact Or.inr ⟨by omega, by omega⟩
  · rintro (rfl | ⟨hq, hend⟩)
    · simp
    · have hexact (i : ℕ) (hi : i < len) : (((u32 q + i) % 4294967296 : ℕ) : ℤ) = q + i := by
        unfold u32
        omega
      refine ⟨hexact, ?_⟩
      rintro sect i hi rfl
      have := hexact i hi
      omega

theorem addressed_lhdSectors (hd : dBlocks < 4294967296) :
    Addressed dBlocks offset resid (lhdSectors dBlocks offset resid) ↔ ¬ EndWraps dBlocks offset resid := by
  unfold EndWraps
  by_cases hal : 512 ∣ offset ∧ 512 ∣ resid
  · obtain ⟨⟨q, rfl⟩, len, rfl⟩ := hal
    rw [lhdSectors_mul]
    split_ifs with hpast
    · simp only [Addressed, true_iff]
      rintro ⟨-, -, -, -, hend⟩
      unfold u32 at hpast
      omega
    · rw [addressed_mul, sectors_on_disk hd]
      have hend : (512 * q + (512 * len : ℕ)) / 512 % 4294967296 ≤ (dBlocks : ℤ) := by
        unfold u32 at hpast
        omega
      constructor
      · rintro (rfl | hin) ⟨-, -, hpos, hout, -⟩
        · omega
        · exact hout ⟨by omega, by push_cast; omega⟩
      · intro h
        by_contra hno
        simp only [not_or] at hno
        exact h ⟨Int.dvd_mul_right .., Nat.dvd_mul_right .., by omega, fun hin => hno.2 ⟨by omega, by push_cast at hin; omega⟩, hend⟩
  · have herr : lhdSectors dBlocks offset resid = .error .einval := by
      unfold lhdSectors
      rw [if_pos]
      rw [u32_tmod_ne_zero]
      by_contra hno
      simp only [not_or, not_not] at hno
      exact hal ⟨hno.1, Nat.dvd_of_mod_eq_zero hno.2⟩
    rw [herr]
    simp only [Addressed, true_iff]
    rintro ⟨h1, h2, -⟩
    exact hal ⟨h1, h2⟩

/-- A position is accepted if it is before the end of the disk; a negative one is. -/
theorem devTryseek_cases (dBlocks : ℕ) (q : ℤ) :
    (devTryseek dBlocks (512 * q) = .ok () ∧ (dBlocks = 0 ∨ 512 * q < dBlocks * 512)) ∨
      devTryseek dBlocks (512 * q) = .error .einval ∧ ¬ (dBlocks = 0 ∨ 512 * q < dBlocks * 512) := by
  have hq : (512 * q).tdiv 512 = q := Int.mul_tdiv_cancel_left q (by decide)
  have hmod : (512 * q).tmod 512 = 0 := Int.mul_tmod_right 512 q
  unfold devTryseek
  rw [hq, hmod]
  split_ifs with hpos _ hend
  · omega
  · exact Or.inr ⟨rfl, by omega⟩
  · exact Or.inl ⟨rfl, by omega⟩
  · exact Or.inl ⟨rfl, by omega⟩

theorem devTryseek_error {e : Errno} (h : devTryseek dBlocks offset = .error e) : e = .einval := by
  unfold devTryseek at h
  split_ifs at h <;> simp_all

theorem addressed_devSectors (hd : dBlocks < 4294967296) :
    Addressed dBlocks offset resid (devSectors dBlocks offset resid) ↔
      ¬ (EndWraps dBlocks offset resid ∧ (dBlocks = 0 ∨ offset < dBlocks * 512)) := by
  unfold devSectors
  cases hseek : devTryseek dBlocks offset with
  | error e =>
    have haddr : Addressed dBlocks offset resid (.error e) := devTryseek_error hseek
    refine iff_of_true haddr ?_
    rintro ⟨⟨⟨q, rfl⟩, -⟩, hin⟩
    obtain ⟨hok, -⟩ | ⟨-, hout⟩ := devTryseek_cases dBlocks q
    · rw [hok] at hseek
      exact absurd hseek (by simp)
    · exact hout hin
  | ok _ =>
    refine (addressed_lhdSectors hd).trans (not_congr ?_)
    refine ⟨fun hw => ⟨hw, ?_⟩, And.left⟩
    obtain ⟨⟨q, rfl⟩, -⟩ := hw
    obtain ⟨-, hin⟩ | ⟨herr, -⟩ := devTryseek_cases dBlocks q
    · exact hin
    · rw [herr] at hseek
      exact absurd hseek (by simp)

/-- A block number of SFS. -/
theorem addressed_sfs {block : ℕ} (hd : dBlocks < 4294967296) (hb : block < 4294967296) :
    Addressed dBlocks (sfsuioOffset block) 512 (lhdSectors dBlocks (sfsuioOffset block) 512) ↔ block ≠ 4294967295 := by
  rw [addressed_lhdSectors hd]
  unfold EndWraps sfsuioOffset
  omega

theorem addressed_blockio (hd : dBlocks < 4294967296) (block : ℕ) :
    Addressed dBlocks (blockioOffset block) 512 (lhdSectors dBlocks (blockioOffset block) 512) := by
  rw [addressed_lhdSectors hd]
  unfold EndWraps blockioOffset
  omega

/-- The sector numbers that `lhd_io` writes are on the disk and are `offset / 512 + i`,
and every other request is refused with `EINVAL` before the loop, exactly if the 32-bit
sum of the range check does not wrap. -/
theorem lhd_sector_numbers (d : Lhd) :
    (∀ u, lhdIo (d, u) = lhdLoop (lhdSectors d.dBlocks u.offset u.resid) (d, u)) ∧
    (∀ u, devRw u.rw (d, u) = lhdLoop (devSectors d.dBlocks u.offset u.resid) (d, u)) ∧
    (∀ offset resid, Addressed d.dBlocks offset resid (lhdSectors d.dBlocks offset resid) ↔
      ¬ EndWraps d.dBlocks offset resid) ∧
    (∀ offset resid, Addressed d.dBlocks offset resid (devSectors d.dBlocks offset resid) ↔
      ¬ (EndWraps d.dBlocks offset resid ∧ (d.dBlocks = 0 ∨ offset < d.dBlocks * 512))) ∧
    (∀ block : UInt32, Addressed d.dBlocks (sfsuioOffset block.toNat) 512
      (lhdSectors d.dBlocks (sfsuioOffset block.toNat) 512) ↔ block ≠ 4294967295) ∧
    ∀ block : UInt32, Addressed d.dBlocks (blockioOffset block.toNat) 512
      (lhdSectors d.dBlocks (blockioOffset block.toNat) 512) := by
  refine ⟨lhdIo_eq d, devRw_eq d, fun _ _ => addressed_lhdSectors d.word, fun _ _ => addressed_devSectors d.word, ?_,
    fun block => addressed_blockio d.word block.toNat⟩
  intro block
  rw [addressed_sfs d.word block.toNat_lt, not_iff_not, ← UInt32.toNat_inj]
  rfl

/-- Sector 4294967295 of a disk with 16 sectors; and a negative offset that ends up at
sector 0. -/
theorem lhd_sector_numbers_wrap :
    devSectors 16 (-512) 1024 = .ok [4294967295, 0] ∧ devSectors 16 (-2199023255552) 512 = .ok [0] := by
  decide

/-! ### The two ways to a block -/

theorem offsets_agree {block : ℕ} : blockioOffset block = sfsuioOffset block ↔ block < 8388608 := by
  unfold blockioOffset sfsuioOffset
  omega

/-- `sfs_blockio` transfers the sector that its 32-bit offset leads to. -/
theorem sfsBlockDirect_sector {s : Sfs} {u : Uio} {block : ℕ} (hu : u.Ready) (hr : 512 ≤ u.resid)
    (hb : block % 8388608 < s.dev.dBlocks) (hquiet : s.dev.outcomes = []) {Q : Unit → Sfs × Uio → Prop}
    {E : Errno → Sfs × Uio → Prop}
    (hread : u.rw = .read → ∀ u', u.Moved u' u.iov.flatten (s.dev.sector (block % 8388608)).toList → Q () (s, u'))
    (hwrite : u.rw = .write → ∀ u', u.Moved u' u.iov.flatten (u.iov.flatten.take 512) →
      Q () (s.poke (block % 8388608) (Bytes.ofList (u.iov.flatten.take 512)), u')) :
    (sfsBlockDirect block).wp False Q E (s, u) := by
  have hmod : block * 512 % 4294967296 = block % 8388608 * 512 := by omega
  have hone : ({ u with offset := (block % 8388608 * 512 : ℕ), resid := 512 } : Uio).OneBlock (block % 8388608) :=
    ⟨⟨hr.trans hu.enough, Nat.lt_of_le_of_lt hr hu.word, hu.good⟩, rfl, Nat.cast_mul ..⟩
  unfold sfsBlockDirect
  simp only [wp_bind, wp_get]
  refine (wp_kassert_of hr).mpr ?_
  simp only [wp_modify, wp_attempt, onDevUio, wp_zoom, hmod]
  apply sfsRwblock_wp hone hb hquiet
  · intro hrw u' hm
    exact hread hrw _ (hm.restore hr hu.word)
  · intro hrw u' hm
    exact hwrite hrw _ (hm.restore hr hu.word)

theorem readblock_quiet {d : Lhd} {block : ℕ} (hb : block < d.dBlocks) (hd : d.outcomes = []) (data : Block) {c : Prop}
    {Q : Block → Lhd → Prop} {E : Errno → Lhd → Prop} :
    (sfsReadblock block data).wp c Q E d ↔ Q (d.sector block) d := by
  unfold Op.wp
  rw [sfsReadblock_eq hb (by simp [hd])]
  simp only [hd, List.tail_nil]
  rw [← hd]

theorem writeblock_quiet {d : Lhd} {block : ℕ} (hb : block < d.dBlocks) (hd : d.outcomes = []) (data : Block) {c : Prop}
    {Q : Unit → Lhd → Prop} {E : Errno → Lhd → Prop} :
    (sfsWriteblock block data).wp c Q E d ↔ Q () { d with sector := Function.update d.sector block data } := by
  unfold Op.wp
  rw [sfsWriteblock_eq hb, if_neg (by simp [hd])]
  simp only [hd, List.tail_nil]

/-- A block that differs from `b`. -/
theorem Bytes.exists_ne (b : Block) : ∃ b' : Block, b' ≠ b := by
  by_cases h : b = Bytes.zero
  · refine ⟨fun _ => 1, fun heq => ?_⟩
    have := congrFun (heq.trans h) 0
    exact absurd this (by decide)
  · exact ⟨Bytes.zero, Ne.symm h⟩

theorem sameBlock_iff {s : Sfs} {block : ℕ} (hb : block < s.dev.dBlocks) (hquiet : s.dev.outcomes = []) :
    SameBlock s block ↔ block < 8388608 := by
  have hlow : block % 8388608 < s.dev.dBlocks := (Nat.mod_le ..).trans_lt hb
  constructor
  · intro h
    by_contra hbig
    -- the block is written to another sector
    obtain ⟨data, hdata⟩ := Bytes.exists_ne (s.dev.sector block)
    obtain ⟨u, hone, hrw, hall⟩ : ∃ u : Uio, u.OneBlock block ∧ u.rw = .write ∧ Bytes.ofList (u.iov.flatten.take 512) = data := by
      refine ⟨_, oneBlock_kinit data block .write, rfl, ?_⟩
      have hlen : data.toList.take 512 = data.toList := List.take_of_length_le (Bytes.length_toList data).le
      simp [uioKinit, hlen]
    have hwrite := (h u hone.ready hone.resid.ge).1 hrw
    have hother : (sfsBlockDirect block).wp False
        (fun _ q => q.1.dev.sector block = s.dev.sector block ∧ block < q.1.dev.dBlocks ∧ q.1.dev.outcomes = [])
        (fun _ _ => False) (s, u) := by
      apply sfsBlockDirect_sector hone.ready hone.resid.ge hlow hquiet
      · intro hread
        simp [hrw] at hread
      · intro _ u' _
        exact ⟨Function.update_of_ne (by omega) .., hb, hquiet⟩
    obtain ⟨_, q, -, hq, hsame, hbq, hquietq⟩ | ⟨_, _, -, hno, -⟩ | ⟨-, hno⟩ := (hwrite.and hother).cases
    · rw [readblock_quiet hbq hquietq, hsame, hall] at hq
      exact hdata hq.symm
    · exact hno
    · exact hno
  · intro hsmall u hu hr
    have hmod : block % 8388608 = block := Nat.mod_eq_of_lt hsmall
    constructor
    · intro hrw
      apply sfsBlockDirect_sector hu hr hlow hquiet
      · intro hread
        simp [hrw] at hread
      · intro _ u' _
        rw [hmod, readblock_quiet (by exact hb) (by exact hquiet)]
        exact Function.update_self ..
    · intro hrw data
      rw [writeblock_quiet hb hquiet]
      apply sfsBlockDirect_sector (s := s.poke block data) hu hr hlow hquiet
      · intro _ u' hmoved
        have hsector := hmoved.passed
        rw [hmod, show (s.poke block data).dev.sector block = data from Function.update_self ..] at hsector
        exact hsector
      · intro hwrite
        simp [hrw] at hwrite

/-- The offset of `sfs_blockio` is that of `sfs_readblock` and `sfs_writeblock`, and
what is written on one way is read on the other, exactly for the blocks below `2^23`. -/
theorem sfs_block_offsets (block : UInt32) :
    (blockioOffset block.toNat = sfsuioOffset block.toNat ↔ block.toNat < 8388608) ∧
    ∀ s : Sfs, block.toNat < s.dev.dBlocks → s.dev.outcomes = [] →
      (SameBlock s block.toNat ↔ block.toNat < 8388608) := by
  constructor
  · exact offsets_agree
  · intro s hb hquiet
    exact sameBlock_iff hb hquiet

/-- A disk that is one sector too large. -/
def largeDisk : Sfs where
  nblocks := 8388609
  freemap _ := false
  freemapdirty := false
  vnodes := []
  dev := ⟨8388609, by decide, fun _ => Bytes.zero, []⟩
  kmem := []

theorem sfs_block_offsets_large : SameBlock largeDisk 8388607 :=
  ((sfs_block_offsets 8388607).2 largeDisk (by decide) rfl).mpr (by decide)

/-- Through `sfs_blockio` block `2^23` is sector 0. -/
theorem sfs_block_offsets_differ :
    blockioOffset 8388608 = 0 ∧ sfsuioOffset 8388608 = 4294967296 ∧ ¬ SameBlock largeDisk 8388608 := by
  refine ⟨by decide, by decide, ?_⟩
  rw [sameBlock_iff (by decide) rfl]
  decide

end Os161
