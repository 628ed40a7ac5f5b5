import Os161.Proofs.Uio
import Os161.Spec.Lhd

/-! One sector through the driver. A write uses up the uio before the disk says
how it ended; a read only after the disk said that it succeeded. -/

namespace Os161

variable {d : Lhd} {u : Uio}

theorem lhdSector_write (hu : u.Ready) (hr : 512 ≤ u.resid) (hrw : u.rw = .write) (sect : ℕ) :
    ∃ u', u.Moved u' u.iov.flatten (u.iov.flatten.take 512) ∧
      lhdSector sect (d, u) =
        match d.operate sect .write (Bytes.ofList (u.iov.flatten.take 512)) with
        | (.error e, d') => .err e (d', u')
        | (.ok _, d') => .ok () (d', u') := by
  obtain ⟨u', hmove, hmoved⟩ := uiomove_eq hu (Bytes.zero : Block).toList
    (by rw [Bytes.length_toList]; exact hr)
  rw [hrw] at hmove hmoved
  simp only [UioRw.traffic, UioRw.source, Bytes.length_toList] at hmove hmoved
  refine ⟨u', hmoved, ?_⟩
  have hrw' : u'.rw = .write := hmoved.rw.trans hrw
  simp only [lhdSector, bind, Op.get, hrw, onUio, Op.zoom, hmove, hrw', Op.set]
  rcases d.operate sect .write (Bytes.ofList (u.iov.flatten.take 512)) with ⟨_ | _, d'⟩ <;> rfl

theorem lhdSector_read (hu : u.Ready) (hr : 512 ≤ u.resid) (hrw : u.rw = .read) (sect : ℕ) :
    (∃ e d', d.operate sect .read (Bytes.ofList []) = (.error e, d') ∧
      lhdSector sect (d, u) = .err e (d', u)) ∨
    ∃ data d' u', d.operate sect .read (Bytes.ofList []) = (.ok data, d') ∧
      u.Moved u' u.iov.flatten data.toList ∧ lhdSector sect (d, u) = .ok () (d', u') := by
  rcases hop : d.operate sect .read (Bytes.ofList []) with ⟨e | data, d'⟩
  · left
    refine ⟨e, d', rfl, ?_⟩
    simp only [lhdSector, bind, Op.get, hrw, pure, hop, Op.set]
    rfl
  · right
    obtain ⟨u', hmove, hmoved⟩ := uiomove_eq hu data.toList (by rw [Bytes.length_toList]; exact hr)
    rw [hrw] at hmove hmoved
    simp only [UioRw.traffic, UioRw.source] at hmove hmoved
    refine ⟨data, d', u', rfl, hmoved, ?_⟩
    simp only [lhdSector, bind, Op.get, hrw, pure, hop, Op.set, onUio, Op.zoom, hmove]

/-- `lhd_io` when all that is asked for is one whole sector. -/
theorem lhdIo_one {block : ℕ} (hb : block < 4294967296) (ho : u.offset = block * 512)
    (hr : u.resid = 512) :
    lhdIo (d, u) = if d.dBlocks < (block + 1) % 4294967296 then .err .einval (d, u)
      else lhdSector block (d, u) := by
  have hsect : u32 (u.offset.tdiv 512) = block := by
    rw [ho, Int.mul_tdiv_cancel _ (by decide)]
    unfold u32
    omega
  have hoff : u32 (u.offset.tmod 512) = 0 := by
    rw [ho, Int.mul_tmod_left]
    rfl
  have hmod : (block + 0) % 4294967296 = block := by omega
  simp only [lhdIo, bind, Op.get, hsect, hoff, hr]
  rw [if_neg (by decide)]
  split_ifs
  · rfl
  · simp only [List.range_one, Nat.reduceDiv, List.foldlM_cons, List.foldlM_nil, bind, hmod]
    cases lhdSector block (d, u) <;> rfl

/-- `lhd_io` on a uio that is used up. -/
theorem lhdIo_none (block : ℕ) (hb : block ≤ d.dBlocks) (ho : u.offset = block * 512)
    (hr : u.resid = 0) : lhdIo (d, u) = .ok () (d, u) := by
  have hsect : u32 (u.offset.tdiv 512) = block := by
    have := d.word
    rw [ho, Int.mul_tdiv_cancel _ (by decide)]
    unfold u32
    omega
  have hoff : u32 (u.offset.tmod 512) = 0 := by
    rw [ho, Int.mul_tmod_left]
    rfl
  have hle : ¬ d.dBlocks < (block + 0) % 4294967296 := by
    have := d.word
    omega
  simp only [lhdIo, bind, Op.get, hsect, hoff, hr]
  rw [if_neg (by decide), if_neg (by simpa using hle)]
  rfl

theorem Lhd.operate_out {sect : ℕ} (h : d.dBlocks ≤ sect) (rw : UioRw) (buf : Block) :
    d.operate sect rw buf = (.error .einval, d) :=
  if_pos h

theorem Lhd.operate_media {sect : ℕ} (h : sect < d.dBlocks) (hm : d.outcomes.head? = some .media)
    (rw : UioRw) (buf : Block) :
    d.operate sect rw buf = (.error .eio, { d with outcomes := d.outcomes.tail }) := by
  obtain ⟨os, hos⟩ := List.head?_eq_some_iff.mp hm
  simp only [operate, if_neg (Nat.not_le.mpr h), hos, List.tail_cons]

theorem Lhd.operate_ok {sect : ℕ} (h : sect < d.dBlocks) (hm : d.outcomes.head? ≠ some .media)
    (rw : UioRw) (buf : Block) :
    d.operate sect rw buf = match rw with
      | .read => (.ok (d.sector sect), { d with outcomes := d.outcomes.tail })
      | .write => (.ok buf,
        { d with sector := Function.update d.sector sect buf, outcomes := d.outcomes.tail }) := by
  unfold operate
  rw [if_neg (Nat.not_le.mpr h)]
  split
  · rename_i hos
    simp [hos] at hm
  · rfl

/-- A one-block uio for `block`. -/
structure Uio.OneBlock (u : Uio) (block : ℕ) : Prop where
  ready : u.Ready
  resid : u.resid = 512
  offset : u.offset = block * 512

theorem oneBlock_kinit (data : Block) (block : ℕ) (rw : UioRw) :
    (uioKinit data.toList (block * 512) rw).OneBlock block := by
  refine ⟨⟨?_, ?_, trivial⟩, ?_, rfl⟩ <;> simp [uioKinit]

/-- A block outside the disk: the driver or the disk refuses, and the file system
takes that for its own fault. -/
theorem sfsRetry_out {block : ℕ} (hu : u.OneBlock block) (hb : block < 4294967296)
    (hout : d.dBlocks ≤ block) (tries : ℕ) : sfsRetry tries (d, u) = .panic := by
  have hio : ∃ s, lhdIo (d, u) = .err .einval s := by
    rw [lhdIo_one hb hu.offset hu.resid]
    split_ifs
    · exact ⟨_, rfl⟩
    · cases hrw : u.rw with
      | read =>
        obtain ⟨e, d', hop, he⟩ | ⟨data, d', u', hop, -⟩ :=
          lhdSector_read (d := d) hu.ready hu.resid.ge hrw block
        · rw [Lhd.operate_out hout] at hop
          cases hop
          exact ⟨_, he⟩
        · rw [Lhd.operate_out hout] at hop
          exact absurd hop (by simp)
      | write =>
        obtain ⟨u', -, he⟩ := lhdSector_write (d := d) hu.ready hu.resid.ge hrw block
        rw [Lhd.operate_out hout] at he
        exact ⟨_, he⟩
  obtain ⟨s, hs⟩ := hio
  cases tries <;> simp only [sfsRetry, sfsTry, bind, Op.attempt, hs] <;> rfl

/-- The first attempt at a write decides: after a media error the uio is used up,
so that the second attempt has nothing left to do and succeeds. -/
theorem sfsRetry_write {block : ℕ} (hu : u.OneBlock block) (hrw : u.rw = .write)
    (hb : block < d.dBlocks) (tries : ℕ) :
    ∃ u', u.Moved u' u.iov.flatten (u.iov.flatten.take 512) ∧
      sfsRetry (tries + 1) (d, u) = .ok () (if d.outcomes.head? = some .media
        then { d with outcomes := d.outcomes.tail }
        else { d with
          sector := Function.update d.sector block (Bytes.ofList (u.iov.flatten.take 512))
          outcomes := d.outcomes.tail }, u') := by
  have hword := d.word
  obtain ⟨u', hm, he⟩ := lhdSector_write (d := d) hu.ready hu.resid.ge hrw block
  refine ⟨u', hm, ?_⟩
  have hio : lhdIo (d, u) = lhdSector block (d, u) := by
    rw [lhdIo_one (by omega) hu.offset hu.resid, if_neg (by omega)]
  by_cases hmedia : d.outcomes.head? = some .media
  · rw [Lhd.operate_media hb hmedia] at he
    have hl : (u.iov.flatten.take 512).length = 512 := by
      have := hu.ready.enough
      have := hu.resid
      rw [List.length_take]
      omega
    have hnext : lhdIo ({ d with outcomes := d.outcomes.tail }, u') =
        .ok () ({ d with outcomes := d.outcomes.tail }, u') := by
      have hres := hm.resid
      have hoff := hm.offset
      rw [hl] at hres hoff
      rw [hu.resid] at hres
      rw [hu.offset] at hoff
      refine lhdIo_none (block + 1) hb ?_ (by omega)
      rw [hoff]
      push_cast
      ring
    rw [if_pos hmedia]
    cases tries <;> simp only [sfsRetry, sfsTry, bind, Op.attempt, hio, he, hnext] <;> rfl
  · rw [Lhd.operate_ok hb hmedia] at he
    rw [if_neg hmedia]
    simp only [sfsRetry, sfsTry, bind, Op.attempt, hio, he]
    rfl

theorem lhdIo_read {block : ℕ} (hu : u.OneBlock block) (hrw : u.rw = .read) (hb : block < d.dBlocks) :
    (d.outcomes.head? = some .media ∧
      lhdIo (d, u) = .err .eio ({ d with outcomes := d.outcomes.tail }, u)) ∨
    d.outcomes.head? ≠ some .media ∧ ∃ u', u.Moved u' u.iov.flatten (d.sector block).toList ∧
      lhdIo (d, u) = .ok () ({ d with outcomes := d.outcomes.tail }, u') := by
  have hword := d.word
  rw [lhdIo_one (by omega) hu.offset hu.resid, if_neg (by omega)]
  have hsect := lhdSector_read (d := d) hu.ready hu.resid.ge hrw block
  by_cases hmedia : d.outcomes.head? = some .media
  · rw [Lhd.operate_media hb hmedia] at hsect
    obtain ⟨e, d', hop, he⟩ | ⟨data, d', u', hop, -⟩ := hsect
    · cases hop
      exact Or.inl ⟨hmedia, he⟩
    · exact absurd hop (by simp)
  · rw [Lhd.operate_ok hb hmedia] at hsect
    obtain ⟨e, d', hop, he⟩ | ⟨data, d', u', hop, hm, he⟩ := hsect
    · exact absurd hop (by simp)
    · cases hop
      exact Or.inr ⟨hmedia, u', hm, he⟩

theorem replicate_succ_prefix_iff {β : Type} {a : β} {n : ℕ} {l : List β} :
    List.replicate (n + 1) a <+: l ↔ l.head? = some a ∧ List.replicate n a <+: l.tail := by
  cases l with
  | nil => simp
  | cons b l => simp [List.replicate_succ, List.cons_prefix_cons, eq_comm]

theorem dropWhile_media {os : List LhdStat} (h : os.head? ≠ some .media) : os.dropWhile (· = .media) = os := by
  cases os with
  | nil => rfl
  | cons o os => exact List.dropWhile_cons_of_neg (by simpa using h)

/-- A read is repeated with the uio as it was, so it succeeds only when the bytes
of the sector were moved, and it fails only when every attempt did. -/
theorem sfsRetry_read {block : ℕ} (hu : u.OneBlock block) (hrw : u.rw = .read)
    (hb : block < d.dBlocks) (tries : ℕ) :
    (List.replicate (tries + 1) .media <+: d.outcomes ∧
      ∃ os, sfsRetry tries (d, u) = .err .eio ({ d with outcomes := os }, u)) ∨
      ¬ List.replicate (tries + 1) .media <+: d.outcomes ∧
      ∃ u', u.Moved u' u.iov.flatten (d.sector block).toList ∧
        sfsRetry tries (d, u) = .ok () ({ d with outcomes := (d.outcomes.dropWhile (· = .media)).tail }, u') := by
  rw [replicate_succ_prefix_iff]
  induction tries generalizing d with
  | zero =>
    obtain ⟨hmedia, he⟩ | ⟨hgood, u', hm, he⟩ := lhdIo_read hu hrw hb
    · refine Or.inl ⟨⟨hmedia, List.nil_prefix⟩, d.outcomes.tail, ?_⟩
      simp only [sfsRetry, sfsTry, bind, Op.attempt, he]
      rfl
    · refine Or.inr ⟨fun h => hgood h.1, u', hm, ?_⟩
      simp only [sfsRetry, sfsTry, bind, Op.attempt, he, dropWhile_media hgood]
      rfl
  | succ tries ih =>
    obtain ⟨hmedia, he⟩ | ⟨hgood, u', hm, he⟩ := lhdIo_read hu hrw hb
    · have hagain : sfsRetry (tries + 1) (d, u) =
          sfsRetry tries ({ d with outcomes := d.outcomes.tail }, u) := by
        simp only [sfsRetry, sfsTry, bind, Op.attempt, he]
      have hdrop : d.outcomes.dropWhile (· = .media) = d.outcomes.tail.dropWhile (· = .media) := by
        obtain ⟨os, hos⟩ := List.head?_eq_some_iff.mp hmedia
        simp [hos]
      have hnext := ih (d := { d with outcomes := d.outcomes.tail }) hb
      rw [← replicate_succ_prefix_iff] at hnext
      rw [hagain, hdrop]
      simpa [hmedia] using hnext
    · refine Or.inr ⟨fun h => hgood h.1, u', hm, ?_⟩
      simp only [sfsRetry, sfsTry, bind, Op.attempt, he, dropWhile_media hgood]
      rfl

/-- The buffer of a one-block transfer afterwards. -/
theorem kinit_memory {data l : Block} {block : ℕ} {rw : UioRw} {u' : Uio}
    (hm : (uioKinit data.toList (block * 512) rw).Moved u'
      (uioKinit data.toList (block * 512) rw).iov.flatten l.toList) :
    Bytes.ofList u'.memory = l := by
  have hrest : u'.iov.flatten = [] := by
    rw [hm.rest, Bytes.length_toList]
    simp [uioKinit]
  rw [Uio.memory, hm.passed, hrest, List.append_nil, uioKinit, List.nil_append, Bytes.ofList_toList]

/-- A read fails when all eleven attempts do. -/
theorem sfsReadblock_exact {block : ℕ} (hb : block < d.dBlocks) (data : Block) :
    (List.replicate 11 .media <+: d.outcomes ∧
      ∃ os, sfsReadblock block data d = .err .eio { d with outcomes := os }) ∨
      ¬ List.replicate 11 .media <+: d.outcomes ∧ sfsReadblock block data d =
        .ok (d.sector block) { d with outcomes := (d.outcomes.dropWhile (· = .media)).tail } := by
  obtain ⟨hmedia, os, he⟩ | ⟨hgood, u', hm, he⟩ :=
    sfsRetry_read (oneBlock_kinit data block .read) rfl hb 10
  · refine Or.inl ⟨hmedia, os, ?_⟩
    simp only [sfsReadblock, sfsBlock, sfsRwblock, he]
  · refine Or.inr ⟨hgood, ?_⟩
    simp only [sfsReadblock, sfsBlock, sfsRwblock, he, kinit_memory hm]

theorem sfsReadblock_media {block : ℕ} (hb : block < d.dBlocks) (data : Block) :
    (List.replicate 11 .media <+: d.outcomes ∧
      ∃ os, sfsReadblock block data d = .err .eio { d with outcomes := os }) ∨
      ¬ List.replicate 11 .media <+: d.outcomes ∧
      ∃ os, sfsReadblock block data d = .ok (d.sector block) { d with outcomes := os } :=
  (sfsReadblock_exact hb data).imp id fun h => ⟨h.1, _, h.2⟩

theorem sfsReadblock_cases {block : ℕ} (hb : block < d.dBlocks) (data : Block) :
    (∃ os, sfsReadblock block data d = .err .eio { d with outcomes := os }) ∨
      ∃ os, sfsReadblock block data d = .ok (d.sector block) { d with outcomes := os } :=
  (sfsReadblock_media hb data).imp And.right And.right

/-- One block on a disk without errors. -/
theorem sfsRwblock_wp {block : ℕ} (hu : u.OneBlock block) (hb : block < d.dBlocks) (hd : d.outcomes = [])
    {c : Prop} {Q : Unit → Lhd × Uio → Prop} {E : Errno → Lhd × Uio → Prop}
    (hread : u.rw = .read → ∀ u', u.Moved u' u.iov.flatten (d.sector block).toList → Q () (d, u'))
    (hwrite : u.rw = .write → ∀ u', u.Moved u' u.iov.flatten (u.iov.flatten.take 512) →
      Q () ({ d with sector := Function.update d.sector block (Bytes.ofList (u.iov.flatten.take 512)) }, u')) :
    sfsRwblock.wp c Q E (d, u) := by
  have hgood : d.outcomes.head? ≠ some .media := by simp [hd]
  have htail : d.outcomes.tail = d.outcomes := by rw [hd, List.tail_nil]
  unfold Op.wp sfsRwblock
  cases hrw : u.rw with
  | read =>
    obtain ⟨hmedia, -⟩ | ⟨-, u', hm, he⟩ := lhdIo_read hu hrw hb
    · exact absurd hmedia hgood
    · simp only [sfsRetry, sfsTry, bind, Op.attempt, he, htail]
      exact hread hrw u' hm
  | write =>
    obtain ⟨u', hm, he⟩ := sfsRetry_write (d := d) hu hrw hb 9
    rw [he, if_neg hgood, htail]
    exact hwrite hrw u' hm

theorem sfsReadblock_eq {block : ℕ} (hb : block < d.dBlocks) (hm : d.outcomes.head? ≠ some .media)
    (data : Block) : sfsReadblock block data d = .ok (d.sector block) { d with outcomes := d.outcomes.tail } := by
  obtain ⟨hmedia, -⟩ | ⟨-, u', hmoved, he⟩ := lhdIo_read (oneBlock_kinit data block .read) rfl hb
  · exact absurd hmedia hm
  · simp only [sfsReadblock, sfsBlock, sfsRwblock, sfsRetry, sfsTry, bind, Op.attempt, he]
    exact congrArg (Res.ok · _) (kinit_memory hmoved)

theorem sfsWriteblock_eq {block : ℕ} (hb : block < d.dBlocks) (data : Block) :
    sfsWriteblock block data d = .ok () (if d.outcomes.head? = some .media
      then { d with outcomes := d.outcomes.tail }
      else { d with sector := Function.update d.sector block data, outcomes := d.outcomes.tail }) := by
  obtain ⟨u', hm, he⟩ := sfsRetry_write (oneBlock_kinit data block .write) rfl hb 9
  have hall : Bytes.ofList ((uioKinit data.toList (block * 512) .write).iov.flatten.take 512) = data := by
    have : data.toList.take 512 = data.toList := List.take_of_length_le (Bytes.length_toList data).le
    simp only [uioKinit, List.flatten_cons, List.flatten_nil, List.append_nil, this, Bytes.ofList_toList]
  rw [hall] at he
  simp only [sfsWriteblock, sfsBlock, sfsRwblock, bind, he]
  rfl

theorem sfsBlock_out {block : ℕ} (hb : block < 4294967296) (hout : d.dBlocks ≤ block) (rw : UioRw)
    (data : Block) : sfsBlock rw block data d = .panic := by
  simp only [sfsBlock, sfsRwblock, sfsRetry_out (oneBlock_kinit data block rw) hb hout 10]

/-- When `sfs_writeblock` returns 0 the sector holds the buffer exactly if the
first attempt met no media error, or the sector held it before, or there is no such
block (and then nothing is returned at all); when `sfs_readblock` returns 0 the
buffer holds the sector, which is unchanged. -/
theorem sfs_block_transfer (d : Lhd) (block : UInt32) (data : Block) :
    ((∀ d', sfsWriteblock block.toNat data d = .ok () d' → d'.sector block.toNat = data) ↔
      d.outcomes.head? ≠ some .media ∨ d.sector block.toNat = data ∨ d.dBlocks ≤ block.toNat) ∧
    ∀ out d', sfsReadblock block.toNat data d = .ok out d' →
      out = d.sector block.toNat ∧ d'.sector = d.sector := by
  have hword : block.toNat < 4294967296 := block.toNat_lt
  rcases Nat.lt_or_ge block.toNat d.dBlocks with hb | hb
  · constructor
    · rw [sfsWriteblock_eq hb]
      by_cases hm : d.outcomes.head? = some .media
      · rw [if_pos hm]
        constructor
        · intro h
          exact Or.inr (Or.inl (h { d with outcomes := d.outcomes.tail } rfl))
        · rintro (h | h | h) d' hd'
          · exact absurd hm h
          · cases hd'
            exact h
          · omega
      · rw [if_neg hm]
        refine ⟨fun _ => Or.inl hm, fun _ d' hd' => ?_⟩
        cases hd'
        exact Function.update_self ..
    · intro out d' h
      obtain ⟨os, he⟩ | ⟨os, he⟩ := sfsReadblock_cases hb data
      · exact absurd (he.symm.trans h) (by simp)
      · cases he.symm.trans h
        exact ⟨rfl, rfl⟩
  · have hw : sfsWriteblock block.toNat data d = .panic := by
      simp only [sfsWriteblock, bind, sfsBlock_out hword hb]
    have hr : sfsReadblock block.toNat data d = .panic := sfsBlock_out hword hb .read data
    rw [hw, hr]
    simp [hb]

/-- A media error followed by success: `sfs_writeblock` returns 0 and the sector
is still blank. -/
theorem sfs_write_lost :
    ∃ d', sfsWriteblock 0 (fun _ => 1) ⟨1, by decide, fun _ => Bytes.zero, [.media]⟩ = .ok () d' ∧
      d'.sector 0 ≠ fun _ => 1 := by
  refine ⟨_, sfsWriteblock_eq (by decide) _, fun h => ?_⟩
  exact absurd (congrFun h 0) (by decide)

end Os161
