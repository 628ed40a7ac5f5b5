import Os161.Spec.SfsckPasses
import Os161.Proofs.SfsckFreemap
import Os161.Proofs.Dinode

/-! `check_inode_blocks`: which pointers of an inode it clears. The size is rounded up in 32
bits, so that the largest sizes come out as an empty file and every block of it is freed. -/

namespace Os161

namespace Fsck

open Op

variable {s t : Fsck} {c : Prop} {E : FsckExit → Fsck → Prop} {sfi : Block} {isdir : Bool}

/-- What is left of the pointer to block `k` of a file of `fileblocks` blocks. -/
def livePointer (fileblocks k pointer : ℕ) : ℕ := if k < fileblocks then pointer else 0

theorem OnlyMarks.mapsCover (h : s.OnlyMarks t) (hmaps : s.MapsCover) : t.MapsCover := fun b hb => by
  rw [nblocks, h.sb] at hb
  exact h.inMaps.mpr (hmaps b hb)

theorem setbadness_onlyMarks {Q : Unit → Fsck → Prop} (code : ℕ) (hQ : ∀ t, s.OnlyMarks t → Q () t) :
    (setbadness code).wp c Q E s := hQ _ ⟨rfl, rfl, rfl⟩

/-- A pointer inside the volume is kept where it is 0 or before the end of the file. -/
theorem checkPointer_wp {ibs : Ibstate} {pointer : ℕ} (hmaps : s.MapsCover) (hvol : ibs.volblocks = s.nblocks)
    (hin : pointer < s.nblocks) {Q : Bool × Ibstate → Fsck → Prop}
    (hQ : ∀ keep n t, s.OnlyMarks t → (keep = true ↔ pointer = 0 ∨ ibs.curfileblock < ibs.fileblocks) →
      Q (keep, { ibs with pasteofcount := n }) t) : (checkPointer isdir ibs pointer).wp c Q E s := by
  unfold checkPointer
  rw [wp_ite]
  refine ⟨fun hout => absurd hin (by omega), fun _ => ?_⟩
  rw [wp_ite]
  constructor
  · intro hne
    rw [wp_ite]
    constructor
    · intro hlt
      rw [wp_bind]
      exact freemapBlockinuse_wp _ (hmaps _ hin) (hQ true _ _ (onlyMarks_markInuse _) (by simp [hlt]))
    · intro hge
      rw [wp_bind]
      refine setbadness_onlyMarks _ fun u hu => ?_
      rw [wp_bind]
      exact freemapBlockfree_wp (hu.inMaps.mpr (hmaps _ hin))
        (hQ false _ _ (hu.trans onlyMarks_markFree) (by simp [hne, hge]))
  · intro hzero
    exact hQ true _ _ (.refl s) (by simp [not_not.mp hzero])

/-- How a block of `n` pointers is read and set, and what is beside them. -/
structure Slots {β : Type} (n : ℕ) (get : Block → ℕ → ℕ) (put : Block → ℕ → ℕ → Block) (beside : Block → β) : Prop where
  get_put : ∀ {b : Block} {k l : ℕ}, k < n → get (put b k 0) l = if l = k then 0 else get b l
  beside_put : ∀ {b : Block} {k : ℕ}, k < n → beside (put b k 0) = beside b

/-- The fields of an inode but for the direct pointers. -/
structure Header where
  size : ℕ
  type : ℕ
  linkcount : ℕ

def headerOf (sfi : Block) : Header := ⟨sfi.sfiSize, sfi.sfiType, sfi.sfiLinkcount⟩

theorem headerOf_setSfiDirect {b : Block} {k v : ℕ} : headerOf (b.setSfiDirect k v) = headerOf b := by
  have h : ∀ w o, o + w ≤ 8 → (b.setNum 4 (8 + 4 * k) v).num w o = b.num w o := fun w o ho =>
    Bytes.num_setNum_of_disjoint b (by omega)
  rw [headerOf, headerOf, Bytes.setSfiDirect, Bytes.sfiSize, h 4 0 (by omega), Bytes.sfiType, h 2 4 (by omega),
    Bytes.sfiLinkcount, h 2 6 (by omega)]
  rfl

theorem headerOf_setSfiIndirect {b : Block} {v : ℕ} : headerOf (b.setSfiIndirect v) = headerOf b := by
  have h : ∀ w o, o + w ≤ 8 → (b.setNum 4 68 v).num w o = b.num w o := fun w o ho =>
    Bytes.num_setNum_of_disjoint b (by omega)
  rw [headerOf, headerOf, Bytes.setSfiIndirect, Bytes.sfiSize, h 4 0 (by omega), Bytes.sfiType, h 2 4 (by omega),
    Bytes.sfiLinkcount, h 2 6 (by omega)]
  rfl

theorem slots_direct : Slots 15 Bytes.sfiDirect Bytes.setSfiDirect fun b => (headerOf b, b.sfiIndirect) :=
  ⟨fun hk => Bytes.sfiDirect_setSfiDirect hk (by omega),
    fun hk => by rw [headerOf_setSfiDirect, Bytes.sfiIndirect_setSfiDirect hk]⟩

theorem slots_entries : Slots 128 Bytes.idEntry Bytes.setIdEntry fun _ => () :=
  ⟨fun hk => Bytes.idEntry_setIdEntry hk (by omega), fun _ => rfl⟩

section Slots

variable {β : Type} {n : ℕ} {get : Block → ℕ → ℕ} {put : Block → ℕ → ℕ → Block} {beside : Block → β}

/-- The first `m` pointers of `b` have been gone through. -/
structure Checked (get : Block → ℕ → ℕ) (beside : Block → β) (b : Block) (ibs : Ibstate) (m : ℕ) (p : Pointers) : Prop where
  done : ∀ k < m, get p.block k = livePointer ibs.fileblocks (ibs.curfileblock + k) (get b k)
  left : ∀ k, m ≤ k → get p.block k = get b k
  beside : beside p.block = beside b
  changed : p.changed = false → p.block = b
  ibs : p.ibs = { ibs with curfileblock := ibs.curfileblock + m, pasteofcount := p.ibs.pasteofcount }

theorem livePointer_of_keep {fileblocks k pointer : ℕ} (h : pointer = 0 ∨ k < fileblocks) :
    livePointer fileblocks k pointer = pointer := by
  unfold livePointer
  rcases h with h | h
  · simp [h]
  · rw [if_pos h]

theorem Checked.step {b : Block} {ibs : Ibstate} {m : ℕ} {p : Pointers} (hslots : Slots n get put beside) (hm : m < n)
    (h : Checked get beside b ibs m p) {keep : Bool}
    (hkeep : keep = true ↔ get p.block m = 0 ∨ p.ibs.curfileblock < p.ibs.fileblocks) (ibs' : Ibstate)
    (hibs : ibs' = { p.ibs with curfileblock := p.ibs.curfileblock + 1, pasteofcount := ibs'.pasteofcount }) :
    Checked get beside b ibs (m + 1) (if keep = true then { p with ibs := ibs' } else ⟨put p.block m 0, true, ibs'⟩) := by
  have hpos : p.ibs.curfileblock = ibs.curfileblock + m ∧ p.ibs.fileblocks = ibs.fileblocks := by
    rw [h.ibs]
    exact ⟨rfl, rfl⟩
  have hnow : ibs' = { ibs with curfileblock := ibs.curfileblock + (m + 1), pasteofcount := ibs'.pasteofcount } := by
    rw [hibs, h.ibs]
    rfl
  rw [hpos.1, hpos.2, h.left m le_rfl] at hkeep
  by_cases hk : keep = true
  · rw [if_pos hk]
    refine ⟨fun k hlt => ?_, fun k hle => h.left k (by omega), h.beside, h.changed, hnow⟩
    by_cases hkm : k = m
    · rw [hkm, livePointer_of_keep (hkeep.mp hk)]
      exact h.left m le_rfl
    · exact h.done k (by omega)
  · rw [if_neg hk]
    have hgone := hk ∘ hkeep.mpr
    refine ⟨fun k hlt => ?_, fun k hle => ?_, (hslots.beside_put hm).trans h.beside, fun hch => absurd hch (by simp), hnow⟩
    · rw [hslots.get_put hm]
      by_cases hkm : k = m
      · rw [if_pos hkm, livePointer, if_neg (by rw [hkm]; exact fun hlive => hgone (Or.inr hlive))]
      · rw [if_neg hkm]
        exact h.done k (by omega)
    · rw [hslots.get_put hm, if_neg (by omega)]
      exact h.left k (by omega)

/-- All pointers of a block. -/
theorem checkSlots_wp (hslots : Slots n get put beside) (hmaps : s.MapsCover) {b : Block} {ibs : Ibstate}
    (hvol : ibs.volblocks = s.nblocks) (hin : ∀ k < n, get b k < s.nblocks) {Q : Pointers → Fsck → Prop}
    (hQ : ∀ p t, s.OnlyMarks t → Checked get beside b ibs n p → Q p t) :
    ((List.range n).foldlM (checkSlot get put isdir) ⟨b, false, ibs⟩).wp c Q E s := by
  apply wp_foldlM_range fun m p t => s.OnlyMarks t ∧ Checked get beside b ibs m p
  · intro m hm p t hI
    obtain ⟨hst, hchecked⟩ := hI
    have hnb : t.nblocks = s.nblocks := by rw [nblocks, hst.sb, nblocks]
    unfold checkSlot
    rw [wp_bind]
    refine checkPointer_wp (hst.mapsCover hmaps) ?_ ?_ fun keep k u htu hkeep => ?_
    · rw [hchecked.ibs, hnb]
      exact hvol
    · rw [hchecked.left m le_rfl, hnb]
      exact hin m hm
    · have hnext := hchecked.step hslots hm hkeep
        { p.ibs with curfileblock := p.ibs.curfileblock + 1, pasteofcount := k } rfl
      dsimp only
      rw [wp_ite]
      constructor
      · intro hk
        rw [if_pos hk] at hnext
        exact ⟨hst.trans htu, hnext⟩
      · intro hk
        rw [if_neg hk] at hnext
        exact ⟨hst.trans htu, hnext⟩
  · exact fun p t hI => hQ p t hI.1 hI.2
  · exact ⟨.refl s, fun k hk => absurd hk (Nat.not_lt_zero k), fun _ _ => rfl, rfl, fun _ => rfl, rfl⟩

end Slots

/-! ### The indirect block -/

theorem checkIndirectBlock_wp (hmaps : s.MapsCover) {ibs : Ibstate} {ientry : ℕ} (hvol : ibs.volblocks = s.nblocks)
    (hi : ientry < s.nblocks) (hin : ∀ j < 128, entryOf s.disk ientry j < s.nblocks) {Q : ℕ × Bool × Ibstate → Fsck → Prop}
    (hQ : ∀ r t, s.Readable ientry → r.1 = (if r.2.1 = true then 0 else ientry) →
      (∀ j < 128, entryOf t.disk r.1 j = livePointer ibs.fileblocks (ibs.curfileblock + j) (entryOf s.disk ientry j)) → Q r t)
    (hE : ∀ t, ¬ s.Readable ientry → E .io t) : (checkIndirectBlock isdir ibs ientry).wp c Q E s := by
  unfold checkIndirectBlock
  rw [wp_ite]
  constructor
  · intro hentry
    have hne : ientry ≠ 0 := by omega
    have hget : ∀ j, entryOf s.disk ientry j = (s.disk (diskSeek ientry)).idEntry j := fun j => if_neg hne
    rw [wp_bind]
    refine diskread_wp (fun hdisk => ?_) fun hdisk => hE s (by unfold Readable; omega)
    rw [wp_bind]
    refine freemapBlockinuse_wp _ (hmaps _ hi) ?_
    have hmark : s.OnlyMarks (s.markInuse ientry .iblock) := onlyMarks_markInuse _
    have hnb : (s.markInuse ientry .iblock).nblocks = s.nblocks := rfl
    rw [wp_bind]
    refine checkSlots_wp slots_entries (hmark.mapsCover hmaps) (hvol.trans hnb.symm)
      (fun k hk => by rw [hnb, ← hget]; exact hin k hk) fun p t hst hchecked => ?_
    have hall := hmark.trans hst
    have hdone : ∀ j < 128, p.block.idEntry j =
        livePointer ibs.fileblocks (ibs.curfileblock + j) (entryOf s.disk ientry j) := fun j hj => by
      rw [hget]
      exact hchecked.done j hj
    rw [wp_ite]
    constructor
    · intro hzero
      rw [List.all_eq_true] at hzero
      rw [wp_bind]
      refine setbadness_onlyMarks _ fun u htu => ?_
      rw [wp_bind]
      refine freemapBlockfree_wp ((hall.trans htu).inMaps.mpr (hmaps _ hi)) ?_
      refine hQ _ _ (Or.inr hdisk) rfl fun j hj => ?_
      rw [← hdone j hj, of_decide_eq_true (hzero j (List.mem_range.mpr hj))]
      rfl
    · intro _
      dsimp only
      rw [wp_ite]
      constructor
      · intro _
        rw [wp_bind]
        refine diskwrite_wp _ (hall.diskblocks ▸ hdisk) (hQ _ _ (Or.inr hdisk) rfl fun j hj => ?_)
        rw [← hdone j hj, entryOf, if_neg hne]
        simp only [Function.update_self]
      · intro hch
        refine hQ _ _ (Or.inr hdisk) rfl fun j hj => ?_
        rw [← hdone j hj, entryOf, if_neg hne, hchecked.changed (Bool.not_eq_true _ ▸ hch), hall.disk]
  · intro hentry
    have hzero : ientry = 0 := by omega
    subst hzero
    dsimp only
    rw [wp_ite]
    refine ⟨fun hout => absurd hout (by omega), fun _ => ?_⟩
    refine hQ _ _ (Or.inl rfl) rfl fun j _ => ?_
    simp [entryOf, livePointer]

/-! ### All blocks of an inode -/

variable (disk : ℕ → Block) {k : ℕ}

theorem filePointer_direct (hk : k < 15) : filePointer disk sfi k = sfi.sfiDirect k := if_pos hk

theorem filePointer_entry (hk : k < 128) : filePointer disk sfi (15 + k) = entryOf disk sfi.sfiIndirect k := by
  rw [filePointer, if_neg (by omega), if_pos (by omega), Nat.add_sub_cancel_left]

theorem filePointer_past (hk : 143 ≤ k) : filePointer disk sfi k = 0 := by
  rw [filePointer, if_neg (by omega), if_neg (by omega)]

theorem livePointer_zero (fileblocks k : ℕ) : livePointer fileblocks k 0 = 0 := by simp [livePointer]

/-- Each pointer is left or cleared according to the number of blocks that the size is
rounded up to. -/
theorem checkInodeBlocks_wp (hmaps : s.MapsCover) (hin : s.PointersInside sfi) {Q : Block × Bool → Fsck → Prop}
    (hQ : ∀ r t, s.Readable sfi.sfiIndirect → headerOf r.1 = headerOf sfi →
      (∀ k, filePointer t.disk r.1 k = livePointer (roundup sfi.sfiSize 512 / 512) k (filePointer s.disk sfi k)) → Q r t)
    (hE : ∀ t, ¬ s.Readable sfi.sfiIndirect → E .io t) : (checkInodeBlocks sfi isdir).wp c Q E s := by
  unfold checkInodeBlocks
  rw [wp_bind, wp_get, wp_bind]
  refine checkSlots_wp slots_direct hmaps rfl (fun k hk => filePointer_direct s.disk hk ▸ hin.data k) fun p t hst hchecked => ?_
  have hnb : t.nblocks = s.nblocks := by rw [nblocks, hst.sb, nblocks]
  have hreadable : ∀ ientry, t.Readable ientry ↔ s.Readable ientry := fun ientry => by
    rw [Readable, hst.diskblocks, Readable]
  obtain ⟨hheader, hindirect⟩ := Prod.mk.inj hchecked.beside
  rw [wp_bind, hindirect]
  refine checkIndirectBlock_wp (hst.mapsCover hmaps) (by rw [hchecked.ibs, hnb]) (hnb ▸ hin.indirect)
    (fun j hj => by rw [hnb, hst.disk, ← filePointer_entry s.disk hj]; exact hin.data _)
    (fun r u hread hentry hentries => ?_) fun u hread => hE u (mt (hreadable _).mpr hread)
  have hend : ∀ v : Fsck, v.disk = u.disk → Q (if r.2.1 = true then p.block.setSfiIndirect r.1 else p.block, p.changed || r.2.1) v := by
    intro v hv
    have hsfi : (if r.2.1 = true then p.block.setSfiIndirect r.1 else p.block).sfiIndirect = r.1 ∧
        headerOf (if r.2.1 = true then p.block.setSfiIndirect r.1 else p.block) = headerOf sfi ∧
        ∀ k < 15, (if r.2.1 = true then p.block.setSfiIndirect r.1 else p.block).sfiDirect k = p.block.sfiDirect k := by
      by_cases hch : r.2.1 = true
      · rw [if_pos hch] at hentry
        rw [if_pos hch, hentry]
        exact ⟨Bytes.sfiIndirect_setSfiIndirect (by omega), headerOf_setSfiIndirect.trans hheader,
          fun k hk => Bytes.sfiDirect_setSfiIndirect hk⟩
      · rw [if_neg hch] at hentry ⊢
        exact ⟨hindirect.trans hentry.symm, hheader, fun _ _ => rfl⟩
    refine hQ _ v ((hreadable _).mp hread) hsfi.2.1 fun k => ?_
    rcases Nat.lt_or_ge k 15 with hk | hk
    · rw [filePointer_direct _ hk, filePointer_direct _ hk, hsfi.2.2 k hk, hchecked.done k hk, Nat.zero_add]
    · rcases Nat.lt_or_ge k 143 with hk' | hk'
      · obtain ⟨j, rfl⟩ := Nat.exists_eq_add_of_le hk
        have hj : j < 128 := by omega
        rw [filePointer_entry _ hj, filePointer_entry _ hj, hsfi.1, hv, hentries j hj, hchecked.ibs, hst.disk]
      · rw [filePointer_past _ hk', filePointer_past _ hk', livePointer_zero]
  dsimp only
  rw [wp_ite]
  constructor
  · intro _
    rw [wp_bind]
    exact hend _ rfl
  · intro _
    exact hend _ rfl

/-! ### Sizes that wrap -/

theorem roundup_blocks (size : ℕ) : roundup size 512 / 512 = (size + 511) % 4294967296 / 512 := by
  unfold roundup
  omega

theorem fileblocks_lt_iff {size : ℕ} (hsize : size + 511 < 4294967296) : k < roundup size 512 / 512 ↔ k * 512 < size := by
  rw [roundup_blocks]
  omega

theorem fileblocks_wrapped {size : ℕ} (hsize : size < 4294967296) (hwrap : 4294967296 ≤ size + 511) :
    roundup size 512 / 512 = 0 := by
  rw [roundup_blocks]
  omega

theorem keepsLiveData_of_small (hmaps : s.MapsCover) (hin : s.PointersInside sfi) (hsize : sfi.sfiSize + 511 < 4294967296) :
    s.KeepsLiveData sfi isdir := by
  refine checkInodeBlocks_wp hmaps hin (fun r t _ _ hleft k hk _ => ?_) fun _ _ => rfl
  rw [hleft, livePointer_of_keep (Or.inr ((fileblocks_lt_iff hsize).mpr hk))]

/-- A block is lost: every pointer is past the end of a file of no blocks. -/
theorem not_keepsLiveData (hmaps : s.MapsCover) (hin : s.PointersInside sfi) (hwrap : 4294967296 ≤ sfi.sfiSize + 511)
    (hk : filePointer s.disk sfi k ≠ 0) (hread : s.Readable sfi.sfiIndirect) : ¬ s.KeepsLiveData sfi isdir := by
  intro hkeeps
  have hrun : (checkInodeBlocks sfi isdir).wp False (fun r t => filePointer t.disk r.1 k = 0) (fun _ _ => False) s := by
    refine checkInodeBlocks_wp hmaps hin (fun r t _ _ hleft => ?_) fun _ hnot => hnot hread
    have hsize : sfi.sfiSize < 4294967296 := Bytes.num_lt 4 sfi 0
    rw [hleft, fileblocks_wrapped hsize hwrap]
    rfl
  have hlive : k * 512 < sfi.sfiSize := by
    rcases Nat.lt_or_ge k 143 with h | h
    · omega
    · exact absurd (filePointer_past s.disk h) hk
  rcases (hkeeps.and hrun).cases with ⟨r, t, _, hkept, hlost⟩ | ⟨e, t, _, _, hfalse⟩ | ⟨_, hfalse⟩
  · exact hk ((hkept k hlive hk).symm.trans hlost)
  · exact hfalse
  · exact hfalse

/-- `check_inode_blocks` keeps the live blocks of a file unless its size wraps when it is
rounded up. -/
theorem live_data_kept_iff (s : Fsck) (sfi : Block) (isdir : Bool) (hmaps : s.MapsCover) (hin : s.PointersInside sfi) :
    s.KeepsLiveData sfi isdir ↔
      sfi.sfiSize + 511 < 4294967296 ∨ (∀ k, filePointer s.disk sfi k = 0) ∨ ¬ s.Readable sfi.sfiIndirect := by
  constructor
  · intro hkeeps
    by_contra hnot
    rw [not_or, not_or, not_forall, not_not] at hnot
    obtain ⟨hwrap, ⟨k, hk⟩, hread⟩ := hnot
    exact not_keepsLiveData hmaps hin (not_lt.mp hwrap) hk hread hkeeps
  · intro hcond
    rcases hcond with hsize | hnone | hread
    · exact keepsLiveData_of_small hmaps hin hsize
    · exact checkInodeBlocks_wp hmaps hin (fun _ _ _ _ _ k _ hk => absurd (hnone k) hk) fun _ _ => rfl
    · exact checkInodeBlocks_wp hmaps hin (fun _ _ hyes => absurd hyes hread) fun _ _ => rfl

/-- A file of the size `size` with one block. -/
def oneBlockFile (size : ℕ) : Block := (Bytes.zero.setSfiSize size).setSfiDirect 0 5

theorem sfiDirect_oneBlockFile (size : ℕ) : (oneBlockFile size).sfiDirect k = if k = 0 then 5 else 0 := by
  rw [oneBlockFile, Bytes.sfiDirect_setSfiDirect (by omega) (by omega)]
  congr 1
  rw [Bytes.sfiDirect, Bytes.setSfiSize, Bytes.num_setNum_of_disjoint _ (by omega), Bytes.num_zero]

theorem sfiIndirect_oneBlockFile (size : ℕ) : (oneBlockFile size).sfiIndirect = 0 := by
  rw [oneBlockFile, Bytes.sfiIndirect_setSfiDirect (by omega), Bytes.sfiIndirect, Bytes.setSfiSize,
    Bytes.num_setNum_of_disjoint _ (by omega), Bytes.num_zero]

theorem sfiSize_oneBlockFile {size : ℕ} (hsize : size < 4294967296) : (oneBlockFile size).sfiSize = size := by
  rw [oneBlockFile, Bytes.sfiSize, Bytes.setSfiDirect, Bytes.num_setNum_of_disjoint _ (by omega)]
  exact Bytes.sfiSize_setSfiSize hsize

theorem filePointer_oneBlockFile (size : ℕ) : filePointer disk (oneBlockFile size) k = if k = 0 then 5 else 0 := by
  unfold filePointer entryOf
  rw [sfiDirect_oneBlockFile, sfiIndirect_oneBlockFile, if_pos rfl]
  split_ifs <;> omega

theorem pointersInside_oneBlockFile (size : ℕ) : sixteenBlocks.PointersInside (oneBlockFile size) := by
  refine ⟨?_, fun k => ?_⟩
  · rw [sfiIndirect_oneBlockFile, nblocks_sixteenBlocks]
    omega
  · rw [filePointer_oneBlockFile, nblocks_sixteenBlocks]
    split_ifs <;> omega

theorem mapsCover_sixteenBlocks : sixteenBlocks.MapsCover := fun b hb => by
  have hnew := newMaps_sixteenBlocks
  rw [nblocks_sixteenBlocks] at hb
  unfold InMaps
  rw [hnew.inuse, hnew.tofree, nblocks_sixteenBlocks, List.length_replicate]
  unfold sfsFreemapblocks sfsFreemapbits
  omega

/-- A file of 2^32 - 1 bytes loses its first block. -/
theorem live_data_lost :
    sixteenBlocks.MapsCover ∧ sixteenBlocks.PointersInside (oneBlockFile 4294967295) ∧
      ¬ sixteenBlocks.KeepsLiveData (oneBlockFile 4294967295) false := by
  have hsize := sfiSize_oneBlockFile (show 4294967295 < 4294967296 by omega)
  have hfirst : filePointer sixteenBlocks.disk (oneBlockFile 4294967295) 0 ≠ 0 := by simp [filePointer_oneBlockFile]
  refine ⟨mapsCover_sixteenBlocks, pointersInside_oneBlockFile _, ?_⟩
  exact not_keepsLiveData mapsCover_sixteenBlocks (pointersInside_oneBlockFile _) (by omega) hfirst
    (Or.inl (sfiIndirect_oneBlockFile _))

/-- A file of 1000 bytes keeps it. -/
theorem live_data_kept_small : sixteenBlocks.KeepsLiveData (oneBlockFile 1000) false :=
  (live_data_kept_iff sixteenBlocks (oneBlockFile 1000) false mapsCover_sixteenBlocks (pointersInside_oneBlockFile _)).mpr
    (Or.inl (by rw [sfiSize_oneBlockFile (by omega)]; omega))

end Fsck

end Os161
