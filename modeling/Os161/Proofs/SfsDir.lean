import Os161.Proofs.Names

/-! Reading and writing the slots of the directory of a mounted volume. -/

namespace Os161

open Op

namespace Vol

variable {V V' V'' : Vol} {P : List ℕ} {k : ℕ} {e : List UInt8}

/-- The inodes stay the same when the entries that come and go name inodes that
remain. -/
theorem inode_of_slots (hl : V'.loaded = V.loaded)
    (hnew : ∀ l < V'.nslots, sfdIno (V'.slot l) ≠ 0 → V.Inode (sfdIno (V'.slot l)))
    (hold : ∀ l < V.nslots, sfdIno (V.slot l) ≠ 0 → V'.Inode (sfdIno (V.slot l))) (j : ℕ) :
    V'.Inode j ↔ V.Inode j := by
  constructor
  · rintro (h | h | ⟨l, hl', h0, h⟩)
    · exact Or.inl h
    · exact Or.inr (Or.inl (hl ▸ h))
    · exact h ▸ hnew l hl' (h.symm ▸ h0)
  · rintro (h | h | ⟨l, hl', h0, h⟩)
    · exact Or.inl h
    · exact Or.inr (Or.inl (hl.symm ▸ h))
    · exact h ▸ hold l hl' (h.symm ▸ h0)

theorem inode_slot {l : ℕ} (hl : l < V.nslots) (h0 : sfdIno (V.slot l) ≠ 0) : V.Inode (sfdIno (V.slot l)) :=
  Or.inr (Or.inr ⟨l, hl, h0, rfl⟩)

/-- A slot is 64 bytes of a block of the directory. -/
theorem slot_splice (he : e.length = 64)
    (hdata : ∀ fb < 143, V'.data 1 fb = if fb = k / 8 then (V.data 1 fb).splice (k % 8 * 64) e else V.data 1 fb)
    {l : ℕ} (hl : l / 8 < 143) : V'.slot l = if l = k then e else V.slot l := by
  unfold slot
  rw [hdata _ hl]
  by_cases hlk : l = k
  · subst hlk
    rw [if_pos rfl, if_pos rfl]
    have := Bytes.slice_splice_same (V.data 1 (l / 8)) (o := l % 8 * 64) (l := e) (by omega)
    rwa [he] at this
  · rw [if_neg hlk]
    split_ifs with hfb
    · rw [Bytes.slice_splice_of_disjoint]
      omega
    · rfl

/-- What is written stays within the inodes, and so does what is erased. -/
structure SlotOk (V : Vol) (k : ℕ) (e : List UInt8) : Prop where
  length : e.length = 64
  le : k ≤ V.nslots
  new : sfdIno e ≠ 0 → V.loaded (sfdIno e)
  old : k < V.nslots → sfdIno (V.slot k) ≠ 0 → V.loaded (sfdIno (V.slot k))

/-- The bytes of slot `k` are `e` afterwards; the size is as before. -/
structure SlotWritten (V V' : Vol) (k : ℕ) (e : List UInt8) : Prop where
  nblocks : V'.nblocks = V.nblocks
  loaded : V'.loaded = V.loaded
  inode : ∀ j, V'.Inode j ↔ V.Inode j
  block : ∀ j, V.Inode j → V'.block j = V.block j
  data : ∀ j, V.Inode j → j ≠ 1 → ∀ fb < 143, V'.data j fb = V.data j fb
  slot : ∀ l, l / 8 < 143 → V'.slot l = if l = k then e else V.slot l

/-- The block of the directory is written, in the slots that it has. -/
theorem Struct.writeSlot (h : V.Struct P) (hok : V.SlotOk k e) (hfb : k / 8 < 143)
    (h0 : V.map 1 (k / 8) ≠ 0)
    (hw : V.Wrote V' (V.map 1 (k / 8)) ((V.data 1 (k / 8)).splice (k % 8 * 64) e))
    (hu : V'.used = V.used) : V'.Struct P ∧ V.SlotWritten V' k e := by
  obtain ⟨hinode, -, -, hdata⟩ := h.wrote_data V.inode_root hfb h0 hw
  have hslot (l : ℕ) (hl : l / 8 < 143) : V'.slot l = if l = k then e else V.slot l := by
    refine slot_splice hok.length (fun fb hfb' => ?_) hl
    rw [hdata 1 V.inode_root fb hfb']
    simp only [true_and]
    by_cases hk : fb = k / 8
    · rw [if_pos hk, if_pos hk, hk]
    · rw [if_neg hk, if_neg hk]
  have hn : V'.nslots = V.nslots := nslots_congr (by rw [hinode 1 V.inode_root])
  have hin : ∀ j, V'.Inode j ↔ V.Inode j := by
    apply inode_of_slots hw.loaded
    · intro l hl hl0
      rw [hn] at hl
      rw [hslot l (slot_lt h.dirSize hl)] at hl0 ⊢
      by_cases hlk : l = k
      · rw [if_pos hlk] at hl0 ⊢
        exact Or.inr (Or.inl (hok.new hl0))
      · rw [if_neg hlk] at hl0 ⊢
        exact inode_slot hl hl0
    · intro l hl hl0
      by_cases hlk : l = k
      · refine Or.inr (Or.inl ?_)
        rw [hw.loaded, hlk]
        exact hok.old (hlk ▸ hl) (hlk ▸ hl0)
      · have hs := hslot l (slot_lt h.dirSize hl)
        rw [if_neg hlk] at hs
        rw [← hs] at hl0 ⊢
        exact inode_slot (hn ▸ hl) hl0
  refine ⟨(h.writeData V.inode_root hfb h0 hw hu hin).1, hw.nblocks, hw.loaded, hin, hinode,
    fun j hj hj1 fb hfb' => ?_, hslot⟩
  rw [hdata j hj fb hfb', if_neg fun he => hj1 he.1]

theorem SlotWritten.nslots (h : V.SlotWritten V' k e) : V'.nslots = V.nslots :=
  nslots_congr (by rw [h.block 1 V.inode_root])

theorem SlotWritten.setSlot (h : V.SlotWritten V' k e) (hV : V.Struct P) (hk : k < V.nslots)
    (haligned : (V.block 1).sfiSize % 64 = 0) : V.SetSlot V' k e := by
  have hroot := h.block 1 V.inode_root
  refine ⟨h.nblocks, h.loaded, h.inode, by rw [hroot], by rw [hroot], by rw [hroot, haligned], ?_,
    fun l hl => h.slot l ?_, fun j hj _ => ?_, h.data⟩
  · rw [h.nslots]
    omega
  · exact slot_lt hV.dirSize (h.nslots ▸ hl)
  · rw [h.block j hj]
    exact .refl _

/-- The slot is there afterwards. -/
theorem Same.setSlot (h : V.Same V') (hV : V.Struct P) (hk : k ≤ V.nslots) (hs : V'.SetSlot V'' k e) :
    V.SetSlot V'' k e := by
  have hroot := h.head 1 V.inode_root
  have hn : V'.nslots = V.nslots := nslots_congr hroot.size
  refine ⟨hs.nblocks.trans h.nblocks, hs.loaded.trans h.loaded, fun j => (hs.inode j).trans (h.inode j),
    hs.type.trans hroot.type, hs.linkcount.trans hroot.linkcount, hs.aligned, by rw [hs.nslots, hn],
    fun l hl => ?_, fun j hj hj1 => ?_, fun j hj hj1 fb hfb => ?_⟩
  · rw [hs.slot l hl]
    split_ifs with hlk
    · rfl
    · refine slot_congr (h.data 1 V.inode_root _ (slot_lt hV.dirSize ?_))
      rw [hs.nslots, hn] at hl
      omega
  · exact (h.head j hj).trans (hs.head j ((h.inode j).mpr hj) hj1)
  · rw [hs.data j ((h.inode j).mpr hj) hj1 fb hfb, h.data j hj fb hfb]

theorem SlotOk.same (hok : V.SlotOk k e) (hV : V.Struct P) (h : V.Same V') : V'.SlotOk k e := by
  have hn : V'.nslots = V.nslots := nslots_congr (h.head 1 V.inode_root).size
  refine ⟨hok.length, hn ▸ hok.le, fun h0 => h.loaded ▸ hok.new h0, fun hk h0 => ?_⟩
  rw [hn] at hk
  rw [slot_congr (h.data 1 V.inode_root _ (slot_lt hV.dirSize hk))] at h0 ⊢
  rw [h.loaded]
  exact hok.old hk h0

/-- The directory grows by the slot behind its end. -/
theorem Struct.growDir (h : V.Struct P) (hk : V.nslots = k)
    (hnew : sfdIno (V.slot k) ≠ 0 → V.loaded (sfdIno (V.slot k))) (hfb : k / 8 < 143)
    (hw : V.Wrote V' 1 ((V.block 1).setSfiSize (k * 64 + 64))) (hu : V'.used = V.used) :
    V'.Struct P ∧ V.SetHead V' 1 ((V.block 1).setSfiSize (k * 64 + 64)) := by
  have hx := Bytes.samePointers_setNum (b := V.block 1) (w := 4) (o := 0) (by omega) (k * 64 + 64)
  have hsize : (V'.block 1).sfiSize = k * 64 + 64 := by
    rw [hw.self, Bytes.sfiSize_setSfiSize]
    omega
  have hn : V'.nslots = k + 1 := by
    rw [nslots, hsize]
    omega
  have hdata := (h.wrote_head V.inode_root hw hx).2.2 1 V.inode_root
  have hslot (l : ℕ) (hl : l < k + 1) : V'.slot l = V.slot l := slot_congr (hdata _ (by omega))
  have hin : ∀ j, V'.Inode j ↔ V.Inode j := by
    apply inode_of_slots hw.loaded
    · intro l hl hl0
      rw [hslot l (by omega)] at hl0 ⊢
      by_cases hlk : l = k
      · subst hlk
        exact Or.inr (Or.inl (hnew hl0))
      · exact inode_slot (by omega) hl0
    · intro l hl hl0
      rw [← hslot l (by omega)] at hl0 ⊢
      exact inode_slot (by omega) hl0
  exact h.setHead V.inode_root hw hx hu hin (by rw [hsize]; omega)

theorem SlotWritten.grow (h : V.SlotWritten V' k e) (hk : V.nslots = k) (hfb : k / 8 < 143)
    (hset : V'.SetHead V'' 1 ((V'.block 1).setSfiSize (k * 64 + 64))) : V.SetSlot V'' k e := by
  have hroot := h.block 1 V.inode_root
  have hsize : (V''.block 1).sfiSize = k * 64 + 64 := by
    rw [hset.self, Bytes.sfiSize_setSfiSize]
    omega
  have hn : V''.nslots = k + 1 := by
    rw [Vol.nslots, hsize]
    omega
  refine ⟨hset.nblocks.trans h.nblocks, hset.loaded.trans h.loaded, fun j => (hset.inode j).trans (h.inode j),
    ?_, ?_, by rw [hsize]; omega, ?_, fun l hl => ?_, fun j hj hj1 => ?_, fun j hj hj1 fb hfb' => ?_⟩
  · rw [hset.self, Bytes.sfiType_setSfiSize, hroot]
  · rw [hset.self, Bytes.sfiLinkcount_setSfiSize, hroot]
  · rw [hn]
    omega
  · have hl' : l / 8 < 143 := by omega
    rw [slot_congr (hset.data 1 V'.inode_root _ hl'), h.slot l hl']
  · rw [hset.head j ((h.inode j).mpr hj) hj1, h.block j hj]
    exact .refl _
  · rw [hset.data j ((h.inode j).mpr hj) fb hfb', h.data j hj hj1 fb hfb']

end Vol

variable {s t : Sfs} {P : List ℕ} {δ : ℕ → ℤ} {i k : ℕ} {e : List UInt8} {c D : Prop} {name : CStr}

/-- The invariant of a mounted volume, with `P` and `δ` for what an operation in
progress has not put in order yet. -/
structure Sfs.Inv (D : Prop) (s : Sfs) (P : List ℕ) (δ : ℕ → ℤ) : Prop where
  sound : s.Sound D P
  dir : s.vol.Dir δ

theorem Sfs.Inv.keeps (h : s.Inv D P δ) (ht : t.Sound D P) (hk : s.Keeps t) : t.Inv D P δ :=
  ⟨ht, h.dir.same h.sound.struct hk.vol⟩

/-! ### Reading -/

theorem length_noDirentry : noDirentry.length = 64 := List.length_replicate

/-- What is read or written through a mapped block is the data of the file. -/
theorem Sfs.Sound.sector_map (h : s.Sound D P) {fb : ℕ} (hi : s.vol.Inode i) (hfb : fb < 143)
    (h0 : s.vol.map i fb ≠ 0) : s.dev.sector (s.vol.map i fb) = s.vol.data i fb := by
  rw [Vol.data, if_neg h0, Sfs.block_of_not_loaded (h.not_loaded_map hi hfb h0)]

theorem sfsReaddir_wp (h : s.Sound D P) (hl : s.vol.loaded 1) (hk : k < s.vol.nslots)
    {Q : List UInt8 → Sfs → Prop} {E : Errno → Sfs → Prop} (hQ : Q (s.vol.slot k) s) :
    (sfsReaddir 1 k).wp c Q E s := by
  have hi := s.vol.inode_root
  have hfb := Vol.slot_lt h.struct.dirSize hk
  have hpos : k * 64 % 4294967296 = k * 64 := by omega
  have hblock : k * 64 / 512 = k / 8 := by omega
  have hoff : k * 64 % 512 = k % 8 * 64 := by omega
  unfold sfsReaddir sfsMetaio
  simp only [hpos, hblock, hoff, length_noDirentry, wp_bind, reduceCtorEq, decide_false]
  refine sfsBmap_wp h hl (fun _ => ?_) fun hge => absurd hge (by omega)
  rw [wp_ite]
  unfold Vol.slot at hQ
  refine ⟨fun h0 => ?_, fun h0 => ?_⟩
  · rw [wp_bind, wp_kassert_of rfl, wp_pure, ← Bytes.slice_zero_eq (k % 8 * 64) 64]
    rwa [Vol.data, if_pos h0] at hQ
  · rw [wp_bind, h.mounted.readblock_wp (h.struct.mapBound 1 hi _ hfb), wp_pure, h.sector_map hi hfb h0]
    exact hQ

theorem sfsDirNentries_wp (h : s.Inv D P δ) (hl : s.vol.loaded 1) {Q : ℕ → Sfs → Prop}
    {E : Errno → Sfs → Prop} (hQ : Q s.vol.nslots s) : (sfsDirNentries 1).wp c Q E s := by
  unfold sfsDirNentries
  rw [wp_bind]
  refine getVnode_wp hl fun v _ _ hv => ?_
  have htype : v.i.sfiType = sfsTypeDir := by rw [hv]; exact h.dir.rootType
  have haligned : v.i.sfiSize % 64 = 0 := by rw [hv]; exact h.dir.aligned
  simp only [wp_bind, wp_kassert_of htype, wp_kassert_of haligned, wp_pure, hv]
  exact hQ

/-- What the scan of the first `n` slots has found. -/
structure Found.Right (f : Found) (V : Vol) (name : CStr) (n : ℕ) : Prop where
  hit : ∀ i k, f.hit = some (i, k) → k < n ∧ sfdIno (V.slot k) = i ∧ i ≠ 0 ∧ sfdName (V.slot k) = name.chars
  miss : f.hit = none → ∀ k < n, sfdIno (V.slot k) ≠ 0 → sfdName (V.slot k) ≠ name.chars
  empty : ∀ k, f.emptyslot = some k → k < n ∧ sfdIno (V.slot k) = 0
  noempty : f.emptyslot = none → ∀ k < n, sfdIno (V.slot k) ≠ 0

/-- A scan of all slots finds exactly the binding of the name. -/
theorem Found.Right.hit_iff {f : Found} {V : Vol} (hf : f.Right V name V.nslots) (hV : V.Dir δ) :
    f.hit = some (i, k) ↔ V.Entry name.chars i k := by
  constructor
  · intro hhit
    obtain ⟨hk, hi, hi0, hname⟩ := hf.hit i k hhit
    exact ⟨hk, hi0, hi, hname⟩
  · intro hent
    cases hhit : f.hit with
    | none => exact absurd hent.2.2.2 (hf.miss hhit k hent.1 (hent.2.2.1.symm ▸ hent.2.1))
    | some x =>
      obtain ⟨hk, hi, hi0, hname⟩ := hf.hit x.1 x.2 hhit
      have hkx : k = x.2 := hV.distinct hent ⟨hk, hi0, hi, hname⟩
      have hix : i = x.1 := by rw [← hent.2.2.1, hkx, hi]
      rw [hkx, hix]

theorem Found.Right.miss_iff {f : Found} {V : Vol} (hf : f.Right V name V.nslots) :
    f.hit = none ↔ V.names name.chars = none := by
  rw [Vol.names_eq_none]
  constructor
  · rintro hhit i k ⟨hk, hi0, rfl, hname⟩
    exact hf.miss hhit k hk hi0 hname
  · intro hno
    cases hhit : f.hit with
    | none => rfl
    | some x =>
      obtain ⟨hk, hi, hi0, hname⟩ := hf.hit x.1 x.2 hhit
      exact absurd ⟨hk, hi0, hi, hname⟩ (hno x.1 x.2)

/-- What the scan makes of the entry in slot `k`. -/
theorem findSlot_tail (h : s.Inv D P δ) {f : Found} (hk : k < s.vol.nslots) (hf : f.Right s.vol name k)
    {E : Errno → Sfs → Prop} :
    (if sfdIno (s.vol.slot k) = 0 then pure { f with emptyslot := some k }
      else if sfdName (s.vol.slot k) = name.chars then do
        Op.kassert (f.hit = none)
        pure { f with hit := some (sfdIno (s.vol.slot k), k) }
      else pure f : SfsM Found).wp c
      (fun f' t => t = s ∧ f'.Right s.vol name (k + 1) ∧
        f'.emptyslot = if sfdIno (s.vol.slot k) = 0 then some k else f.emptyslot) E s := by
  have hcase {p : ℕ → Prop} (hp : ∀ l < k, p l) (hpk : p k) (l : ℕ) (hl : l < k + 1) : p l := by
    rcases Nat.lt_succ_iff_lt_or_eq.mp hl with hl | rfl
    · exact hp l hl
    · exact hpk
  have hhit {i l : ℕ} (hl : f.hit = some (i, l)) :
      l < k + 1 ∧ sfdIno (s.vol.slot l) = i ∧ i ≠ 0 ∧ sfdName (s.vol.slot l) = name.chars := by
    obtain ⟨hlt, hrest⟩ := hf.hit i l hl
    exact ⟨by omega, hrest⟩
  have hempty {l : ℕ} (hl : f.emptyslot = some l) : l < k + 1 ∧ sfdIno (s.vol.slot l) = 0 := by
    obtain ⟨hlt, hzero⟩ := hf.empty l hl
    exact ⟨by omega, hzero⟩
  rw [wp_ite]
  constructor
  · intro h0
    rw [wp_pure, if_pos h0]
    refine ⟨rfl, ⟨fun i l => hhit, fun hmiss => hcase (hf.miss hmiss) fun hne => absurd h0 hne, fun l hl => ?_, (by simp)⟩,
      rfl⟩
    cases hl
    exact ⟨by omega, h0⟩
  · intro h0
    rw [if_neg h0, wp_ite]
    constructor
    · intro hname
      -- the duplicate-name assertion: an earlier hit would have the same name
      have hnone : f.hit = none := by
        by_contra hsome
        obtain ⟨⟨i, l⟩, hl⟩ := Option.ne_none_iff_exists'.mp hsome
        obtain ⟨hlt, hi, hi0, hn⟩ := hf.hit i l hl
        have := h.dir.names l (by omega) k hk (hi.symm ▸ hi0) h0 (hn.trans hname.symm)
        omega
      rw [wp_bind, wp_kassert_of hnone, wp_pure]
      refine ⟨rfl, ⟨fun i l hl => ?_, (by simp), fun l => hempty, fun hl => hcase (hf.noempty hl) h0⟩, rfl⟩
      cases hl
      exact ⟨by omega, rfl, h0, hname⟩
    · intro hname
      rw [wp_pure]
      exact ⟨rfl, ⟨fun i l => hhit, fun hmiss => hcase (hf.miss hmiss) fun _ => hname, fun l => hempty,
        fun hl => hcase (hf.noempty hl) h0⟩, rfl⟩

theorem sfsFindSlot_wp (h : s.Inv D P δ) (hl : s.vol.loaded 1) {f : Found} (hk : k < s.vol.nslots)
    (hf : f.Right s.vol name k) {E : Errno → Sfs → Prop} :
    (sfsFindSlot 1 name f k).wp c (fun f' t => t = s ∧ f'.Right s.vol name (k + 1)) E s := by
  unfold sfsFindSlot
  rw [wp_bind]
  apply sfsReaddir_wp h.sound hl hk
  apply (findSlot_tail h hk hf).mono
  · intro f' t hf'
    exact ⟨hf'.1, hf'.2.1⟩
  · intro e t he
    exact he

/-- `sfs_dir_findname` finds a name exactly if an entry has it. -/
theorem sfsDirFindname_wp (h : s.Inv D P δ) (hl : s.vol.loaded 1) {Q : Found → Sfs → Prop}
    {E : Errno → Sfs → Prop} (hQ : ∀ f, Found.Right f s.vol name s.vol.nslots → Q f s) :
    (sfsDirFindname 1 name).wp c Q E s := by
  unfold sfsDirFindname
  rw [wp_bind]
  refine sfsDirNentries_wp h hl ?_
  apply wp_foldlM_range (fun k f t => t = s ∧ f.Right s.vol name k)
  · rintro k hk f t ⟨rfl, hf⟩
    exact sfsFindSlot_wp h hl hk hf
  · rintro f t ⟨rfl, hf⟩
    exact hQ f hf
  · exact ⟨rfl, (by simp), fun _ _ hk => absurd hk (by omega), (by simp), fun _ _ hk => absurd hk (by omega)⟩

/-! ### Writing -/

/-- `sfs_writedir` puts the entry into the slot; if it fails, for lack of a block,
nothing has changed. -/
theorem sfsWritedir_wp (h : s.Inv D P δ) (hl : s.vol.loaded 1) (hok : s.vol.SlotOk k e)
    {Q : Unit → Sfs → Prop} {E : Errno → Sfs → Prop}
    (hQ : ∀ t, t.Sound D P → t.table = s.table → s.vol.SetSlot t.vol k e → Q () t)
    (hE : ∀ err t, t.Sound D P → s.Keeps t → s.BmapError t 1 (k / 8) err → E err t) :
    (sfsWritedir 1 k e).wp c Q E s := by
  have hsize := h.sound.struct.dirSize
  have hle := hok.le
  have hn : s.vol.nslots = (s.vol.block 1).sfiSize / 64 := rfl
  have hpos : k * 64 % 4294967296 = k * 64 := by omega
  have hblock : k * 64 / 512 = k / 8 := by omega
  have hoff : k * 64 % 512 = k % 8 * 64 := by omega
  unfold sfsWritedir sfsMetaio
  simp only [hpos, hblock, hoff, hok.length, wp_bind, decide_true]
  refine sfsBmap_alloc_wp h.sound hl (fun t ht hkeeps hfb h0 => ?_) hE
  have hlt := hkeeps.loaded hl
  have hit := t.vol.inode_root
  have hnot := ht.not_loaded_map hit hfb h0
  have hbound := ht.struct.mapBound 1 hit _ hfb
  rw [if_neg h0, wp_bind, ht.mounted.readblock_wp hbound, ht.sector_map hit hfb h0]
  simp only [wp_bind]
  rw [ht.mounted.writeblock_wp hbound]
  have hok' := hok.same h.sound.struct hkeeps.vol
  have hw := Sfs.vol_poke ((t.vol.data 1 (k / 8)).splice (k % 8 * 64) e) hnot
  obtain ⟨hstruct, hwritten⟩ := ht.struct.writeSlot hok' hfb h0 hw rfl
  set t₁ := t.poke (t.vol.map 1 (k / 8)) ((t.vol.data 1 (k / 8)).splice (k % 8 * 64) e)
  have hm₁ : t₁.Mounted D := ht.mounted.poke _ hnot (ht.struct.clear_map hit hfb h0)
  have hlt₁ : t₁.vol.loaded 1 := hlt
  have hrootsize := (hkeeps.vol.head 1 s.vol.inode_root).size
  have hn' : t.vol.nslots = s.vol.nslots := Vol.nslots_congr hrootsize
  have haligned := h.dir.aligned
  refine getVnode_wp hlt₁ fun v _ _ hv => ?_
  rw [hv, hwritten.block 1 hit, hrootsize, wp_ite]
  refine ⟨fun hgrow => ?_, fun hgrow => ?_⟩
  · have hk : t.vol.nslots = k := by omega
    have hself : t₁.vol.slot k = e := by rw [hwritten.slot k hfb, if_pos rfl]
    have hsum : (k * 64 + 64) % 4294967296 = k * 64 + 64 := by omega
    rw [wp_bind, dirtyInode_wp, hsum, wp_pure, wp_pure]
    obtain ⟨hstruct₂, hset⟩ := hstruct.growDir (hwritten.nslots.trans hk) (by rw [hself]; exact hok'.new) hfb
      (Sfs.vol_dirtied (·.setSfiSize (k * 64 + 64)) hlt₁) rfl
    exact hQ _ ⟨hm₁.dirtied _, hstruct₂⟩ ((Sfs.table_dirtied _).trans hkeeps.table)
      (hkeeps.vol.setSlot h.sound.struct hok.le (hwritten.grow hk hfb hset))
  · rw [wp_pure]
    exact hQ t₁ ⟨hm₁, hstruct⟩ hkeeps.table (hkeeps.vol.setSlot h.sound.struct hok.le
      (hwritten.setSlot ht.struct (by omega) (by rw [hrootsize, haligned])))

/-- An entry for `i` was added in slot `k`, which was free. -/
structure Vol.Linked (V V' : Vol) (name : CStr) (i k : ℕ) : Prop where
  set : V.SetSlot V' k (mkDirentry i name.chars)
  le : k ≤ V.nslots
  free : k < V.nslots → sfdIno (V.slot k) = 0
  short : name.chars.length ≤ 59
  fresh : ∀ l < V.nslots, sfdIno (V.slot l) ≠ 0 → sfdName (V.slot l) ≠ name.chars

theorem Vol.Dir.link {V V' : Vol} (h : V.Dir 0) (hV : V.Struct P) (hi1 : i ≠ 1)
    (hword : i < 4294967296) (hl : V.Linked V' name i k) : V'.Dir (Pi.single i 1) := by
  have hino := sfdIno_mkDirentry hword name.chars
  have hname : sfdName (mkDirentry i name.chars) = name.chars := sfdName_mkDirentry hl.short
  refine h.setSlot hl.set hl.le (by rw [hino]; exact hi1) (fun _ l hln h0 => ?_) fun j hj _ => ?_
  · rw [hname]
    exact hl.fresh l hln h0
  · have hj0 := hV.inode_ne_zero hj
    have hold : ¬ (k < V.nslots ∧ sfdIno (V.slot k) = j) := fun hk => hj0 (by rw [← hk.2, hl.free hk.1])
    rw [hino, Pi.single_apply]
    by_cases hij : i = j
    · simp [hold, hij]
    · simp [hold, hij, Ne.symm hij]

theorem Vol.Dir.unlink {V V' : Vol} (h : V.Dir 0) (hV : V.Struct P) (hk : k < V.nslots)
    (hi : sfdIno (V.slot k) = i) (hs : V.SetSlot V' k noDirentry) : V'.Dir (Pi.single i (-1)) := by
  refine h.setSlot hs hk.le (by rw [sfdIno_noDirentry]; omega)
    (fun h0 => absurd sfdIno_noDirentry h0) fun j hj _ => ?_
  have hj0 := hV.inode_ne_zero hj
  rw [sfdIno_noDirentry, hi, Pi.single_apply]
  by_cases hij : i = j
  · simp [hk, hij, Ne.symm hj0]
  · simp [hij, Ne.symm hij, Ne.symm hj0]

theorem Vol.Linked.names_eq_none {V V' : Vol} (h : V.Linked V' name i k) : V.names name.chars = none := by
  rw [Vol.names_eq_none]
  rintro j l ⟨hl, hj0, rfl, hname⟩
  exact h.fresh l hl hj0 hname

/-- The map gets a binding for the new name. -/
theorem Vol.Linked.becomes {V V' : Vol} (h : V.Linked V' name i k) (hV : V.Dir 0) (hV' : V'.Dir δ) (hi0 : i ≠ 0)
    (hi : i < 4294967296) : V.Becomes V' (Function.update V.names name.chars (some i)) := by
  have hset := h.set.dirSet h.le
  exact ⟨hset.names_add hV hV' hi0 hi h.short h.free h.names_eq_none, hset.terminated_add hi h.short⟩

/-- The other names stay where they are. -/
theorem Vol.Linked.entry {V V' : Vol} {n : List UInt8} {j l : ℕ} (h : V.Linked V' name i k) (hl : V.Entry n j l) :
    V'.Entry n j l := by
  have hlk : l ≠ k := by
    rintro rfl
    exact hl.2.1 (hl.2.2.1.symm.trans (h.free hl.1))
  exact (h.set.dirSet h.le).entry.mpr (Or.inr ⟨hlk, hl⟩)

/-- `sfs_dir_link` adds one entry for a loaded file, or changes nothing. -/
theorem sfsDirLink_wp (h : s.Inv D P 0) (hl : s.vol.loaded 1) (hi : s.vol.loaded i) (hi1 : i ≠ 1)
    {Q : ℕ → Sfs → Prop} {E : Errno → Sfs → Prop}
    (hQ : ∀ k t, t.Inv D P (Pi.single i 1) → t.table = s.table → s.vol.Linked t.vol name i k → Q k t)
    (hE : ∀ e t, t.Inv D P 0 → s.Keeps t → s.LinkError t name e → E e t) : (sfsDirLink 1 name i).wp c Q E s := by
  have hin := Sfs.inode_of_loaded hi
  have hword : i < 4294967296 := (h.sound.struct.inodeBound i hin).trans h.sound.word
  unfold sfsDirLink
  rw [wp_bind]
  refine sfsDirFindname_wp h hl fun f hf => ?_
  cases hhit : f.hit with
  | some x =>
    refine hE _ s h (.refl s) (Or.inl ⟨rfl, fun hno => ?_⟩)
    rw [hf.miss_iff.mpr hno] at hhit
    exact absurd hhit (by simp)
  | none =>
    have hno := hf.miss_iff.mp hhit
    simp only [wp_ite, wp_fail]
    refine ⟨fun hlen => hE _ s h (.refl s) (Or.inr ⟨hno, Or.inl ⟨rfl, by omega⟩⟩), fun hlen => ?_⟩
    -- the slot is the last empty one, or the one behind the end
    have hwrite (k : ℕ) (hk : k ≤ s.vol.nslots) (hfree : k < s.vol.nslots → sfdIno (s.vol.slot k) = 0) :
        (sfsWritedir 1 k (mkDirentry i name.chars)).wp c (fun _ t => Q k t) E s := by
      have hok : s.vol.SlotOk k (mkDirentry i name.chars) :=
        ⟨length_mkDirentry (by omega), hk, fun _ => by rw [sfdIno_mkDirentry hword]; exact hi,
          fun hlt h0 => absurd (hfree hlt) h0⟩
      refine sfsWritedir_wp h hl hok (fun t ht htable hset => ?_) fun e t ht hkeeps herr => ?_
      · have hlinked : s.vol.Linked t.vol name i k := ⟨hset, hk, hfree, by omega, hf.miss hhit⟩
        exact hQ k t ⟨ht, h.dir.link h.sound.struct hi1 hword hlinked⟩ htable hlinked
      · refine hE e t (h.keeps ht hkeeps) hkeeps (Or.inr ⟨hno, Or.inr ?_⟩)
        rcases herr with ⟨he, -, hfull⟩ | ⟨he, hbig⟩
        · exact Or.inr ⟨he, hfull⟩
        · exact Or.inl ⟨he, by omega⟩
    cases hempty : f.emptyslot with
    | some k =>
      obtain ⟨hk, hzero⟩ := hf.empty k hempty
      simp only [wp_bind, wp_pure]
      exact hwrite k hk.le fun _ => hzero
    | none =>
      simp only [wp_bind, wp_pure]
      exact sfsDirNentries_wp h hl (hwrite _ le_rfl fun hlt => absurd hlt (lt_irrefl _))

/-- `sfs_dir_unlink` erases an entry; its block is there, so it cannot fail. -/
theorem sfsDirUnlink_wp (h : s.Inv D P 0) (hl : s.vol.loaded 1) {n : List UInt8} (hent : s.vol.Entry n i k)
    (hli : s.vol.loaded i) {Q : Unit → Sfs → Prop} {E : Errno → Sfs → Prop}
    (hQ : ∀ t, t.Inv D P (Pi.single i (-1)) → t.table = s.table → t.nblocks = s.nblocks →
      s.vol.Becomes t.vol (Function.update s.vol.names n none) → Q () t) :
    (sfsDirUnlink 1 k).wp c Q E s := by
  have hk := hent.1
  have hi0 := hent.2.1
  have hi := hent.2.2.1
  have hok : s.vol.SlotOk k noDirentry :=
    ⟨length_noDirentry, hk.le, fun h0 => absurd sfdIno_noDirentry h0, fun _ _ => by rw [hi]; exact hli⟩
  refine sfsWritedir_wp h hl hok (fun t ht htable hset => ?_) fun e t _ _ herr => ?_
  · have hdir := h.dir.unlink h.sound.struct hk hi hset
    have hset' := hset.dirSet hk.le
    exact hQ t ⟨ht, hdir⟩ htable hset.nblocks ⟨hset'.names_erase h.dir hdir hent, hset'.terminated_erase⟩
  · rcases herr with ⟨-, hzero, -⟩ | ⟨-, hbig⟩
    · refine absurd ?_ hi0
      rw [← hi, Vol.slot, Vol.data, if_pos hzero, Bytes.slice_zero_eq]
      exact sfdIno_noDirentry
    · have := Vol.slot_lt h.sound.struct.dirSize hk
      omega

end Os161
