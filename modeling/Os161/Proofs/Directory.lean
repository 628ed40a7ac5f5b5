import Os161.Proofs.SfsTrunc

/-! The directory of a volume: its entries name files, with no name twice, and the
link count of a file is the number of entries that name it, up to the entry that an
operation has written or erased without having counted it yet. -/

namespace Os161

namespace Vol

variable {V V' : Vol} {P : List ℕ} {δ : ℕ → ℤ} {i j k fb : ℕ} {e : List UInt8}

/-- `δ` is what the number of entries is ahead of the link count. -/
structure Dir (V : Vol) (δ : ℕ → ℤ) : Prop where
  rootType : (V.block 1).sfiType = sfsTypeDir
  rootLinks : 0 < (V.block 1).sfiLinkcount
  aligned : (V.block 1).sfiSize % 64 = 0
  fileType : ∀ i, V.Inode i → i ≠ 1 → (V.block i).sfiType = sfsTypeFile
  noRoot : ∀ k < V.nslots, sfdIno (V.slot k) ≠ 1
  links : ∀ i, V.Inode i → i ≠ 1 → (V.links i : ℤ) = (V.block i).sfiLinkcount + δ i
  names : ∀ k < V.nslots, ∀ l < V.nslots, sfdIno (V.slot k) ≠ 0 → sfdIno (V.slot l) ≠ 0 →
    sfdName (V.slot k) = sfdName (V.slot l) → k = l

theorem nslots_congr (h : (V'.block 1).sfiSize = (V.block 1).sfiSize) : V'.nslots = V.nslots := by
  rw [nslots, nslots, h]

theorem links_congr (hn : V'.nslots = V.nslots) (hslot : ∀ k < V.nslots, V'.slot k = V.slot k) (i : ℕ) :
    V'.links i = V.links i := by
  unfold links
  rw [hn]
  apply List.countP_congr
  intro k hk
  rw [hslot k (List.mem_range.mp hk)]

/-- The directory reads the same. -/
structure SameDir (V V' : Vol) : Prop where
  nslots : V'.nslots = V.nslots
  slot : ∀ k < V.nslots, V'.slot k = V.slot k

theorem SameDir.refl (V : Vol) : V.SameDir V := ⟨rfl, fun _ _ => rfl⟩

theorem SameDir.trans {V'' : Vol} (h : V.SameDir V') (h' : V'.SameDir V'') : V.SameDir V'' :=
  ⟨h'.nslots.trans h.nslots, fun k hk => (h'.slot k (h.nslots.symm ▸ hk)).trans (h.slot k hk)⟩

theorem Same.sameDir (h : V.Same V') (hV : V.Struct P) : V.SameDir V' :=
  ⟨nslots_congr (h.head 1 V.inode_root).size, fun _ hk =>
    slot_congr (h.data 1 V.inode_root _ (slot_lt hV.dirSize hk))⟩

theorem SetHead.sameDir {x : Block} (h : V.SetHead V' i x) (hV : V.Struct P) (hi1 : i ≠ 1) : V.SameDir V' :=
  ⟨nslots_congr (by rw [h.head 1 V.inode_root (Ne.symm hi1)]), fun _ hk =>
    slot_congr (h.data 1 V.inode_root _ (slot_lt hV.dirSize hk))⟩

theorem Trunc.sameDir {blocklen size : ℕ} (h : V.Trunc V' i blocklen size) (hV : V.Struct P) (hi1 : i ≠ 1) :
    V.SameDir V' :=
  ⟨nslots_congr (h.head 1 V.inode_root (Ne.symm hi1)).size, fun _ hk =>
    slot_congr (h.data 1 V.inode_root _ (slot_lt hV.dirSize hk) fun he => hi1 he.1.symm)⟩

/-- The directory stays right when its own data does, and no other file changes its
type or link count. -/
theorem Dir.congr (h : V.Dir δ) (hroot : (V.block 1).SameHead (V'.block 1))
    (hslot : ∀ k < V.nslots, V'.slot k = V.slot k)
    (hfile : ∀ i, V'.Inode i → i ≠ 1 → V.Inode i ∧ (V'.block i).sfiType = (V.block i).sfiType ∧
      (V'.block i).sfiLinkcount = (V.block i).sfiLinkcount) : V'.Dir δ := by
  have hn : V'.nslots = V.nslots := nslots_congr hroot.size
  refine ⟨?_, ?_, ?_, fun i hi h1 => ?_, fun k hk => ?_, fun i hi h1 => ?_, fun k hk l hl => ?_⟩
  · rw [hroot.type]
    exact h.rootType
  · rw [hroot.linkcount]
    exact h.rootLinks
  · rw [hroot.size]
    exact h.aligned
  · obtain ⟨hi', htype, -⟩ := hfile i hi h1
    rw [htype]
    exact h.fileType i hi' h1
  · rw [hn] at hk
    rw [hslot k hk]
    exact h.noRoot k hk
  · obtain ⟨hi', -, hlinks⟩ := hfile i hi h1
    rw [links_congr hn hslot, hlinks]
    exact h.links i hi' h1
  · rw [hn] at hk hl
    rw [hslot k hk, hslot l hl]
    exact h.names k hk l hl

theorem Dir.same (h : V.Dir δ) (hV : V.Struct P) (hs : V.Same V') : V'.Dir δ := by
  refine h.congr (hs.head 1 V.inode_root) (hs.sameDir hV).slot fun i hi _ => ?_
  have hi' := (hs.inode i).mp hi
  exact ⟨hi', (hs.head i hi').type, (hs.head i hi').linkcount⟩

/-- A write to a file that is not the directory. -/
theorem Dir.setData (h : V.Dir δ) (hV : V.Struct P) (hroot : i ≠ 1) {x : Block}
    (hs : V.SetData V' i fb x) : V'.Dir δ := by
  refine h.congr (hs.head 1 V.inode_root) (fun k hk => slot_congr ?_) fun i hi _ => ?_
  · rw [hs.data 1 V.inode_root _ (slot_lt hV.dirSize hk), if_neg fun he => hroot he.1.symm]
  · have hi' := (hs.inode i).mp hi
    exact ⟨hi', (hs.head i hi').type, (hs.head i hi').linkcount⟩

theorem Dir.trunc (h : V.Dir δ) (hV : V.Struct P) (hroot : i ≠ 1) {blocklen size : ℕ}
    (hs : V.Trunc V' i blocklen size) : V'.Dir δ := by
  refine h.congr (hs.head 1 V.inode_root (Ne.symm hroot)) (hs.sameDir hV hroot).slot fun j hj _ => ?_
  have hj' := (hs.inode j).mp hj
  refine ⟨hj', ?_⟩
  by_cases hji : j = i
  · rw [hji]
    exact ⟨hs.type, hs.linkcount⟩
  · exact ⟨(hs.head j hj' hji).type, (hs.head j hj' hji).linkcount⟩

/-- The fields of an inode change, and the debt with the link count. -/
theorem Dir.setHead {δ' : ℕ → ℤ} (h : V.Dir δ) (hV : V.Struct P) {x : Block} (hroot : i ≠ 1)
    (hs : V.SetHead V' i x) (htype : x.sfiType = (V.block i).sfiType)
    (hself : (x.sfiLinkcount : ℤ) + δ' i = (V.block i).sfiLinkcount + δ i)
    (hother : ∀ j, j ≠ i → δ' j = δ j) : V'.Dir δ' := by
  have hroot' : V'.block 1 = V.block 1 := hs.head 1 V.inode_root (Ne.symm hroot)
  obtain ⟨hn, hslot⟩ := hs.sameDir hV hroot
  refine ⟨?_, ?_, ?_, fun j hj h1 => ?_, fun k hk => ?_, fun j hj h1 => ?_, fun k hk l hl => ?_⟩
  · rw [hroot']
    exact h.rootType
  · rw [hroot']
    exact h.rootLinks
  · rw [hroot']
    exact h.aligned
  · have hj' := (hs.inode j).mp hj
    by_cases hji : j = i
    · subst hji
      rw [hs.self, htype]
      exact h.fileType j hj' h1
    · rw [hs.head j hj' hji]
      exact h.fileType j hj' h1
  · rw [hn] at hk
    rw [hslot k hk]
    exact h.noRoot k hk
  · have hj' := (hs.inode j).mp hj
    rw [links_congr hn hslot, h.links j hj' h1]
    by_cases hji : j = i
    · subst hji
      rw [hs.self, hself]
    · rw [hs.head j hj' hji, hother j hji]
  · rw [hn] at hk hl
    rw [hslot k hk, hslot l hl]
    exact h.names k hk l hl

/-! ### A slot is written -/

/-- The directory of `V'` is the one of `V` with the entry `e` in slot `k`. -/
structure DirSet (V V' : Vol) (k : ℕ) (e : List UInt8) : Prop where
  le : k ≤ V.nslots
  nslots : V'.nslots = max V.nslots (k + 1)
  slot : ∀ l < V'.nslots, V'.slot l = if l = k then e else V.slot l

theorem DirSet.self (h : V.DirSet V' k e) : k < V'.nslots ∧ V'.slot k = e := by
  have hk : k < V'.nslots := by
    rw [h.nslots]
    omega
  exact ⟨hk, by rw [h.slot k hk, if_pos rfl]⟩

theorem DirSet.lt (h : V.DirSet V' k e) {l : ℕ} (hlk : l ≠ k) : l < V'.nslots ↔ l < V.nslots := by
  have hle := h.le
  rw [h.nslots]
  omega

theorem DirSet.of_ne (h : V.DirSet V' k e) {l : ℕ} (hl : l < V'.nslots) (hlk : l ≠ k) : V'.slot l = V.slot l := by
  rw [h.slot l hl, if_neg hlk]

/-- `V'` is `V` with the entry `e` in slot `k`, which may be the one behind the last. -/
structure SetSlot (V V' : Vol) (k : ℕ) (e : List UInt8) : Prop where
  nblocks : V'.nblocks = V.nblocks
  loaded : V'.loaded = V.loaded
  inode : ∀ j, V'.Inode j ↔ V.Inode j
  type : (V'.block 1).sfiType = (V.block 1).sfiType
  linkcount : (V'.block 1).sfiLinkcount = (V.block 1).sfiLinkcount
  aligned : (V'.block 1).sfiSize % 64 = 0
  nslots : V'.nslots = max V.nslots (k + 1)
  slot : ∀ l < V'.nslots, V'.slot l = if l = k then e else V.slot l
  head : ∀ j, V.Inode j → j ≠ 1 → (V.block j).SameHead (V'.block j)
  data : ∀ j, V.Inode j → j ≠ 1 → ∀ fb < 143, V'.data j fb = V.data j fb

theorem SetSlot.dirSet (hs : V.SetSlot V' k e) (hk : k ≤ V.nslots) : V.DirSet V' k e := ⟨hk, hs.nslots, hs.slot⟩

/-- The number of entries that name a file, before and after. -/
theorem SetSlot.links (hs : V.SetSlot V' k e) (hk : k ≤ V.nslots) (i : ℕ) :
    V'.links i + (decide (k < V.nslots ∧ sfdIno (V.slot k) = i)).toNat =
      V.links i + (decide (sfdIno e = i)).toNat := by
  have hself : V'.slot k = e := by rw [hs.slot k (by rw [hs.nslots]; omega), if_pos rfl]
  have hother (l : ℕ) (hl : l < V'.nslots) (hlk : l ≠ k) : V'.slot l = V.slot l := by
    rw [hs.slot l hl, if_neg hlk]
  have hn := hs.nslots
  unfold Vol.links
  rcases Nat.lt_or_ge k V.nslots with hlt | hge
  · rw [max_eq_left (by omega)] at hn
    rw [hn]
    have hcount := countP_range_change (p := fun l => decide (sfdIno (V.slot l) = i))
      (q := fun l => decide (sfdIno (V'.slot l) = i)) hlt
      fun l hl hlk => by rw [hother l (by omega) hlk]
    rw [hself] at hcount
    simpa [hlt] using hcount
  · have hkn : k = V.nslots := by omega
    rw [max_eq_right (by omega)] at hn
    have hsame : (List.range k).countP (fun l => decide (sfdIno (V'.slot l) = i)) =
        (List.range k).countP fun l => decide (sfdIno (V.slot l) = i) := by
      apply List.countP_congr
      intro l hl
      have hl := List.mem_range.mp hl
      rw [hother l (by omega) (by omega)]
    rw [hn, List.range_succ, List.countP_append, List.countP_singleton, hself, hsame, hkn]
    cases decide (sfdIno e = i) <;> simp

theorem Dir.setSlot {δ' : ℕ → ℤ} (h : V.Dir δ) (hs : V.SetSlot V' k e) (hk : k ≤ V.nslots)
    (h1 : sfdIno e ≠ 1)
    (hname : sfdIno e ≠ 0 → ∀ l < V.nslots, sfdIno (V.slot l) ≠ 0 → sfdName (V.slot l) ≠ sfdName e)
    (hδ : ∀ i, V.Inode i → i ≠ 1 → δ' i + (decide (k < V.nslots ∧ sfdIno (V.slot k) = i)).toNat =
      δ i + (decide (sfdIno e = i)).toNat) : V'.Dir δ' := by
  have hn := hs.nslots
  have hold {l : ℕ} (hl : l < V'.nslots) (hlk : l ≠ k) : l < V.nslots ∧ V'.slot l = V.slot l := by
    refine ⟨?_, by rw [hs.slot l hl, if_neg hlk]⟩
    rw [hn] at hl
    omega
  have hself : V'.slot k = e := by rw [hs.slot k (by rw [hn]; omega), if_pos rfl]
  refine ⟨?_, ?_, hs.aligned, fun j hj hj1 => ?_, fun l hl => ?_, fun j hj hj1 => ?_, fun l hl m hm hl0 hm0 he => ?_⟩
  · rw [hs.type]
    exact h.rootType
  · rw [hs.linkcount]
    exact h.rootLinks
  · have hj' := (hs.inode j).mp hj
    rw [(hs.head j hj' hj1).type]
    exact h.fileType j hj' hj1
  · by_cases hlk : l = k
    · rw [hlk, hself]
      exact h1
    · rw [(hold hl hlk).2]
      exact h.noRoot l (hold hl hlk).1
  · have hj' := (hs.inode j).mp hj
    have hcount := hs.links hk j
    have hbefore := h.links j hj' hj1
    have hdebt := hδ j hj' hj1
    rw [(hs.head j hj' hj1).linkcount]
    omega
  · by_cases hlk : l = k <;> by_cases hmk : m = k
    · rw [hlk, hmk]
    · rw [hlk, hself] at hl0 he
      rw [(hold hm hmk).2] at hm0 he
      exact absurd he.symm (hname hl0 m (hold hm hmk).1 hm0)
    · rw [hmk, hself] at hm0 he
      rw [(hold hl hlk).2] at hl0 he
      exact absurd he (hname hm0 l (hold hl hlk).1 hl0)
    · rw [(hold hl hlk).2] at hl0 he
      rw [(hold hm hmk).2] at hm0 he
      exact h.names l (hold hl hlk).1 m (hold hm hmk).1 hl0 hm0 he

/-- A file that a directory entry names has links. -/
theorem links_pos (hk : k < V.nslots) (hi : sfdIno (V.slot k) = i) : 0 < V.links i :=
  List.countP_pos_iff.mpr ⟨k, List.mem_range.mpr hk, by simpa using hi⟩

theorem exists_slot_of_links (h : 0 < V.links i) : ∃ k < V.nslots, sfdIno (V.slot k) = i := by
  obtain ⟨k, hk, hi⟩ := List.countP_pos_iff.mp h
  exact ⟨k, List.mem_range.mp hk, by simpa using hi⟩

/-! ### Inodes come and go -/

/-- The directory does not depend on a block that is only handed out. -/
theorem Struct.slot_create (h : V.Struct (i :: P)) {x : Block} (hb : V'.block = Function.update V.block i x) :
    V'.block 1 = V.block 1 ∧ V.SameDir V' := by
  have hne := h.pending_ne List.mem_cons_self V.inode_root
  have hof {b : ℕ} (hbi : b ≠ i) : V'.block b = V.block b := by rw [hb, Function.update_of_ne hbi]
  have hroot : V'.block 1 = V.block 1 := hof hne.1.symm
  refine ⟨hroot, nslots_congr (by rw [hroot]), fun k hk => ?_⟩
  have hmap : V'.map 1 (k / 8) = V.map 1 (k / 8) := by
    refine (map_congr ?_ fun h0 => hof (hne.2.1 h0).symm).2 _
    rw [hroot]
    exact ⟨rfl, fun _ => rfl⟩
  exact slot_congr (data_congr hmap fun h0 => hof (hne.2.2 _ (slot_lt h.dirSize hk) h0).symm)

theorem Struct.inode_create (h : V.Struct (i :: P)) {x : Block} (hb : V'.block = Function.update V.block i x)
    (hl : ∀ j, V'.loaded j ↔ V.loaded j ∨ j = i) (j : ℕ) : V'.Inode j ↔ V.Inode j ∨ j = i := by
  obtain ⟨hroot, hn, hslot⟩ := h.slot_create hb
  have hentry : (∃ k < V.nslots, j ≠ 0 ∧ sfdIno (V'.slot k) = j) ↔
      ∃ k < V.nslots, j ≠ 0 ∧ sfdIno (V.slot k) = j :=
    exists_congr fun k => and_congr_right fun hk => by rw [hslot k hk]
  unfold Inode
  rw [hn, hl, hentry, or_assoc, or_assoc, or_comm (a := j = i), or_assoc]

/-- A new file has no links. -/
theorem Dir.create (h : V.Dir 0) (hV : V.Struct (i :: P)) {x : Block} (htype : x.sfiType = sfsTypeFile)
    (hlinks : x.sfiLinkcount = 0) (hb : V'.block = Function.update V.block i x)
    (hin : ∀ j, V'.Inode j ↔ V.Inode j ∨ j = i) : V'.Dir 0 := by
  have hi : ¬ V.Inode i := fun hi => (hV.pending_ne List.mem_cons_self hi).1 rfl
  have hi0 : i ≠ 0 := fun he => hV.owned.apart i List.mem_cons_self .super he
  have hof {b : ℕ} (hbi : b ≠ i) : V'.block b = V.block b := by rw [hb, Function.update_of_ne hbi]
  have hself : V'.block i = x := by rw [hb, Function.update_self]
  obtain ⟨hroot, hn, hslot⟩ := hV.slot_create hb
  refine ⟨hroot ▸ h.rootType, hroot ▸ h.rootLinks, hroot ▸ h.aligned, fun j hj h1 => ?_, fun k hk => ?_,
    fun j hj h1 => ?_, fun k hk l hl => ?_⟩
  · rcases (hin j).mp hj with hj | rfl
    · rw [hof fun he => hi (he ▸ hj)]
      exact h.fileType j hj h1
    · rw [hself, htype]
  · rw [hn] at hk
    rw [hslot k hk]
    exact h.noRoot k hk
  · rw [links_congr hn hslot]
    rcases (hin j).mp hj with hj | rfl
    · rw [hof fun he => hi (he ▸ hj)]
      exact h.links j hj h1
    · rw [hself, hlinks]
      by_contra hpos
      obtain ⟨k, hk, hslot⟩ := exists_slot_of_links (V := V) (i := j) (by simp at hpos; omega)
      exact hi (Or.inr (Or.inr ⟨k, hk, hi0, hslot⟩))
  · rw [hn] at hk hl
    rw [hslot k hk, hslot l hl]
    exact h.names k hk l hl

/-- A vnode comes or goes, or an inode with all that it had. -/
theorem Dir.reload (h : V.Dir δ) (hb : V'.block = V.block) (hin : ∀ j, V'.Inode j → V.Inode j) :
    V'.Dir δ := by
  have hind (j : ℕ) : V'.ind j = V.ind j := by rw [ind, ind, hb]
  have hdata (j fb : ℕ) : V'.data j fb = V.data j fb := by
    have hmap : V'.map j fb = V.map j fb := by rw [map, map, hind, hb]
    rw [data, data, hmap, hb]
  refine h.congr (by rw [hb]; exact .refl _) (fun k _ => slot_congr (hdata 1 _)) fun j hj _ => ?_
  rw [hb]
  exact ⟨hin j hj, rfl, rfl⟩

end Vol

/-! ### Directory entries -/

theorem sfdIno_mkDirentry {i : ℕ} (hi : i < 4294967296) (name : List UInt8) :
    sfdIno (mkDirentry i name) = i := by
  have htake : (mkDirentry i name).take 4 = toBe 4 i := by
    rw [mkDirentry, List.append_assoc, List.take_append_of_le_length (by simp), List.take_of_length_le (by simp)]
  rw [sfdIno, htake, ofBe_toBe (by simpa using hi)]

theorem sfdName_mkDirentry {i : ℕ} {name : CStr} (h : name.chars.length ≤ 59) :
    sfdName (mkDirentry i name.chars) = name.chars := by
  have hdrop : (mkDirentry i name.chars).drop 4 = name.chars ++ List.replicate (60 - name.chars.length) 0 := by
    rw [mkDirentry, List.append_assoc, List.drop_append_of_le_length (by simp), List.drop_of_length_le (by simp),
      List.nil_append]
  have hchars : ∀ x ∈ name.chars, decide (x ≠ 0) = true := by
    intro x hx
    simpa using fun he : x = 0 => name.noNul (he ▸ hx)
  rw [sfdName, hdrop, List.take_append, List.take_of_length_le h, List.takeWhile_append_of_pos hchars,
    List.take_replicate]
  cases hm : min (59 - name.chars.length) (60 - name.chars.length) with
  | zero => simp
  | succ m => simp [List.replicate_succ]

theorem length_mkDirentry {i : ℕ} {name : CStr} (h : name.chars.length ≤ 59) :
    (mkDirentry i name.chars).length = 64 := by
  rw [mkDirentry, List.length_append, List.length_append, length_toBe, List.length_replicate]
  omega

theorem sfdIno_noDirentry : sfdIno noDirentry = 0 := by
  rw [sfdIno, noDirentry, List.take_replicate, Bytes.ofBe_replicate_zero]

end Os161
