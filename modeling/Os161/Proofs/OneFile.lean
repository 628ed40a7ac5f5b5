import Os161.Proofs.Mounted

/-! Volumes with an empty directory and one open file that has no name (any more)
and at most one block. -/

namespace Os161

def rootInode : Block := ((Bytes.zero : Block).setSfiType sfsTypeDir).setSfiLinkcount 1

def fileInode (b : ℕ) : Block := ((Bytes.zero : Block).setSfiType sfsTypeFile).setSfiDirect 0 b

/-- A volume of `n` blocks with the file in inode `i`, whose first block is `b`, or a
hole if `b` is 0. -/
def Sfs.oneFile (n i b : ℕ) (hn : n < 4294967296) : Sfs where
  nblocks := n
  freemap k := decide (k < 2 + sfsFreemapblocks n ∨ n ≤ k ∨ k = i ∨ (b ≠ 0 ∧ k = b))
  freemapdirty := false
  vnodes := [⟨i, fileInode b, true, 1⟩]
  dev := ⟨n, hn, fun k => if k = 1 then rootInode else Bytes.zero, []⟩
  kmem := []

namespace Sfs.oneFile

variable {n i b : ℕ} {hn : n < 4294967296}

theorem loaded_iff (j : ℕ) : (oneFile n i b hn).vol.loaded j ↔ j = i := by
  rw [Sfs.loaded_iff]
  simp only [oneFile, List.mem_singleton, exists_eq_left]
  exact eq_comm

theorem block_self : (oneFile n i b hn).vol.block i = fileInode b := by
  simp [vol, Sfs.block, vnode, oneFile]

theorem block_root (hi : i ≠ 1) : (oneFile n i b hn).vol.block 1 = rootInode := by
  simp [vol, Sfs.block, vnode, oneFile, hi]

theorem nslots_eq (hi : i ≠ 1) : (oneFile n i b hn).vol.nslots = 0 := by
  rw [Vol.nslots, block_root hi, rootInode, Bytes.sfiSize_setSfiLinkcount, Bytes.sfiSize_setSfiType,
    Bytes.sfiSize_zero]

theorem inode_iff (hi : i ≠ 1) (j : ℕ) : (oneFile n i b hn).vol.Inode j ↔ j = 1 ∨ j = i := by
  unfold Vol.Inode
  rw [loaded_iff, nslots_eq hi]
  simp

theorem rootInode_pointers : (Bytes.zero : Block).SamePointers rootInode := by
  have h₁ := Bytes.samePointers_setNum (b := (Bytes.zero : Block)) (w := 2) (o := 4) (by omega) sfsTypeDir
  have h₂ := Bytes.samePointers_setNum (b := (Bytes.zero : Block).setSfiType sfsTypeDir) (w := 2) (o := 6) (by omega) 1
  exact ⟨h₂.indirect.trans h₁.indirect, fun k => (h₂.direct k).trans (h₁.direct k)⟩

theorem fileInode_indirect : (fileInode b).sfiIndirect = 0 := by
  have h := Bytes.samePointers_setNum (b := (Bytes.zero : Block)) (w := 2) (o := 4) (by omega) sfsTypeFile
  rw [fileInode, Bytes.sfiIndirect_setSfiDirect (by omega)]
  exact h.indirect.trans Bytes.sfiIndirect_zero

theorem fileInode_direct (hb : b < 4294967296) (k : ℕ) : (fileInode b).sfiDirect k = if k = 0 then b else 0 := by
  have h := Bytes.samePointers_setNum (b := (Bytes.zero : Block)) (w := 2) (o := 4) (by omega) sfsTypeFile
  rw [fileInode, Bytes.sfiDirect_setSfiDirect (by omega) hb]
  split_ifs
  · rfl
  · exact (h.direct k).trans Bytes.sfiDirect_zero

theorem fileInode_head : ((Bytes.zero : Block).setSfiType sfsTypeFile).SameHead (fileInode b) :=
  Bytes.sameHead_setNum (by omega) b

theorem ind_eq (hi : i ≠ 1) {j : ℕ} (hj : j = 1 ∨ j = i) : (oneFile n i b hn).vol.ind j = 0 := by
  rw [Vol.ind]
  rcases hj with rfl | rfl
  · rw [block_root hi, rootInode_pointers.indirect, Bytes.sfiIndirect_zero]
  · rw [block_self, fileInode_indirect]

theorem map_root (hi : i ≠ 1) (fb : ℕ) : (oneFile n i b hn).vol.map 1 fb = 0 := by
  rw [Vol.map, ind_eq hi (Or.inl rfl), block_root hi, rootInode_pointers.direct, Bytes.sfiDirect_zero]
  simp

theorem map_self (hi : i ≠ 1) (hb : b < 4294967296) (fb : ℕ) :
    (oneFile n i b hn).vol.map i fb = if fb = 0 then b else 0 := by
  rw [Vol.map, ind_eq hi (Or.inr rfl), block_self, fileInode_direct hb]
  split_ifs <;> first | rfl | omega

/-- Where the blocks of the file may lie. -/
structure Fits (n i b : ℕ) : Prop where
  covered : n ≤ sfsFreemapbits n
  inode : 2 + sfsFreemapblocks n ≤ i
  inode_lt : i < n
  block : b = 0 ∨ (2 + sfsFreemapblocks n ≤ b ∧ b < n ∧ b ≠ i)

/-- The one reference to a block in use. -/
def owner (n i k : ℕ) : Ref :=
  if k = 0 then .super
  else if k = 1 then .inode 1
  else if k < 2 + sfsFreemapblocks n then .freemap (k - 2)
  else if n ≤ k then .pastEnd
  else if k = i then .inode i
  else .pointer i 0

theorem refs_iff (h : Fits n i b) (hi : i ≠ 1) (r : Ref) (k : ℕ) :
    (oneFile n i b hn).vol.Refs r k ↔ r = owner n i k ∧ k < sfsFreemapbits n ∧
      (k < 2 + sfsFreemapblocks n ∨ n ≤ k ∨ k = i ∨ (b ≠ 0 ∧ k = b)) := by
  have hcov := h.covered
  have hino := h.inode
  have hlt := h.inode_lt
  have hblock := h.block
  have hword : b < 4294967296 := by omega
  constructor
  · intro hr
    unfold owner
    cases r with
    | super =>
      have hk : k = 0 := hr
      exact ⟨by rw [if_pos hk], by omega, Or.inl (by omega)⟩
    | freemap l =>
      have hk : l < sfsFreemapblocks n ∧ k = 2 + l := hr
      refine ⟨?_, by omega, Or.inl (by omega)⟩
      rw [if_neg (by omega), if_neg (by omega), if_pos (by omega), hk.2, Nat.add_sub_cancel_left]
    | pastEnd =>
      have hk : n ≤ k ∧ k < sfsFreemapbits n := hr
      refine ⟨?_, hk.2, Or.inr (Or.inl hk.1)⟩
      rw [if_neg (by omega), if_neg (by omega), if_neg (by omega), if_pos hk.1]
    | inode j =>
      obtain ⟨hj, rfl⟩ := hr
      rcases (inode_iff hi k).mp hj with rfl | rfl
      · exact ⟨by rw [if_neg (by omega), if_pos rfl], by omega, Or.inl (by omega)⟩
      · refine ⟨?_, by omega, Or.inr (Or.inr (Or.inl rfl))⟩
        rw [if_neg (by omega), if_neg hi, if_neg (by omega), if_neg (by omega), if_pos rfl]
    | indirect j =>
      obtain ⟨hj, h0, hk⟩ := hr
      rw [ind_eq hi ((inode_iff hi j).mp hj)] at hk
      exact absurd hk h0
    | pointer j fb =>
      obtain ⟨hj, -, h0, hk⟩ := hr
      rcases (inode_iff hi j).mp hj with rfl | rfl
      · rw [map_root hi] at hk
        exact absurd hk h0
      · rw [map_self hi hword] at hk
        split_ifs at hk with hfb
        · subst hk hfb
          refine ⟨?_, by omega, Or.inr (Or.inr (Or.inr ⟨h0, rfl⟩))⟩
          rw [if_neg h0, if_neg (by omega), if_neg (by omega), if_neg (by omega), if_neg (by omega)]
        · exact absurd hk h0
  · rintro ⟨rfl, hbits, hk⟩
    unfold owner
    split_ifs with h0 h1 hfree hpast hself
    · exact h0
    · exact ⟨(inode_iff hi 1).mpr (Or.inl rfl), h1⟩
    · exact ⟨by simpa [vol, oneFile] using by omega, by omega⟩
    · exact ⟨hpast, hbits⟩
    · exact ⟨(inode_iff hi i).mpr (Or.inr rfl), hself⟩
    · refine ⟨(inode_iff hi i).mpr (Or.inr rfl), by omega, h0, ?_⟩
      rw [map_self hi hword, if_pos rfl]
      omega

theorem consistent (h : Fits n i b) : (oneFile n i b hn).Consistent := by
  have hcov := h.covered
  have hino := h.inode
  have hlt := h.inode_lt
  have hblock := h.block
  have hword : b < 4294967296 := by omega
  have hi : i ≠ 1 := by omega
  have hfile : (fileInode b).sfiType = sfsTypeFile ∧ (fileInode b).sfiLinkcount = 0 := by
    rw [fileInode_head.type, fileInode_head.linkcount]
    exact ⟨Bytes.sfiType_setSfiType (by decide), Bytes.sfiLinkcount_setSfiType.trans Bytes.sfiLinkcount_zero⟩
  have hsize : rootInode.sfiSize = 0 := by
    rw [rootInode, Bytes.sfiSize_setSfiLinkcount, Bytes.sfiSize_setSfiType, Bytes.sfiSize_zero]
  refine {
    freemap := ⟨fun k hk => ?_, fun r r' k hr hr' => ?_⟩
    covered := hcov
    room := by
      rw [show (oneFile n i b hn).nblocks = n from rfl]
      omega
    bounds := fun j hj => ?_
    rootType := ?_
    rootLinks := ?_
    dirSize := by rw [block_root hi, hsize]; omega
    aligned := by rw [block_root hi, hsize]
    fileType := fun j hj hj1 => ?_
    noRoot := fun k hk => absurd hk (by rw [nslots_eq hi]; omega)
    links := fun j hj hj1 => ?_
    names := fun k hk => absurd hk (by rw [nslots_eq hi]; omega)
    nodup := List.nodup_singleton i
    clean := fun v hv hd => ?_
    held := fun v hv => ?_
    disk := le_rfl
    quiet := rfl }
  · simp only [refs_iff h hi, exists_eq_left]
    refine ⟨fun hu => ⟨hk, ?_⟩, fun hu => ?_⟩
    · simpa [vol, oneFile] using hu
    · simpa [vol, oneFile] using hu.2
  · rw [((refs_iff h hi r k).mp hr).1, ((refs_iff h hi r' k).mp hr').1]
  · have hj' := (inode_iff hi j).mp hj
    rw [show (oneFile n i b hn).nblocks = n from rfl, ind_eq hi hj']
    refine ⟨by omega, by omega, fun fb _ => ?_⟩
    rcases hj' with rfl | rfl
    · rw [map_root hi]
      omega
    · rw [map_self hi hword]
      split_ifs <;> omega
  · rw [block_root hi, rootInode, Bytes.sfiType_setSfiLinkcount, Bytes.sfiType_setSfiType (by decide)]
  · rw [block_root hi, rootInode, Bytes.sfiLinkcount_setSfiLinkcount (by decide)]
    exact Nat.one_pos
  · obtain rfl := ((inode_iff hi j).mp hj).resolve_left hj1
    rw [block_self]
    exact hfile.1
  · obtain rfl := ((inode_iff hi j).mp hj).resolve_left hj1
    rw [block_self, hfile.2, Vol.links, nslots_eq hi]
    rfl
  · rw [List.mem_singleton.mp hv] at hd
    exact Bool.noConfusion hd
  · rw [List.mem_singleton.mp hv]
    exact Nat.one_pos

/-- Without a block the file is empty and has nothing behind its end. -/
theorem data_hole (hi : i ≠ 1) (fb : ℕ) : (oneFile n i 0 hn).vol.data i fb = Bytes.zero := by
  rw [Vol.data, map_self hi (by decide), ite_self, if_pos rfl]

end Sfs.oneFile

end Os161
