import Os161.Proofs.Kmalloc

/-! The blocks that are out and the free ones make up the pages, whichever page a
block is taken from or given back to. -/

namespace Os161

variable {pages A B : List HeapPage} {P : HeapPage} {live : List LiveBlock} {x sz d k : ℕ} {F : List ℕ}

theorem blocktype_spec (h : blocktype sz = some k) : k < 8 ∧ sz ≤ sizes k :=
  ⟨List.mem_range.mp (List.mem_of_find?_eq_some h), by simpa using List.find?_some h⟩

theorem LiveBlock.size_eq {b : LiveBlock} (h : blocktype b.sz = some k) : b.size = sizes k := by
  rw [LiveBlock.size, h]
  rfl

/-- Every block of every page is free or live, and not both. -/
structure KheapBlocks (pages : List HeapPage) (live : List LiveBlock) : Prop where
  addrs : (pages.map HeapPage.addr).Nodup
  free : ∀ P ∈ pages, ∀ d < P.nblocks, P.block d ∈ P.free ↔ ∀ b ∈ live, b.ptr ≠ P.block d
  place : ∀ b ∈ live, ∃ P ∈ pages, blocktype b.sz = some P.blktype ∧ ∃ d < P.nblocks, b.ptr = P.block d
  once : (live.map LiveBlock.ptr).Nodup
  used : (pages.map HeapPage.used).sum = (live.map LiveBlock.size).sum

theorem map_replace {β : Type*} (f : HeapPage → β) (P P' : HeapPage) (hf : f P' = f P) :
    (A ++ P' :: B).map f = (A ++ P :: B).map f := by
  rw [List.map_append, List.map_append, List.map_cons, List.map_cons, hf]

namespace KheapBlocks

theorem addr_ne (h : KheapBlocks (A ++ P :: B) live) {R : HeapPage} (hR : R ∈ A ++ B) : R.addr ≠ P.addr := by
  have hnodup := h.addrs
  rw [List.map_append, List.map_cons, List.nodup_middle, List.nodup_cons, ← List.map_append] at hnodup
  exact fun he => hnodup.1 (he ▸ List.mem_map_of_mem hR)

theorem block_ne {R : HeapPage} (hne : R.addr ≠ P.addr) {e : ℕ} (he : e < R.nblocks) (hd : d < P.nblocks) :
    R.block e ≠ P.block d := by
  have h1 := R.block_mem_page he
  have h2 := P.block_mem_page hd
  rcases R.addr_apart hne with h3 | h3 <;> omega

theorem mem_middle {R P' : HeapPage} (hR : R ∈ A ++ B) : R ∈ A ++ P' :: B := by
  rw [List.mem_append] at hR
  rw [List.mem_append, List.mem_cons]
  tauto

theorem mem_split {R P' : HeapPage} (hR : R ∈ A ++ P' :: B) : R = P' ∨ R ∈ A ++ B := by
  rw [List.mem_append, List.mem_cons] at hR
  rw [List.mem_append]
  tauto

/-- A free block goes out. -/
theorem take (h : KheapBlocks (A ++ P :: B) live) (hfree : P.free = x :: F) (hsz : blocktype sz = some P.blktype) :
    KheapBlocks (A ++ P.pop F hfree :: B) (⟨x, sz⟩ :: live) := by
  have hP : P ∈ A ++ P :: B := by simp
  obtain ⟨e, he, hx⟩ := P.free_block (x := x) (by rw [hfree]; exact List.mem_cons_self)
  have hxF : x ∉ F := (List.nodup_cons.mp (hfree ▸ P.nodup)).1
  have hxlive : ∀ b ∈ live, b.ptr ≠ x := by
    rw [hx, ← h.free P hP e he, ← hx, hfree]
    exact List.mem_cons_self
  refine ⟨?_, fun R hR d hd => ?_, fun b hb => ?_, ?_, ?_⟩
  · rw [map_replace HeapPage.addr P (P.pop F hfree) rfl]
    exact h.addrs
  · rw [List.forall_mem_cons]
    rcases mem_split hR with rfl | hR
    · have hold := h.free P hP d hd
      change P.block d ∈ F ↔ x ≠ P.block d ∧ ∀ b ∈ live, b.ptr ≠ P.block d
      rw [← hold, hfree, List.mem_cons]
      constructor
      · exact fun hmem => ⟨fun hxd => hxF (hxd ▸ hmem), Or.inr hmem⟩
      · rintro ⟨hne, hxd | hmem⟩
        · exact absurd hxd.symm hne
        · exact hmem
    · rw [h.free R (mem_middle hR) d hd]
      have hne : x ≠ R.block d := by
        rw [hx]
        exact (block_ne (h.addr_ne hR) hd he).symm
      tauto
  · rcases List.mem_cons.mp hb with rfl | hb
    · exact ⟨P.pop F hfree, by simp, hsz, e, he, hx⟩
    · obtain ⟨R, hR, hbsz, hblock⟩ := h.place b hb
      rcases mem_split hR with rfl | hR
      · exact ⟨R.pop F hfree, by simp, hbsz, hblock⟩
      · exact ⟨R, mem_middle hR, hbsz, hblock⟩
  · rw [List.map_cons, List.nodup_cons]
    refine ⟨fun hmem => ?_, h.once⟩
    obtain ⟨b, hb, hbx⟩ := List.mem_map.mp hmem
    exact hxlive b hb hbx
  · have hsum := h.used
    have hle := P.length_free_le
    have hone : (P.pop F hfree).used = P.size + P.used := by
      change P.size * (P.nblocks - F.length) = P.size + P.size * (P.nblocks - P.free.length)
      rw [hfree, List.length_cons] at hle ⊢
      rw [show P.nblocks - F.length = (P.nblocks - (F.length + 1)) + 1 by omega, Nat.mul_succ]
      omega
    have hnew : (LiveBlock.mk x sz).size = P.size := LiveBlock.size_eq hsz
    simp only [List.map_append, List.map_cons, List.sum_append, List.sum_cons, hone, hnew] at hsum ⊢
    omega

/-- A page comes in with all its blocks free. -/
theorem cons (h : KheapBlocks pages live) (hfree : P.free = P.allBlocks) (hnew : ∀ R ∈ pages, R.addr ≠ P.addr) :
    KheapBlocks (P :: pages) live := by
  refine ⟨?_, fun R hR d hd => ?_, fun b hb => ?_, h.once, ?_⟩
  · rw [List.map_cons, List.nodup_cons]
    refine ⟨fun hmem => ?_, h.addrs⟩
    obtain ⟨R, hR, he⟩ := List.mem_map.mp hmem
    exact hnew R hR he
  · rcases List.mem_cons.mp hR with rfl | hR
    · have hmem : R.block d ∈ R.free := by
        rw [hfree, HeapPage.allBlocks]
        exact List.mem_map_of_mem (List.mem_reverse.mpr (List.mem_range.mpr hd))
      refine ⟨fun _ b hb => ?_, fun _ => hmem⟩
      obtain ⟨S, hS, -, e, he, hptr⟩ := h.place b hb
      rw [hptr]
      exact block_ne (hnew S hS) he hd
    · exact h.free R hR d hd
  · obtain ⟨R, hR, hrest⟩ := h.place b hb
    exact ⟨R, List.mem_cons_of_mem P hR, hrest⟩
  · have hlen : P.free.length = P.nblocks := by
      rw [hfree, HeapPage.allBlocks, List.length_map, List.length_reverse, List.length_range]
    rw [List.map_cons, List.sum_cons, HeapPage.used, hlen, Nat.sub_self, Nat.mul_zero, Nat.zero_add]
    exact h.used

theorem live_perm (h : KheapBlocks pages live) {b : LiveBlock} (hb : b ∈ live) :
    live.Perm (b :: live.filter fun c => c.ptr ≠ b.ptr) := by
  have honce := h.once
  obtain ⟨l₁, l₂, rfl⟩ := List.append_of_mem hb
  rw [List.map_append, List.map_cons, List.nodup_middle, List.nodup_cons, ← List.map_append] at honce
  have hkeep : (l₁ ++ b :: l₂).filter (fun c => c.ptr ≠ b.ptr) = l₁ ++ l₂ := by
    have hne : ∀ c ∈ l₁ ++ l₂, decide (c.ptr ≠ b.ptr) = true := fun c hc =>
      decide_eq_true fun he => honce.1 (he ▸ List.mem_map_of_mem hc)
    rw [List.filter_append, List.filter_cons, if_neg (by simp), ← List.filter_append]
    exact List.filter_eq_self.mpr hne
  rw [hkeep]
  exact List.perm_middle

/-- A live block is given back. -/
theorem give (h : KheapBlocks (A ++ P :: B) live) (hd : d < P.nblocks) (hnot : P.block d ∉ P.free)
    (hlive : ∃ b ∈ live, b.ptr = P.block d) :
    KheapBlocks (A ++ P.giveBack d hd hnot :: B) (live.filter fun b => b.ptr ≠ P.block d) := by
  have hP : P ∈ A ++ P :: B := by simp
  have hmem {b : LiveBlock} : b ∈ live.filter (fun b => b.ptr ≠ P.block d) ↔ b ∈ live ∧ b.ptr ≠ P.block d := by simp
  refine ⟨?_, fun R hR e he => ?_, fun b hb => ?_, ?_, ?_⟩
  · rw [map_replace HeapPage.addr P (P.giveBack d hd hnot) rfl]
    exact h.addrs
  · simp only [hmem]
    rcases mem_split hR with rfl | hR
    · have hold := h.free P hP e he
      change P.block e ∈ P.block d :: P.free ↔ ∀ b, b ∈ live ∧ b.ptr ≠ P.block d → b.ptr ≠ P.block e
      rw [List.mem_cons, hold]
      constructor
      · rintro (heq | hall) b ⟨hb, hne⟩
        · rw [heq]
          exact hne
        · exact hall b hb
      · intro hall
        by_cases hed : P.block e = P.block d
        · exact Or.inl hed
        · refine Or.inr fun b hb hbe => hall b ⟨hb, ?_⟩ hbe
          rw [hbe]
          exact hed
    · rw [h.free R (mem_middle hR) e he]
      have hne := block_ne (h.addr_ne hR) he hd
      constructor
      · exact fun hall b hb => hall b hb.1
      · exact fun hall b hb hbe => hall b ⟨hb, fun hbd => hne (hbe ▸ hbd)⟩ hbe
  · obtain ⟨R, hR, hbsz, hblock⟩ := h.place b (hmem.mp hb).1
    rcases mem_split hR with rfl | hR
    · exact ⟨R.giveBack d hd hnot, by simp, hbsz, hblock⟩
    · exact ⟨R, mem_middle hR, hbsz, hblock⟩
  · exact h.once.sublist (List.filter_sublist.map _)
  · obtain ⟨b, hb, hptr⟩ := hlive
    have hperm := (h.live_perm hb).map LiveBlock.size
    rw [hptr] at hperm
    have hsize : b.size = P.size := by
      obtain ⟨R, hR, hbsz, e, he, hblock⟩ := h.place b hb
      by_cases hRP : R.addr = P.addr
      · rw [List.inj_on_of_nodup_map h.addrs hR hP hRP] at hbsz
        exact LiveBlock.size_eq hbsz
      · exact absurd (hblock.symm.trans hptr) (block_ne hRP he hd)
    have hone : P.used = P.size + (P.giveBack d hd hnot).used := by
      change P.size * (P.nblocks - P.free.length) = P.size + P.size * (P.nblocks - (P.free.length + 1))
      have hle : P.free.length + 1 ≤ P.nblocks := (P.giveBack d hd hnot).length_free_le
      rw [show P.nblocks - P.free.length = (P.nblocks - (P.free.length + 1)) + 1 by omega, Nat.mul_succ]
      omega
    have hsum := h.used
    rw [hperm.sum_eq, List.map_cons, List.sum_cons, hsize] at hsum
    simp only [List.map_append, List.map_cons, List.sum_append, List.sum_cons, hone] at hsum ⊢
    omega

/-- A page with all its blocks free goes away. -/
theorem drop (h : KheapBlocks (A ++ P :: B) live) (hall : P.free.length = P.nblocks) : KheapBlocks (A ++ B) live := by
  refine ⟨?_, fun R hR d hd => h.free R (mem_middle hR) d hd, fun b hb => ?_, h.once, ?_⟩
  · have haddrs := h.addrs
    rw [List.map_append, List.map_cons, List.nodup_middle, List.nodup_cons, ← List.map_append] at haddrs
    exact haddrs.2
  · obtain ⟨R, hR, hbsz, d, hd, hptr⟩ := h.place b hb
    rcases mem_split hR with rfl | hR
    -- a page without live blocks
    · have hperm : R.free.Perm ((List.range R.nblocks).map R.block) := by
        have hsubset : R.free ⊆ (List.range R.nblocks).map R.block := fun x hx => by
          obtain ⟨e, he, rfl⟩ := R.free_block hx
          exact List.mem_map_of_mem (List.mem_range.mpr he)
        refine (List.Nodup.subperm R.nodup hsubset).perm_of_length_le ?_
        rw [hall, List.length_map, List.length_range]
      have hmem : R.block d ∈ R.free := hperm.mem_iff.mpr (List.mem_map_of_mem (List.mem_range.mpr hd))
      exact absurd hptr ((h.free R (by simp) d hd).mp hmem b hb)
    · exact ⟨R, hR, hbsz, d, hd, hptr⟩
  · have hzero : P.used = 0 := by rw [HeapPage.used, hall, Nat.sub_self, Nat.mul_zero]
    have hsum := h.used
    simp only [List.map_append, List.map_cons, List.sum_append, List.sum_cons, hzero] at hsum ⊢
    omega

end KheapBlocks

end Os161
