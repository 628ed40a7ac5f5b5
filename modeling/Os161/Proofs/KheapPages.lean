import Os161.Proofs.Uio
import Os161.Spec.Kmalloc

/-! The pages of blocks as the allocator means them, and how its pointers represent
them. The sections under the lock are then steps on lists of pages. -/

namespace Os161

open Op

/-- The block sizes divide the page, and a block has room for a link. -/
theorem sizes_spec {k : ℕ} (h : k < 8) : 16 ≤ sizes k ∧ sizes k % 4 = 0 ∧ 4096 / sizes k * sizes k = 4096 ∧
    2 ≤ 4096 / sizes k ∧ 4096 / sizes k ≤ 256 := by
  have hall : ∀ k < 8, 16 ≤ sizes k ∧ sizes k % 4 = 0 ∧ 4096 / sizes k * sizes k = 4096 ∧
      2 ≤ 4096 / sizes k ∧ 4096 / sizes k ≤ 256 := by decide
  exact hall k h

/-- A page of blocks with its pageref, which is entry `idx` of the pageref page of a
root, and the free blocks in the order of the free list. -/
structure HeapPage where
  pr : ℕ
  root : ℕ
  idx : ℕ
  addr : ℕ
  blktype : ℕ
  free : List ℕ
  type_lt : blktype < 8
  root_lt : root < 16
  idx_lt : idx < 256
  aligned : addr % 4096 = 0
  pos : addr ≠ 0
  bound : addr + 4096 ≤ 4294967296
  blocks : ∀ x ∈ free, ∃ c < 4096 / sizes blktype, x = addr + c * sizes blktype
  nodup : free.Nodup

namespace HeapPage

variable {P P' : HeapPage} {c d x : ℕ}

def size (P : HeapPage) : ℕ := sizes P.blktype

/-- The number of blocks. -/
def nblocks (P : HeapPage) : ℕ := 4096 / P.size

def block (P : HeapPage) (c : ℕ) : ℕ := P.addr + c * P.size

def slot (P : HeapPage) : ℕ × ℕ := (P.root, P.idx)

theorem size_pos : 16 ≤ P.size := (sizes_spec P.type_lt).1

theorem nblocks_mul : P.nblocks * P.size = 4096 := (sizes_spec P.type_lt).2.2.1

theorem block_end (h : c < P.nblocks) : P.block c + P.size ≤ P.addr + 4096 := by
  have hle : (c + 1) * P.size ≤ P.nblocks * P.size := Nat.mul_le_mul_right _ h
  rw [nblocks_mul, Nat.succ_mul] at hle
  unfold block
  omega

theorem block_apart (h : c ≠ d) : Apart (P.block c) P.size (P.block d) P.size := by
  unfold Apart block
  rcases Nat.lt_or_gt_of_ne h with hlt | hlt
  · have hle : (c + 1) * P.size ≤ d * P.size := Nat.mul_le_mul_right _ hlt
    rw [Nat.succ_mul] at hle
    omega
  · have hle : (d + 1) * P.size ≤ c * P.size := Nat.mul_le_mul_right _ hlt
    rw [Nat.succ_mul] at hle
    omega

/-- Two pages are the same or have no byte in common. -/
theorem addr_apart (h : P.addr ≠ P'.addr) : Apart P.addr 4096 P'.addr 4096 := by
  have h1 := P.aligned
  have h2 := P'.aligned
  unfold Apart
  omega

theorem free_block (h : x ∈ P.free) : ∃ c < P.nblocks, x = P.block c := P.blocks x h

theorem free_bounds (h : x ∈ P.free) : P.addr ≤ x ∧ x + P.size ≤ P.addr + 4096 := by
  obtain ⟨c, hc, rfl⟩ := P.free_block h
  exact ⟨Nat.le_add_right .., block_end hc⟩

theorem block_mem_page (h : c < P.nblocks) : P.addr ≤ P.block c ∧ P.block c < P.addr + 4096 := by
  have hend := block_end h
  have hsize := P.size_pos
  exact ⟨Nat.le_add_right .., by omega⟩

/-- There are at most as many free blocks as blocks. -/
theorem length_free_le : P.free.length ≤ P.nblocks := by
  have hsub : P.free ⊆ (List.range P.nblocks).map P.block := fun x hx => by
    obtain ⟨c, hc, rfl⟩ := P.free_block hx
    exact List.mem_map_of_mem (List.mem_range.mpr hc)
  have hle := (List.Nodup.subperm P.nodup hsub).length_le
  rwa [List.length_map, List.length_range] at hle

/-- A free block is taken. -/
def pop (P : HeapPage) (F : List ℕ) (h : P.free = x :: F) : HeapPage :=
  { P with
    free := F
    blocks := fun y hy => P.blocks y (h ▸ List.mem_cons_of_mem x hy)
    nodup := (List.nodup_cons.mp (h ▸ P.nodup)).2 }

/-- A block is given back. -/
def giveBack (P : HeapPage) (c : ℕ) (hc : c < P.nblocks) (hfree : P.block c ∉ P.free) : HeapPage :=
  { P with
    free := P.block c :: P.free
    blocks := fun y hy => by
      rcases List.mem_cons.mp hy with rfl | hy
      · exact ⟨c, hc, rfl⟩
      · exact P.blocks y hy
    nodup := List.nodup_cons.mpr ⟨hfree, P.nodup⟩ }

end HeapPage

/-- The offset of the first free block. -/
def HeapPage.offset (P : HeapPage) : ℕ :=
  match P.free with
  | [] => invalidOffset
  | x :: _ => x - P.addr

/-- The pageref and the words of the free blocks represent a page. -/
structure Kheap.RefOk (h : Kheap) (P : HeapPage) : Prop where
  pab : (h.refs P.pr).pageaddrAndBlocktype = P.addr + P.blktype
  offset : (h.refs P.pr).freelistOffset = P.offset
  nfree : (h.refs P.pr).nfree = P.free.length
  linked : Linked 0 h.mem (P.free.headD 0) P.free
  page : (h.kheaproots P.root).page ≠ 0
  addr : P.pr = (h.kheaproots P.root).page + 16 * P.idx
  inuse : (h.kheaproots P.root).pagerefsInuse P.idx = true

namespace Kheap.RefOk

variable {h h' : Kheap} {P : HeapPage} {x : ℕ} {F : List ℕ}

theorem pageaddr (hP : h.RefOk P) : (h.refs P.pr).pageaddr = P.addr := by
  have h1 := P.aligned
  have h2 := P.type_lt
  rw [Pageref.pageaddr, hP.pab]
  omega

theorem blktype (hP : h.RefOk P) : (h.refs P.pr).blktype = P.blktype := by
  have h1 := P.aligned
  have h2 := P.type_lt
  rw [Pageref.blktype, hP.pab]
  omega

theorem offset_cons (hP : h.RefOk P) (hfree : P.free = x :: F) :
    (h.refs P.pr).freelistOffset < 4096 ∧ x = P.addr + (h.refs P.pr).freelistOffset := by
  have hbounds := P.free_bounds (x := x) (by rw [hfree]; exact List.mem_cons_self)
  have hsize := P.size_pos
  rw [hP.offset, HeapPage.offset, hfree]
  simp only
  omega

theorem freeHead (hP : h.RefOk P) : (h.refs P.pr).freeHead = P.free.headD 0 := by
  rw [Pageref.freeHead, hP.pageaddr]
  cases hfree : P.free with
  | nil =>
    rw [if_pos (by rw [hP.offset, HeapPage.offset, hfree])]
    rfl
  | cons x F =>
    obtain ⟨hlt, hx⟩ := hP.offset_cons hfree
    rw [if_neg (by unfold invalidOffset; omega), ← hx]
    rfl

theorem free (hP : h.RefOk P) : h.FreeList P.pr P.free := by
  rw [Kheap.FreeList, hP.freeHead]
  exact hP.linked

/-- What represents a page are these fields, the words of its free blocks and its
entry of the root. -/
theorem congr (hP : h.RefOk P)
    (hpab : (h'.refs P.pr).pageaddrAndBlocktype = (h.refs P.pr).pageaddrAndBlocktype)
    (hoffset : (h'.refs P.pr).freelistOffset = (h.refs P.pr).freelistOffset)
    (hnfree : (h'.refs P.pr).nfree = (h.refs P.pr).nfree) (hmem : ∀ x ∈ P.free, h'.mem x = h.mem x)
    (hpage : (h'.kheaproots P.root).page = (h.kheaproots P.root).page)
    (hinuse : (h'.kheaproots P.root).pagerefsInuse P.idx = (h.kheaproots P.root).pagerefsInuse P.idx) :
    h'.RefOk P :=
  ⟨hpab.trans hP.pab, hoffset.trans hP.offset, hnfree.trans hP.nfree, hP.linked.congr hmem, hpage ▸ hP.page,
    hpage ▸ hP.addr, hinuse.trans hP.inuse⟩

end Kheap.RefOk

/-- The heap represents a list of pages, in the order of `allbase`; the lists of the
block types are its parts. -/
structure Kheap.Repr (h : Kheap) (pages : List HeapPage) : Prop where
  all : Linked 0 (fun pr => (h.refs pr).nextAll) h.allbase (pages.map HeapPage.pr)
  same : ∀ k < 8, Linked 0 (fun pr => (h.refs pr).nextSamesize) (h.sizebases k)
    ((pages.filter fun P => P.blktype = k).map HeapPage.pr)
  ref : ∀ P ∈ pages, h.RefOk P

namespace Kheap.Repr

variable {h h' : Kheap} {pages : List HeapPage} {P P' : HeapPage} {c : Prop}

theorem nodup (hr : h.Repr pages) : (pages.map HeapPage.pr).Nodup := hr.all.nodup

theorem eq_of_pr (hr : h.Repr pages) (hP : P ∈ pages) (hP' : P' ∈ pages) (he : P.pr = P'.pr) : P = P' :=
  List.inj_on_of_nodup_map hr.nodup hP hP' he

theorem slots_nodup (hr : h.Repr pages) : (pages.map HeapPage.slot).Nodup := by
  have hpr : pages.map HeapPage.pr =
      (pages.map HeapPage.slot).map fun x => (h.kheaproots x.1).page + 16 * x.2 := by
    rw [List.map_map]
    exact List.map_congr_left fun P hP => (hr.ref P hP).addr
  have hnodup := hr.nodup
  rw [hpr] at hnodup
  exact hnodup.of_map _

/-- No list is longer than there are pagerefs. -/
theorem length_le (hr : h.Repr pages) : pages.length ≤ totalPagerefs := by
  have hsub : (pages.map HeapPage.slot).toFinset ⊆ Finset.range 16 ×ˢ Finset.range 256 := by
    intro x hx
    rw [List.mem_toFinset, List.mem_map] at hx
    obtain ⟨P, -, rfl⟩ := hx
    exact Finset.mem_product.mpr ⟨Finset.mem_range.mpr P.root_lt, Finset.mem_range.mpr P.idx_lt⟩
  have hcard := Finset.card_le_card hsub
  rw [List.toFinset_card_of_nodup hr.slots_nodup, List.length_map, Finset.card_product, Finset.card_range,
    Finset.card_range] at hcard
  exact hcard

theorem findPage_wp (hr : h.Repr pages) {k : ℕ} (hk : k < 8) {Q : Option ℕ → Kheap → Prop}
    {E : Empty → Kheap → Prop} (hnone : (∀ P ∈ pages, P.blktype = k → P.free = []) → Q none h)
    (hsome : ∀ P ∈ pages, P.blktype = k → P.free ≠ [] → Q (some P.pr) h) : (findPage k).wp c Q E h := by
  have hlen : ((pages.filter fun P => P.blktype = k).map HeapPage.pr).length ≤ totalPagerefs := by
    rw [List.length_map]
    exact (List.length_filter_le ..).trans hr.length_le
  have hmem {P : HeapPage} : P ∈ pages.filter (fun P => P.blktype = k) ↔ P ∈ pages ∧ P.blktype = k := by simp
  unfold findPage
  simp only [wp_bind, wp_get]
  refine wp_forLinked_find (fun pr => 0 < (h.refs pr).nfree) (fun pr hpr => ?_) (fun pr hpr hgood => ?_)
    (fun hbad => ?_) hlen (hr.same k hk)
  · obtain ⟨P, hP, rfl⟩ := List.mem_map.mp hpr
    rw [hmem] at hP
    simp only [wp_bind, wp_get]
    refine (wp_kassert_of ((hr.ref P hP.1).blktype.trans hP.2)).mpr ?_
    rw [wp_ite]
    exact ⟨fun hpos => ⟨rfl, Or.inl ⟨rfl, hpos⟩⟩, fun hzero => ⟨rfl, Or.inr ⟨rfl, hzero⟩⟩⟩
  · obtain ⟨P, hP, rfl⟩ := List.mem_map.mp hpr
    rw [hmem] at hP
    rw [(hr.ref P hP.1).nfree, List.length_pos_iff] at hgood
    exact hsome P hP.1 hP.2 hgood
  · refine hnone fun P hP hPk => ?_
    have hzero := hbad P.pr (List.mem_map_of_mem (hmem.mpr ⟨hP, hPk⟩))
    rw [(hr.ref P hP).nfree, List.length_pos_iff, not_not] at hzero
    exact hzero

theorem findPageOf_wp (hr : h.Repr pages) {a : ℕ} {Q : Option ℕ → Kheap → Prop} {E : Empty → Kheap → Prop}
    (hnone : (∀ P ∈ pages, ¬ (P.addr ≤ a ∧ a < P.addr + 4096)) → Q none h)
    (hsome : ∀ P ∈ pages, P.addr ≤ a → a < P.addr + 4096 → Q (some P.pr) h) : (findPageOf a).wp c Q E h := by
  have hlen : (pages.map HeapPage.pr).length ≤ totalPagerefs := by
    rw [List.length_map]
    exact hr.length_le
  unfold findPageOf
  simp only [wp_bind, wp_get]
  refine wp_forLinked_find (fun pr => (h.refs pr).pageaddr ≤ a ∧ a < (h.refs pr).pageaddr + 4096)
    (fun pr hpr => ?_) (fun pr hpr hgood => ?_) (fun hbad => ?_) hlen hr.all
  · obtain ⟨P, hP, rfl⟩ := List.mem_map.mp hpr
    simp only [wp_bind, wp_get]
    refine (wp_kassert_of ((hr.ref P hP).blktype.trans_lt P.type_lt)).mpr ?_
    rw [wp_ite]
    exact ⟨fun hin => ⟨rfl, Or.inl ⟨rfl, hin⟩⟩, fun hout => ⟨rfl, Or.inr ⟨rfl, hout⟩⟩⟩
  · obtain ⟨P, hP, rfl⟩ := List.mem_map.mp hpr
    rw [(hr.ref P hP).pageaddr] at hgood
    exact hsome P hP hgood.1 hgood.2
  · refine hnone fun P hP => ?_
    rw [← (hr.ref P hP).pageaddr]
    exact hbad P.pr (List.mem_map_of_mem hP)

end Kheap.Repr

/-! ### Statistics -/

variable {h : Kheap} {P : HeapPage} {c : Prop}

/-- The bytes of a page that are in use. -/
def HeapPage.used (P : HeapPage) : ℕ := P.size * (P.nblocks - P.free.length)

theorem HeapPage.used_le : P.used ≤ 4096 := by
  have hle : P.size * (P.nblocks - P.free.length) ≤ P.size * P.nblocks := Nat.mul_le_mul_left _ (Nat.sub_le ..)
  rwa [Nat.mul_comm P.size P.nblocks, P.nblocks_mul] at hle

theorem subpageStats_wp (hP : h.RefOk P) {Q : ℕ → Kheap → Prop} {E : Empty → Kheap → Prop}
    (hQ : Q P.used h) : (subpageStats P.pr).wp c Q E h := by
  obtain ⟨-, -, -, -, hn⟩ := sizes_spec P.type_lt
  have hle := P.length_free_le
  have hbound := P.bound
  have hsize := P.size_pos
  have hused : u32 ((P.size : ℤ) * u32 ((P.nblocks : ℤ) - P.free.length)) = P.used := by
    rw [u32_sub hle (hn.trans_lt (by decide)), ← Nat.cast_mul]
    exact u32_natCast (P.used_le.trans_lt (by decide))
  unfold subpageStats
  simp only [wp_bind, wp_get]
  refine (wp_kassert_of (hP.blktype.trans_lt P.type_lt)).mpr ?_
  rw [hP.blktype, hP.pageaddr, hP.nfree]
  refine (wp_kassert_of hn).mpr ?_
  have hresult : Q (u32 ((P.size : ℤ) * u32 ((P.nblocks : ℤ) - P.free.length))) h := hused ▸ hQ
  rw [wp_ite]
  refine ⟨fun hoff => ?_, fun _ => hresult⟩
  have hlist : Linked 0 h.mem (P.addr + (h.refs P.pr).freelistOffset) P.free := by
    have hfree := hP.free
    rwa [Kheap.FreeList, Pageref.freeHead, if_neg hoff, hP.pageaddr] at hfree
  rw [wp_bind]
  refine wp_forLinked (fun rest _ => rest ⊆ P.free) (fun x rest _ hrest => ?_) (fun _ _ => hresult)
    (hle.trans hn) hlist (List.Subset.refl _)
  have hbounds := P.free_bounds (hrest List.mem_cons_self)
  simp only [wp_bind]
  refine (wp_kassert_of ?_).mpr ⟨rfl, fun y hy => hrest (List.mem_cons_of_mem x hy)⟩
  obtain ⟨d, hd, rfl⟩ := P.free_block (hrest List.mem_cons_self)
  rw [u32_sub hbounds.1 (by omega), HeapPage.block, Nat.add_sub_cancel_left]
  rw [show sizes P.blktype = P.size from rfl, Nat.mul_div_cancel _ (by omega)]
  exact hd

/-- `kheap_getused` counts the blocks that are not free. -/
theorem Kheap.Repr.getused {pages : List HeapPage} (hr : h.Repr pages) :
    kheapGetused 0 h = .ok (pages.map HeapPage.used).sum h := by
  have hsum (l : List HeapPage) : (l.map HeapPage.used).sum ≤ l.length * 4096 := by
    have hle := List.sum_le_card_nsmul (l.map HeapPage.used) 4096 fun x hx => by
      obtain ⟨P, -, rfl⟩ := List.mem_map.mp hx
      exact P.used_le
    rwa [List.length_map, smul_eq_mul] at hle
  have hwp : (kheapGetused 0).wp False (fun n t => n = (pages.map HeapPage.used).sum ∧ t = h) (fun _ _ => False) h := by
    have hlen : (pages.map HeapPage.pr).length ≤ totalPagerefs := by
      rw [List.length_map]
      exact hr.length_le
    unfold kheapGetused
    simp only [wp_bind, wp_get]
    refine wp_forLinked (fun rest acc => ∃ seen left, pages = seen ++ left ∧ rest = left.map HeapPage.pr ∧
      acc.1 = (seen.map HeapPage.used).sum) (fun pr rest acc hI => ?_) (fun acc hI => ?_) hlen hr.all
      ⟨[], pages, rfl, rfl, rfl⟩
    · obtain ⟨seen, left, hsplit, hrest, hacc⟩ := hI
      cases left with
      | nil => exact absurd hrest (List.cons_ne_nil _ _)
      | cons P left =>
        rw [List.map_cons, List.cons.injEq] at hrest
        obtain ⟨rfl, rfl⟩ := hrest
        have hP : P ∈ pages := by simp [hsplit]
        have hsplit' : pages = (seen ++ [P]) ++ left := by simp [hsplit]
        have hbound : ((seen ++ [P]).map HeapPage.used).sum < 4294967296 := by
          have h1 := hsum (seen ++ [P])
          have h2 := hr.length_le
          rw [hsplit', List.length_append] at h2
          unfold totalPagerefs at h2
          omega
        simp only [wp_bind]
        refine subpageStats_wp (hr.ref P hP) ⟨rfl, seen ++ [P], left, hsplit', rfl, ?_⟩
        simp only [List.map_append, List.sum_append, List.map_cons, List.map_nil, List.sum_singleton] at hbound ⊢
        rw [hacc, ← Nat.cast_add]
        exact u32_natCast hbound
    · obtain ⟨seen, left, hsplit, hrest, hacc⟩ := hI
      have hnil : left = [] := List.map_eq_nil_iff.mp hrest.symm
      rw [hnil, List.append_nil] at hsplit
      rw [hsplit]
      exact ⟨hacc, rfl⟩
  obtain ⟨n, t, ht, rfl, rfl⟩ | ⟨e, -⟩ | ⟨-, hF⟩ := hwp.cases
  · exact ht
  · exact e.elim
  · exact hF.elim

end Os161
