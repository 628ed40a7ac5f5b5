import Os161.Proofs.KheapPages

/-! What each section of `subpage_kmalloc` and `subpage_kfree` under the lock does to
the pages. -/

namespace Os161

open Op

variable {h h' : Kheap} {A B : List HeapPage} {P P' : HeapPage} {c : Prop} {x : ℕ} {F : List ℕ}
  {E : Empty → Kheap → Prop}

theorem u16_natCast {k : ℕ} (hk : k < 65536) : u16 k = k := by
  unfold u16
  omega

theorem u16_sub {a b : ℕ} (hle : b ≤ a) (ha : a - b < 65536) : u16 ((a : ℤ) - b) = a - b := by
  unfold u16
  omega

namespace Kheap.Repr

/-- The pages before and behind one of them have other pagerefs. -/
theorem pr_ne (hr : h.Repr (A ++ P :: B)) {R : HeapPage} (hR : R ∈ A ++ B) : R.pr ≠ P.pr := by
  have hnodup := hr.nodup
  rw [List.map_append, List.map_cons, List.nodup_middle, List.nodup_cons, ← List.map_append] at hnodup
  exact fun he => hnodup.1 (he ▸ List.mem_map_of_mem hR)

theorem self_ref (hr : h.Repr (A ++ P :: B)) : h.RefOk P := hr.ref P (by simp)

theorem other_ref (hr : h.Repr (A ++ P :: B)) {R : HeapPage} (hR : R ∈ A ++ B) : h.RefOk R := by
  refine hr.ref R ?_
  rw [List.mem_append] at hR
  rw [List.mem_append, List.mem_cons]
  tauto

/-- One page changes, and the lists stay as they are. -/
theorem replace (hr : h.Repr (A ++ P :: B)) (hall : h'.allbase = h.allbase) (hsizes : h'.sizebases = h.sizebases)
    (hnextAll : ∀ pr, (h'.refs pr).nextAll = (h.refs pr).nextAll)
    (hnextSame : ∀ pr, (h'.refs pr).nextSamesize = (h.refs pr).nextSamesize)
    (hpr : P'.pr = P.pr) (htype : P'.blktype = P.blktype)
    (hother : ∀ R ∈ A ++ B, h'.RefOk R) (hself : h'.RefOk P') : h'.Repr (A ++ P' :: B) := by
  refine ⟨?_, fun k hk => ?_, fun R hR => ?_⟩
  · simp only [hnextAll, hall, List.map_append, List.map_cons, hpr]
    simpa only [List.map_append, List.map_cons] using hr.all
  · have hsame := hr.same k hk
    simp only [hnextSame, hsizes, List.filter_append, List.filter_cons, htype] at hsame ⊢
    split_ifs at hsame ⊢
    · simp only [List.map_append, List.map_cons, hpr] at hsame ⊢
      exact hsame
    · exact hsame
  · rw [List.mem_append, List.mem_cons] at hR
    rcases hR with hR | rfl | hR
    · exact hother R (List.mem_append_left B hR)
    · exact hself
    · exact hother R (List.mem_append_right A hR)

end Kheap.Repr

@[simp] theorem Kheap.refs_setRef_self (pr : ℕ) (f : Pageref → Pageref) : (h.setRef pr f).refs pr = f (h.refs pr) :=
  Function.update_self ..

theorem Kheap.refs_setRef_of_ne {pr pr' : ℕ} (hne : pr' ≠ pr) (f : Pageref → Pageref) :
    (h.setRef pr f).refs pr' = h.refs pr' :=
  Function.update_of_ne hne ..

@[simp] theorem Kheap.roots_setRoot_self (r : ℕ) (f : KheapRoot → KheapRoot) :
    (h.setRoot r f).kheaproots r = f (h.kheaproots r) :=
  Function.update_self ..

theorem Kheap.roots_setRoot_of_ne {r r' : ℕ} (hne : r' ≠ r) (f : KheapRoot → KheapRoot) :
    (h.setRoot r f).kheaproots r' = h.kheaproots r' :=
  Function.update_of_ne hne ..

/-- A field that `f` keeps is the same in every pageref. -/
theorem Kheap.field_setRef {pr : ℕ} {f : Pageref → Pageref} {β : Type} (g : Pageref → β)
    (hg : g (f (h.refs pr)) = g (h.refs pr)) (pr' : ℕ) : g ((h.setRef pr f).refs pr') = g (h.refs pr') := by
  by_cases he : pr' = pr
  · subst he
    rw [refs_setRef_self, hg]
  · rw [refs_setRef_of_ne he]

/-- The first free block is taken. -/
theorem doalloc_wp (hr : h.Repr (A ++ P :: B)) (hfree : P.free = x :: F) {Q : ℕ → Kheap → Prop}
    (hQ : ∀ h', h'.Repr (A ++ P.pop F hfree :: B) → h'.kheaproots = h.kheaproots → Q x h') :
    (doalloc P.pr).wp c Q E h := by
  have hP := hr.self_ref
  obtain ⟨hoffset, hx⟩ := hP.offset_cons hfree
  have hlen : F.length + 1 ≤ 256 := by
    have hle := P.length_free_le.trans (sizes_spec P.type_lt).2.2.2.2
    rwa [hfree] at hle
  have hnfree : u16 (((h.refs P.pr).nfree : ℤ) - 1) = F.length := by
    rw [hP.nfree, hfree, List.length_cons, u16]
    omega
  have hlinked := hP.linked
  rw [hfree] at hlinked
  -- the heap after the new offset is stored
  have hstore (o : ℕ) (ho : o = (P.pop F hfree).offset) :
      Q x (h.setRef P.pr fun p => { p with nfree := F.length, freelistOffset := o }) := by
    refine hQ _ (hr.replace rfl rfl (Kheap.field_setRef _ rfl) (Kheap.field_setRef _ rfl) rfl rfl
      (fun R hR => ?_) ?_) rfl
    · have hne := hr.pr_ne hR
      exact (hr.other_ref hR).congr (by rw [Kheap.refs_setRef_of_ne hne]) (by rw [Kheap.refs_setRef_of_ne hne])
        (by rw [Kheap.refs_setRef_of_ne hne]) (fun _ _ => rfl) rfl rfl
    · refine ⟨?_, ?_, ?_, ?_, hP.page, hP.addr, hP.inuse⟩
      · exact (congrArg Pageref.pageaddrAndBlocktype (Kheap.refs_setRef_self ..)).trans hP.pab
      · exact (congrArg Pageref.freelistOffset (Kheap.refs_setRef_self ..)).trans ho
      · exact congrArg Pageref.nfree (Kheap.refs_setRef_self ..)
      · have hrest := hlinked.2.2
        rw [hrest.head_eq] at hrest
        exact hrest
  unfold doalloc
  simp only [wp_bind, wp_get]
  refine (wp_kassert_of hoffset).mpr ?_
  rw [hP.pageaddr, ← hx, hnfree, wp_ite]
  refine ⟨fun hne => ?_, fun hzero => ?_⟩
  · cases F with
    | nil => exact absurd hlinked.2.2 hne
    | cons y F =>
      obtain ⟨hy, -⟩ := hlinked.2.2
      have hbounds := (P.pop (y :: F) hfree).free_bounds (x := y) List.mem_cons_self
      have hbound := P.bound
      have hsize : 16 ≤ (P.pop (y :: F) hfree).size := P.size_pos
      have haddr : (P.pop (y :: F) hfree).addr = P.addr := rfl
      simp only [wp_bind, hy]
      refine (wp_kassert_of (by rw [List.length_cons]; omega)).mpr ((wp_kassert_of ?_).mpr (hstore _ ?_))
      · rw [u32_sub (by omega) (by omega)]
        omega
      · rw [u16_sub (by omega) (by omega)]
        rfl
  · cases F with
    | nil =>
      simp only [wp_bind]
      exact (wp_kassert_of rfl).mpr (hstore _ rfl)
    | cons y F => exact absurd hlinked.2.2.1 (by rw [not_not.mp hzero]; exact hlinked.2.2.2.1.symm)

theorem subpageKmalloc_wp {pages : List HeapPage} (hr : h.Repr pages) {k : ℕ} (hk : k < 8)
    {Q : Option ℕ → Kheap → Prop} (hnone : Q none h)
    (hsome : ∀ A P B x F (hfree : P.free = x :: F) h', pages = A ++ P :: B → P.blktype = k →
      h'.Repr (A ++ P.pop F hfree :: B) → h'.kheaproots = h.kheaproots → Q (some x) h') :
    (subpageKmalloc k).wp c Q E h := by
  unfold subpageKmalloc
  rw [wp_bind]
  refine hr.findPage_wp hk (fun _ => hnone) fun P hP hPk hne => ?_
  obtain ⟨A, B, rfl⟩ := List.append_of_mem hP
  obtain ⟨x, F, hfree⟩ := List.exists_cons_of_ne_nil hne
  simp only [wp_bind, wp_pure]
  exact doalloc_wp hr hfree fun h' hr' hroots => hsome A P B x F hfree h' rfl hPk hr' hroots

/-! ### A new page -/

/-- All the blocks of a page, from the last one down. -/
def HeapPage.allBlocks (P : HeapPage) : List ℕ := (List.range P.nblocks).reverse.map P.block

/-- The list that `threadBlocks` has made after block `k`. -/
theorem blocksDown_succ (f : ℕ → ℕ) (k : ℕ) :
    (List.range (k + 1 + 1)).reverse.map f = f (k + 1) :: (List.range (k + 1)).reverse.map f := by
  rw [List.range_succ, List.reverse_append]
  rfl

theorem threadBlocks_wp {prpage size nfree : ℕ} (hpos : prpage ≠ 0) (hsize : 0 < size) (hn : 0 < nfree)
    {Q : ℕ → Kheap → Prop}
    (hQ : ∀ m, Linked 0 m (prpage + (nfree - 1) * size) ((List.range nfree).reverse.map fun i => prpage + i * size) →
      (∀ a, (∀ i < nfree, a ≠ prpage + i * size) → m a = h.mem a) →
      Q (prpage + (nfree - 1) * size) { h with mem := m }) :
    (threadBlocks prpage size nfree).wp c Q E h := by
  unfold threadBlocks storeWord
  simp only [wp_bind, wp_modify]
  -- after `k` turns the blocks up to `k` are linked
  refine wp_foldlM_range (fun k fl g => fl = prpage + k * size ∧ ∃ m, g = { h with mem := m } ∧
      Linked 0 m fl ((List.range (k + 1)).reverse.map fun i => prpage + i * size) ∧
      ∀ a, (∀ i < k + 1, a ≠ prpage + i * size) → m a = h.mem a) (fun k hk fl g hI => ?_) (fun fl g hI => ?_) ?_
  · obtain ⟨rfl, m, rfl, hlinked, hframe⟩ := hI
    have hapart (i : ℕ) (hi : i < k + 1) : prpage + i * size ≠ prpage + (k + 1) * size := by
      have hlt : i * size < (k + 1) * size := Nat.mul_lt_mul_of_pos_right hi hsize
      omega
    simp only [wp_bind, wp_modify]
    refine (wp_kassert_of (hapart k (Nat.lt_succ_self k)).symm).mpr ?_
    refine ⟨rfl, _, rfl, ?_, fun a ha => ?_⟩
    · rw [blocksDown_succ]
      refine hlinked.push (by omega) (Function.update_self ..) fun y hy => ?_
      simp only [List.mem_map, List.mem_reverse, List.mem_range] at hy
      obtain ⟨i, hi, rfl⟩ := hy
      exact Function.update_of_ne (hapart i hi) ..
    · rw [Function.update_of_ne (ha (k + 1) (Nat.lt_succ_self _))]
      exact hframe a fun i hi => ha i (Nat.lt_succ_of_lt hi)
  · obtain ⟨rfl, m, rfl, hlinked, hframe⟩ := hI
    rw [Nat.sub_add_cancel hn] at hlinked hframe
    exact hQ m hlinked hframe
  · refine ⟨by omega, _, rfl, ?_, fun a ha => ?_⟩
    · have hone : ((List.range (0 + 1)).reverse.map fun i => prpage + i * size) = [prpage] := by simp
      rw [hone]
      exact ⟨rfl, hpos, Function.update_self ..⟩
    · have hne := ha 0 (Nat.lt_succ_self 0)
      rw [Nat.zero_mul, Nat.add_zero] at hne
      exact Function.update_of_ne hne ..

/-- A page is put at the head of both its lists. -/
theorem Kheap.Repr.cons {pages : List HeapPage} (hr : h.Repr pages) (hnew : ∀ R ∈ pages, R.pr ≠ P.pr)
    (hpr : P.pr ≠ 0) (hall : h'.allbase = P.pr) (hnextAll : (h'.refs P.pr).nextAll = h.allbase)
    (hsizes : h'.sizebases = Function.update h.sizebases P.blktype P.pr)
    (hnextSame : (h'.refs P.pr).nextSamesize = h.sizebases P.blktype)
    (hrefs : ∀ pr, pr ≠ P.pr → h'.refs pr = h.refs pr)
    (hother : ∀ R ∈ pages, h'.RefOk R) (hself : h'.RefOk P) : h'.Repr (P :: pages) := by
  have hmem {l : List HeapPage} (hl : ∀ R ∈ l, R ∈ pages) {β : Type} (g : Pageref → β) :
      ∀ pr ∈ l.map HeapPage.pr, g (h'.refs pr) = g (h.refs pr) := by
    intro pr hmem
    obtain ⟨R, hR, rfl⟩ := List.mem_map.mp hmem
    rw [hrefs R.pr (hnew R (hl R hR))]
  refine ⟨?_, fun k hk => ?_, fun R hR => ?_⟩
  · rw [hall, List.map_cons]
    exact hr.all.push hpr hnextAll (hmem (fun _ hR => hR) Pageref.nextAll)
  · have hsub := hmem (l := pages.filter fun R => R.blktype = k) (fun R hR => List.mem_of_mem_filter hR)
      Pageref.nextSamesize
    rw [hsizes, List.filter_cons]
    by_cases hk : P.blktype = k
    · subst hk
      rw [Function.update_self, if_pos (by simp), List.map_cons]
      exact (hr.same _ P.type_lt).push hpr hnextSame hsub
    · rw [Function.update_of_ne (Ne.symm hk), if_neg (by simp [hk])]
      exact (hr.same k ‹_›).congr hsub
  · rcases List.mem_cons.mp hR with rfl | hR
    · exact hself
    · exact hother R hR

theorem subpageNewpage_wp {pages : List HeapPage} (hr : h.Repr pages) (hfree : P.free = P.allBlocks)
    (hpage : (h.kheaproots P.root).page ≠ 0) (haddr : P.pr = (h.kheaproots P.root).page + 16 * P.idx)
    (hinuse : (h.kheaproots P.root).pagerefsInuse P.idx = true) (hnew : ∀ R ∈ pages, R.pr ≠ P.pr)
    (hapart : ∀ R ∈ pages, R.addr ≠ P.addr) {Q : ℕ → Kheap → Prop}
    (hQ : ∀ x F (hF : P.free = x :: F) h', h'.Repr (P.pop F hF :: pages) → h'.kheaproots = h.kheaproots → Q x h') :
    (subpageNewpage P.blktype P.addr P.pr).wp c Q E h := by
  obtain ⟨hsize, -, -, hn2, hn⟩ := sizes_spec P.type_lt
  have hnfree : u16 ((4096 / sizes P.blktype : ℕ) : ℤ) = P.nblocks := u16_natCast (by omega)
  have hlast : P.block (P.nblocks - 1) + P.size ≤ P.addr + 4096 := P.block_end (by unfold HeapPage.nblocks HeapPage.size; omega)
  have hF : P.free = P.block (P.nblocks - 1) :: (List.range (P.nblocks - 1)).reverse.map P.block := by
    have hsucc := blocksDown_succ P.block (P.nblocks - 2)
    rw [show P.nblocks - 2 + 1 = P.nblocks - 1 by unfold HeapPage.nblocks HeapPage.size; omega,
      show P.nblocks - 1 + 1 = P.nblocks by unfold HeapPage.nblocks HeapPage.size; omega] at hsucc
    rw [hfree, HeapPage.allBlocks, hsucc]
  have hoffset : u16 ((P.addr + (P.nblocks - 1) * P.size : ℕ) - (P.addr : ℕ) : ℤ) = (P.nblocks - 1) * P.size := by
    unfold HeapPage.block at hlast
    rw [u16_sub (by omega) (by omega)]
    omega
  unfold subpageNewpage
  simp only [wp_bind, wp_modify, hnfree]
  refine threadBlocks_wp P.pos (by omega) (by unfold HeapPage.nblocks HeapPage.size; omega)
    fun m hlinked hframe => ?_
  simp only [show sizes P.blktype = P.size from rfl, hoffset]
  refine (wp_kassert_of (by rw [hnfree]; exact hoffset)).mpr ?_
  unfold RefList.push samesizeList allList
  simp only [wp_bind, wp_modify]
  have hpr : P.pr ≠ 0 := by omega
  refine doalloc_wp (A := []) (hr.cons hnew hpr rfl ?_ rfl ?_ (fun pr hne => ?_) (fun R hR => ?_) ?_) hF
    fun h' hr' hroots => hQ _ _ hF h' hr' hroots
  · simp [Kheap.setRef]
  · simp [Kheap.setRef]
  · simp [Kheap.setRef, hne]
  · have hne := hnew R hR
    refine (hr.ref R hR).congr (by simp [Kheap.setRef, hne]) (by simp [Kheap.setRef, hne])
      (by simp [Kheap.setRef, hne]) (fun x hx => hframe x fun i hi => ?_) rfl rfl
    have hin := R.free_bounds hx
    have hblock := P.block_mem_page hi
    have hsizeR := R.size_pos
    change x ≠ P.block i
    rcases R.addr_apart (hapart R hR) with hlt | hlt <;> omega
  · refine ⟨?_, ?_, ?_, ?_, hpage, haddr, hinuse⟩
    · have h1 := P.aligned
      have h2 := P.type_lt
      simp only [Kheap.setRef, Function.update_self, mkpab]
      omega
    · rw [HeapPage.offset, hF]
      simp [Kheap.setRef, HeapPage.block]
    · rw [hfree, HeapPage.allBlocks]
      simp [Kheap.setRef]
    · rw [hlinked.head_eq] at hlinked
      rw [hfree]
      exact hlinked

/-! ### The lists of pagerefs -/

/-- The accessors of a list fit together. -/
structure RefList.Lawful (l : RefList) : Prop where
  next_setNext : ∀ p r, l.next (l.setNext p r) = p
  base_setBase : ∀ p h, l.base (l.setBase p h) = p
  refs_setBase : ∀ p h, (l.setBase p h).refs = h.refs
  base_setRef : ∀ h pr f, l.base (Kheap.setRef h pr f) = l.base h

theorem samesizeList_lawful (k : ℕ) : (samesizeList k).Lawful :=
  ⟨fun _ _ => rfl, fun _ _ => Function.update_self .., fun _ _ => rfl, fun _ _ _ => rfl⟩

theorem allList_lawful : allList.Lawful := ⟨fun _ _ => rfl, fun _ _ => rfl, fun _ _ => rfl, fun _ _ _ => rfl⟩

variable {l : RefList} {L : List ℕ} {pr : ℕ}

/-- The pointer in front of `pr` is the link of `p` or of one behind it. -/
theorem RefList.removeFrom_wp (hl : l.Lawful) {fuel p : ℕ} (hfuel : L.length ≤ fuel) (hp : p ∉ L) (hpr : pr ∈ L)
    (hlinked : Linked 0 (fun q => l.next (h.refs q)) (l.next (h.refs p)) L) {Q : Unit → Kheap → Prop}
    (hQ : ∀ y ∈ p :: L, ∀ b,
      Linked 0 (fun q => l.next ((h.setRef y (l.setNext b)).refs q)) (l.next ((h.setRef y (l.setNext b)).refs p))
        (L.erase pr) → Q () (h.setRef y (l.setNext b))) : (l.removeFrom pr fuel p).wp c Q E h := by
  induction L generalizing p fuel with
  | nil => exact absurd hpr List.not_mem_nil
  | cons q L ih =>
    obtain ⟨hq, hq0, hrest⟩ := hlinked
    cases fuel with
    | zero => exact absurd hfuel (by simp)
    | succ fuel =>
      unfold RefList.removeFrom
      simp only [wp_bind, wp_get, hq]
      rw [if_neg hq0]
      by_cases hqr : q = pr
      · subst hqr
        rw [if_pos rfl, wp_modify]
        refine hQ p List.mem_cons_self _ ?_
        rw [List.erase_cons_head, Kheap.refs_setRef_self, hl.next_setNext]
        refine hrest.congr fun y hy => ?_
        have hne : y ≠ p := fun he => hp (he ▸ List.mem_cons_of_mem q hy)
        rw [Kheap.refs_setRef_of_ne hne]
      · rw [if_neg hqr]
        have hnodup := (show Linked 0 (fun y => l.next (h.refs y)) q (q :: L) from ⟨rfl, hq0, hrest⟩).nodup
        refine ih (Nat.le_of_succ_le_succ hfuel) (List.nodup_cons.mp hnodup).1
          ((List.mem_cons.mp hpr).resolve_left (Ne.symm hqr)) hrest fun y hy b hlinked => ?_
        refine hQ y (List.mem_cons_of_mem p hy) b ?_
        have hpy : p ≠ y := fun he => hp (he ▸ hy)
        rw [List.erase_cons_tail (by simpa using hqr), Kheap.refs_setRef_of_ne hpy]
        exact ⟨hq, hq0, hlinked⟩

theorem RefList.remove_wp (hl : l.Lawful) (hlinked : Linked 0 (fun q => l.next (h.refs q)) (l.base h) L)
    (hpr : pr ∈ L) (hlen : L.length ≤ totalPagerefs) {Q : Unit → Kheap → Prop}
    (hQ : ∀ h', Linked 0 (fun q => l.next (h'.refs q)) (l.base h') (L.erase pr) →
      ((∃ b, h' = l.setBase b h) ∨ ∃ y ∈ L, ∃ b, h' = h.setRef y (l.setNext b)) → Q () h') :
    (l.remove pr).wp c Q E h := by
  cases L with
  | nil => exact absurd hpr List.not_mem_nil
  | cons q L =>
    have hnodup := hlinked.nodup
    obtain ⟨hq, hq0, hrest⟩ := hlinked
    unfold RefList.remove
    simp only [wp_bind, wp_get, hq]
    rw [if_neg hq0]
    by_cases hqr : q = pr
    · subst hqr
      rw [if_pos rfl, wp_modify]
      refine hQ _ ?_ (Or.inl ⟨_, rfl⟩)
      rw [List.erase_cons_head, hl.base_setBase, hl.refs_setBase]
      exact hrest
    · rw [if_neg hqr]
      refine RefList.removeFrom_wp hl ((Nat.le_succ _).trans hlen) (List.nodup_cons.mp hnodup).1
        ((List.mem_cons.mp hpr).resolve_left (Ne.symm hqr)) hrest fun y hy b hlinked => ?_
      refine hQ _ ?_ (Or.inr ⟨y, hy, b, rfl⟩)
      rw [List.erase_cons_tail (by simpa using hqr), hl.base_setRef]
      exact ⟨hq, hq0, hlinked⟩

theorem erase_map_pr {M N : List HeapPage} (hne : ∀ R ∈ M, R.pr ≠ P.pr) :
    ((M ++ P :: N).map HeapPage.pr).erase P.pr = (M ++ N).map HeapPage.pr := by
  have hM : P.pr ∉ M.map HeapPage.pr := fun hmem => by
    obtain ⟨R, hR, he⟩ := List.mem_map.mp hmem
    exact hne R hR he
  rw [List.map_append, List.map_cons, List.erase_append_right _ hM, List.erase_cons_head, List.map_append]

/-- Taking a pageref off the list of its size changes one link of that list. -/
theorem samesizeList_effect {k : ℕ}
    (he : (∃ b, h' = (samesizeList k).setBase b h) ∨ ∃ y ∈ L, ∃ b, h' = h.setRef y ((samesizeList k).setNext b)) :
    h'.allbase = h.allbase ∧ h'.mem = h.mem ∧ h'.kheaproots = h.kheaproots ∧
      (∀ k', k' ≠ k → h'.sizebases k' = h.sizebases k') ∧
      (∀ pr, h'.refs pr = { h.refs pr with nextSamesize := (h'.refs pr).nextSamesize }) ∧
      ∀ pr, pr ∉ L → h'.refs pr = h.refs pr := by
  obtain ⟨b, rfl⟩ | ⟨y, hy, b, rfl⟩ := he
  · exact ⟨rfl, rfl, rfl, fun k' hk' => Function.update_of_ne hk' .., fun _ => rfl, fun _ _ => rfl⟩
  · refine ⟨rfl, rfl, rfl, fun _ _ => rfl, fun pr => ?_, fun pr hpr => ?_⟩
    · by_cases hpy : pr = y
      · rw [hpy, Kheap.refs_setRef_self]
        rfl
      · rw [Kheap.refs_setRef_of_ne hpy]
    · have hpy : pr ≠ y := fun he => hpr (he ▸ hy)
      exact Kheap.refs_setRef_of_ne hpy _

theorem allList_effect (he : (∃ b, h' = allList.setBase b h) ∨ ∃ y ∈ L, ∃ b, h' = h.setRef y (allList.setNext b)) :
    h'.sizebases = h.sizebases ∧ h'.mem = h.mem ∧ h'.kheaproots = h.kheaproots ∧
      ∀ pr, h'.refs pr = { h.refs pr with nextAll := (h'.refs pr).nextAll } := by
  obtain ⟨b, rfl⟩ | ⟨y, hy, b, rfl⟩ := he
  · exact ⟨rfl, rfl, rfl, fun _ => rfl⟩
  · refine ⟨rfl, rfl, rfl, fun pr => ?_⟩
    by_cases hpy : pr = y
    · rw [hpy, Kheap.refs_setRef_self]
      rfl
    · rw [Kheap.refs_setRef_of_ne hpy]

theorem removeLists_wp (hr : h.Repr (A ++ P :: B)) {Q : Unit → Kheap → Prop}
    (hQ : ∀ h', h'.Repr (A ++ B) → h'.kheaproots = h.kheaproots → Q () h') :
    (removeLists P.pr P.blktype).wp c Q E h := by
  have hlen := hr.length_le
  have hfilter : (A ++ P :: B).filter (fun R => R.blktype = P.blktype) =
      A.filter (fun R => R.blktype = P.blktype) ++ P :: B.filter fun R => R.blktype = P.blktype := by
    rw [List.filter_append, List.filter_cons, if_pos (by simp)]
  have hlen' : (((A ++ P :: B).filter fun R => R.blktype = P.blktype).map HeapPage.pr).length ≤ totalPagerefs := by
    rw [List.length_map]
    exact (List.length_filter_le ..).trans hlen
  have hA (R : HeapPage) (hR : R ∈ A) : R.pr ≠ P.pr := hr.pr_ne (List.mem_append_left B hR)
  unfold removeLists
  rw [wp_bind]
  refine (wp_kassert_of P.type_lt).mpr ?_
  rw [wp_bind]
  refine RefList.remove_wp (samesizeList_lawful _) (hr.same P.blktype P.type_lt) ?_ hlen' fun h₁ hsame₁ heffect₁ => ?_
  · rw [hfilter, List.map_append, List.map_cons]
    exact List.mem_append_right _ List.mem_cons_self
  obtain ⟨hall₁, hmem₁, hroots₁, hsizes₁, hrefs₁, hout₁⟩ := samesizeList_effect heffect₁
  have hall : Linked 0 (fun pr => (h₁.refs pr).nextAll) h₁.allbase ((A ++ P :: B).map HeapPage.pr) := by
    rw [hall₁]
    exact hr.all.congr fun pr _ => by rw [hrefs₁]
  refine RefList.remove_wp allList_lawful hall (by simp) (by rw [List.length_map]; exact hlen)
    fun h₂ hall₂ heffect₂ => ?_
  obtain ⟨hsizes₂, hmem₂, hroots₂, hrefs₂⟩ := allList_effect heffect₂
  rw [erase_map_pr hA] at hall₂
  rw [hfilter, erase_map_pr fun R hR => hA R (List.mem_of_mem_filter hR), ← List.filter_append] at hsame₁
  refine hQ h₂ ⟨hall₂, fun k hk => ?_, fun R hR => ?_⟩ (hroots₂.trans hroots₁)
  · have hnext (pr : ℕ) : (h₂.refs pr).nextSamesize = (h₁.refs pr).nextSamesize := by rw [hrefs₂]
    simp only [hnext, hsizes₂]
    by_cases hkP : k = P.blktype
    · subst hkP
      exact hsame₁
    -- the list of another size has none of the links that may have changed
    · have hother : (A ++ P :: B).filter (fun R => R.blktype = k) = (A ++ B).filter fun R => R.blktype = k := by
        rw [List.filter_append, List.filter_cons, if_neg (by simpa using Ne.symm hkP), List.filter_append]
      have hk' := hr.same k hk
      rw [hsizes₁ k hkP, ← hother]
      refine hk'.congr fun pr hpr => ?_
      rw [hout₁]
      intro hpr'
      obtain ⟨R, hR, rfl⟩ := List.mem_map.mp hpr
      obtain ⟨R', hR', he⟩ := List.mem_map.mp hpr'
      rw [List.mem_filter] at hR hR'
      obtain rfl := hr.eq_of_pr hR'.1 hR.1 he
      exact hkP ((of_decide_eq_true hR.2).symm.trans (of_decide_eq_true hR'.2))
  · exact (hr.other_ref hR).congr (by rw [hrefs₂, hrefs₁]) (by rw [hrefs₂, hrefs₁]) (by rw [hrefs₂, hrefs₁])
      (fun x _ => by rw [hmem₂, hmem₁]) (by rw [hroots₂, hroots₁]) (by rw [hroots₂, hroots₁])

/-! ### Giving a pageref back -/

theorem fillDeadbeef_wp {vptr len : ℕ} {Q : Unit → Kheap → Prop}
    (hQ : ∀ m, (∀ a, a < vptr ∨ vptr + len ≤ a → m a = h.mem a) → Q () { h with mem := m }) :
    (fillDeadbeef vptr len).wp c Q E h := by
  unfold fillDeadbeef
  refine wp_foldlM_range (fun _ _ g => ∃ m, g = { h with mem := m } ∧
    ∀ a, a < vptr ∨ vptr + len ≤ a → m a = h.mem a) (fun k hk _ g hI => ?_) (fun _ g hI => ?_)
    ⟨h.mem, rfl, fun _ _ => rfl⟩
  · obtain ⟨m, rfl, hframe⟩ := hI
    refine ⟨_, rfl, fun a ha => ?_⟩
    rw [Function.update_of_ne (by omega)]
    exact hframe a ha
  · obtain ⟨m, rfl, hframe⟩ := hI
    exact hQ m hframe

/-- The pageref pages lie where `alloc_kpages` can put them, and no two roots share
one. -/
structure Kheap.RootsOk (h : Kheap) : Prop where
  aligned : ∀ r < 16, (h.kheaproots r).page % 4096 = 0
  bound : ∀ r < 16, (h.kheaproots r).page + 4096 ≤ 4294967296
  unique : ∀ r < 16, ∀ r' < 16, (h.kheaproots r).page ≠ 0 → (h.kheaproots r).page = (h.kheaproots r').page → r = r'

/-- The bit of an entry is cleared. -/
def Kheap.clearRef (h : Kheap) (r j : ℕ) : Kheap :=
  h.setRoot r fun root =>
    { root with pagerefsInuse := Function.update root.pagerefsInuse j false, numinuse := root.numinuse - 1 }

/-- Some entries of a root before `r` are taken, but it has no page. -/
def Kheap.Pageless (h : Kheap) (r : ℕ) : Prop := ∃ q < r, (h.kheaproots q).page = 0 ∧ (h.kheaproots q).numinuse ≠ 0

theorem u32_tdiv_neg {d : ℤ} (h1 : d ≤ -16) (h2 : -4294967296 ≤ d) : 256 ≤ u32 (d.tdiv 16) := by
  obtain ⟨e, rfl⟩ : ∃ e : ℕ, d = -(e : ℤ) := ⟨(-d).toNat, by omega⟩
  rw [Int.neg_tdiv, show (e : ℤ).tdiv 16 = ((e / 16 : ℕ) : ℤ) from (Int.ofNat_tdiv e 16).symm]
  unfold u32
  omega

theorem freepageref_wp (hroots : h.RootsOk) {r j : ℕ} (hrlt : r < 16) (hjlt : j < 256)
    (hpage : (h.kheaproots r).page ≠ 0) (hinuse : (h.kheaproots r).pagerefsInuse j = true)
    (hnum : 0 < (h.kheaproots r).numinuse) (hpanic : h.Pageless r → c) {Q : Unit → Kheap → Prop}
    (hQ : Q () (h.clearRef r j)) : (freepageref ((h.kheaproots r).page + 16 * j)).wp c Q E h := by
  have hloop : ∀ rest : List ℕ, (∀ r' ∈ rest, r' < 16) → rest.Pairwise (· < ·) → r ∈ rest →
      (freepagerefLoop ((h.kheaproots r).page + 16 * j) rest).wp c Q E h := by
    intro rest
    induction rest with
    | nil => exact fun _ _ hmem => absurd hmem List.not_mem_nil
    | cons q rest ih =>
      intro hlt hsorted hmem
      have hqlt := hlt q List.mem_cons_self
      rw [List.pairwise_cons] at hsorted
      have hlater (hne : q ≠ r) : r ∈ rest := (List.mem_cons.mp hmem).resolve_left (Ne.symm hne)
      have hnext (hne : q ≠ r) := ih (fun r' hr' => hlt r' (List.mem_cons_of_mem q hr')) hsorted.2 (hlater hne)
      unfold freepagerefLoop
      simp only [wp_bind, wp_get]
      by_cases hq0 : (h.kheaproots q).page = 0
      · rw [if_pos hq0, wp_bind, wp_kassert_cases]
        have hqr : q ≠ r := fun he => hpage (he ▸ hq0)
        exact ⟨fun _ => hnext hqr, fun hne => hpanic ⟨q, hsorted.1 r (hlater hqr), hq0, hne⟩⟩
      rw [if_neg hq0]
      by_cases hqr : q = r
      · subst hqr
        have hj : u32 ((((h.kheaproots q).page + 16 * j : ℕ) - (h.kheaproots q).page : ℤ).tdiv 16) = j := by
          rw [show (((h.kheaproots q).page + 16 * j : ℕ) - (h.kheaproots q).page : ℤ) = ((16 * j : ℕ) : ℤ) by
            push_cast; ring]
          rw [show ((16 * j : ℕ) : ℤ).tdiv 16 = ((16 * j / 16 : ℕ) : ℤ) from (Int.ofNat_tdiv _ 16).symm]
          rw [Nat.mul_div_cancel_left j (by decide)]
          exact u32_natCast (by omega)
        rw [hj, if_pos hjlt]
        simp only [wp_bind]
        refine (wp_kassert_of hinuse).mpr ((wp_kassert_of hnum).mpr ?_)
        exact hQ
      · have hfar : 256 ≤ u32 ((((h.kheaproots r).page + 16 * j : ℕ) - (h.kheaproots q).page : ℤ).tdiv 16) := by
          have h1 := hroots.aligned r hrlt
          have h2 := hroots.aligned q hqlt
          have h3 := hroots.bound r hrlt
          have h4 := hroots.bound q hqlt
          have hne : (h.kheaproots q).page ≠ (h.kheaproots r).page :=
            fun he => hqr (hroots.unique q hqlt r hrlt hq0 he)
          rcases Nat.lt_or_gt_of_ne hne with hlt | hgt
          · obtain ⟨d, hd⟩ : ∃ d : ℕ, (h.kheaproots r).page + 16 * j = (h.kheaproots q).page + d :=
              Nat.exists_eq_add_of_le (by omega)
            rw [hd, show (((h.kheaproots q).page + d : ℕ) - (h.kheaproots q).page : ℤ) = (d : ℤ) by push_cast; ring]
            rw [show (d : ℤ).tdiv 16 = ((d / 16 : ℕ) : ℤ) from (Int.ofNat_tdiv d 16).symm, u32_natCast (by omega)]
            omega
          · exact u32_tdiv_neg (by omega) (by omega)
        rw [if_neg (by omega)]
        exact hnext hqr
  exact hloop _ (fun r' hr' => List.mem_range.mp hr') List.pairwise_lt_range (List.mem_range.mpr hrlt)

/-- The entries of the pages are as they were. -/
theorem Kheap.Repr.setRoot {pages : List HeapPage} (hr : h.Repr pages) {r : ℕ} {f : KheapRoot → KheapRoot}
    (hpage : ∀ R ∈ pages, R.root = r → (f (h.kheaproots r)).page = (h.kheaproots r).page)
    (hinuse : ∀ R ∈ pages, R.root = r →
      (f (h.kheaproots r)).pagerefsInuse R.idx = (h.kheaproots r).pagerefsInuse R.idx) :
    (h.setRoot r f).Repr pages := by
  refine ⟨hr.all, hr.same, fun R hR => ?_⟩
  by_cases he : R.root = r
  · refine (hr.ref R hR).congr rfl rfl rfl (fun _ _ => rfl) ?_ ?_
    · rw [he, Kheap.roots_setRoot_self]
      exact hpage R hR he
    · rw [he, Kheap.roots_setRoot_self]
      exact hinuse R hR he
  · exact (hr.ref R hR).congr rfl rfl rfl (fun _ _ => rfl) (by rw [Kheap.roots_setRoot_of_ne he])
      (by rw [Kheap.roots_setRoot_of_ne he])

theorem Kheap.Repr.clearRef {pages : List HeapPage} (hr : h.Repr pages) {r j : ℕ}
    (hslot : ∀ R ∈ pages, R.slot ≠ (r, j)) : (h.clearRef r j).Repr pages := by
  refine hr.setRoot (fun _ _ _ => rfl) fun R hR he => Function.update_of_ne (fun hj => hslot R hR ?_) ..
  rw [HeapPage.slot, he, hj]

theorem Kheap.Repr.slot_ne (hr : h.Repr (A ++ P :: B)) {R : HeapPage} (hR : R ∈ A ++ B) : R.slot ≠ P.slot := by
  have hnodup := hr.slots_nodup
  rw [List.map_append, List.map_cons, List.nodup_middle, List.nodup_cons, ← List.map_append] at hnodup
  exact fun he => hnodup.1 (he ▸ List.mem_map_of_mem hR)

/-! ### Freeing a block -/

/-- The heap once the block is at the front of the free list of its page. -/
def Kheap.freed (h : Kheap) (m : ℕ → ℕ) (P : HeapPage) (d : ℕ) : Kheap :=
  { h with mem := Function.update m (P.block d) (P.free.headD 0) }.setRef P.pr fun p =>
    { p with freelistOffset := d * P.size, nfree := P.free.length + 1 }

theorem Kheap.Repr.freed (hr : h.Repr (A ++ P :: B)) (hapart : ∀ R ∈ A ++ B, R.addr ≠ P.addr) {d : ℕ}
    (hd : d < P.nblocks) (hnot : P.block d ∉ P.free) {m : ℕ → ℕ}
    (hm : ∀ a, a < P.block d ∨ P.block d + P.size ≤ a → m a = h.mem a) :
    (h.freed m P d).Repr (A ++ P.giveBack d hd hnot :: B) := by
  have hP := hr.self_ref
  have hpos := P.pos
  have hsize := P.size_pos
  refine hr.replace rfl rfl (Kheap.field_setRef _ rfl) (Kheap.field_setRef _ rfl) rfl rfl (fun R hR => ?_) ?_
  -- no other page has a word in the block
  · have hne := hr.pr_ne hR
    refine (hr.other_ref hR).congr (by rw [Kheap.freed, Kheap.refs_setRef_of_ne hne])
      (by rw [Kheap.freed, Kheap.refs_setRef_of_ne hne]) (by rw [Kheap.freed, Kheap.refs_setRef_of_ne hne])
      (fun x hx => ?_) rfl rfl
    have hin := R.free_bounds hx
    have hblock := P.block_end hd
    have hstart := (P.block_mem_page hd).1
    have hR16 := R.size_pos
    have hout : x < P.block d ∨ P.block d + P.size ≤ x := by
      rcases R.addr_apart (hapart R hR) with hlt | hlt <;> omega
    exact (Function.update_of_ne (by omega) ..).trans (hm x hout)
  · refine ⟨?_, ?_, ?_, ?_, hP.page, hP.addr, hP.inuse⟩
    · exact (congrArg Pageref.pageaddrAndBlocktype (Kheap.refs_setRef_self ..)).trans hP.pab
    · refine (congrArg Pageref.freelistOffset (Kheap.refs_setRef_self ..)).trans ?_
      exact (Nat.add_sub_cancel_left ..).symm
    · exact congrArg Pageref.nfree (Kheap.refs_setRef_self ..)
    · refine hP.linked.push (x := P.block d) (by unfold HeapPage.block; omega) (Function.update_self ..)
        fun y hy => ?_
      obtain ⟨e, he, rfl⟩ := P.free_block hy
      have hne : e ≠ d := fun h => hnot (h ▸ hy)
      have hout : P.block e < P.block d ∨ P.block d + P.size ≤ P.block e := by
        rcases P.block_apart hne with hlt | hlt <;> omega
      exact (Function.update_of_ne (by omega) ..).trans (hm _ hout)

theorem freeBlock_wp (hr : h.Repr (A ++ P :: B)) (hroots : h.RootsOk) (hapart : ∀ R ∈ A ++ B, R.addr ≠ P.addr)
    (hnum : 0 < (h.kheaproots P.root).numinuse) (hpanic : h.Pageless P.root → c) {d : ℕ} (hd : d < P.nblocks)
    (hnot : P.block d ∉ P.free) {Q : KfreeResult → Kheap → Prop}
    (hfreed : ∀ h', h'.Repr (A ++ P.giveBack d hd hnot :: B) → h'.kheaproots = h.kheaproots → Q .freed h')
    (hwhole : ∀ h', P.free.length + 1 = P.nblocks → h'.Repr (A ++ B) →
      h'.kheaproots = (h.clearRef P.root P.idx).kheaproots → Q (.wholePage P.addr) h') :
    (freeBlock P.pr (P.block d)).wp c Q E h := by
  have hP := hr.self_ref
  have hin := P.block_mem_page hd
  have hsize := P.size_pos
  have hn := (sizes_spec P.type_lt).2.2.2.2
  have hlen : P.free.length + 1 ≤ P.nblocks := (P.giveBack d hd hnot).length_free_le
  have hoffset : P.block d - P.addr = d * P.size := Nat.add_sub_cancel_left ..
  have hoff16 : u16 ((P.block d - P.addr : ℕ) : ℤ) = d * P.size := by
    rw [u16_natCast (by omega), hoffset]
  have hnfree : u16 (((h.refs P.pr).nfree : ℤ) + 1) = P.free.length + 1 := by
    rw [hP.nfree, u16]
    unfold HeapPage.nblocks HeapPage.size at hlen
    omega
  -- the rest of the section, once the block is linked
  have hrest (m : ℕ → ℕ) (hm : ∀ a, a < P.block d ∨ P.block d + P.size ≤ a → m a = h.mem a) :
      Op.wp c (do
        Op.kassert (P.free.length + 1 ≤ 4096 / sizes P.blktype)
        if P.free.length + 1 = 4096 / sizes P.blktype then do
          removeLists P.pr P.blktype
          freepageref P.pr
          pure (KfreeResult.wholePage P.addr)
        else pure .freed : HeapM KfreeResult) Q E (h.freed m P d) := by
    have hr' := hr.freed hapart hd hnot hm
    rw [wp_bind]
    refine (wp_kassert_of hlen).mpr ?_
    rw [wp_ite]
    refine ⟨fun hall => ?_, fun _ => hfreed _ hr' rfl⟩
    simp only [wp_bind]
    refine removeLists_wp hr' fun h₂ hr₂ hroots₂ => ?_
    have hsame : h₂.kheaproots = h.kheaproots := hroots₂
    have hok : h₂.RootsOk := by
      constructor <;> rw [hsame]
      · exact hroots.aligned
      · exact hroots.bound
      · exact hroots.unique
    have hpr : P.pr = (h₂.kheaproots P.root).page + 16 * P.idx := by rw [hsame]; exact hP.addr
    rw [hpr]
    refine freepageref_wp hok P.root_lt P.idx_lt (by rw [hsame]; exact hP.page) (by rw [hsame]; exact hP.inuse)
      (by rw [hsame]; exact hnum) (fun hpl => hpanic ?_) ?_
    · obtain ⟨r, hr16, h0, hne⟩ := hpl
      rw [hsame] at h0 hne
      exact ⟨r, hr16, h0, hne⟩
    · refine hwhole _ hall (hr₂.clearRef fun R hR => hr.slot_ne hR) ?_
      simp only [Kheap.clearRef, Kheap.setRoot, hsame]
  unfold freeBlock
  simp only [wp_bind, wp_get]
  rw [hP.pageaddr, hP.blktype]
  refine (wp_kassert_of ⟨by omega, by rw [hoffset]; exact Nat.mul_mod_left ..⟩).mpr ?_
  refine fillDeadbeef_wp fun m hm => ?_
  rw [hnfree, hoff16]
  simp only [wp_bind] at hrest
  rw [wp_ite]
  cases hfree : P.free with
  | nil =>
    have hinv : (h.refs P.pr).freelistOffset = invalidOffset := by rw [hP.offset, HeapPage.offset, hfree]
    have hgoal := hrest m hm
    rw [Kheap.freed, hfree] at hgoal
    refine ⟨fun _ => ?_, fun hne => absurd hinv hne⟩
    simp only [storeWord, wp_bind, wp_modify]
    exact hgoal
  | cons x F =>
    obtain ⟨hlt, hx⟩ := hP.offset_cons hfree
    have hvalid : (h.refs P.pr).freelistOffset ≠ invalidOffset := by unfold invalidOffset; omega
    have hne : P.block d ≠ x := fun he => hnot (by rw [he, hfree]; exact List.mem_cons_self)
    have hgoal := hrest m hm
    rw [Kheap.freed, hfree] at hgoal
    refine ⟨fun he => absurd he hvalid, fun _ => ?_⟩
    rw [← hx]
    simp only [storeWord, wp_bind, wp_modify]
    exact (wp_kassert_of hne).mpr hgoal

theorem subpageKfree_wp {pages : List HeapPage} (hr : h.Repr pages) (hroots : h.RootsOk)
    (haddr : (pages.map HeapPage.addr).Nodup) (hnum : ∀ R ∈ pages, 0 < (h.kheaproots R.root).numinuse)
    (hpanic : h.Pageless P.root → c) {d : ℕ} (hP : P ∈ pages) (hd : d < P.nblocks) (hnot : P.block d ∉ P.free)
    {Q : KfreeResult → Kheap → Prop}
    (hfreed : ∀ A B h', pages = A ++ P :: B → h'.Repr (A ++ P.giveBack d hd hnot :: B) →
      h'.kheaproots = h.kheaproots → Q .freed h')
    (hwhole : ∀ A B h', pages = A ++ P :: B → P.free.length + 1 = P.nblocks → h'.Repr (A ++ B) →
      h'.kheaproots = (h.clearRef P.root P.idx).kheaproots → Q (.wholePage P.addr) h') :
    (subpageKfree (P.block d)).wp c Q E h := by
  have hin := P.block_mem_page hd
  unfold subpageKfree
  rw [wp_bind]
  refine hr.findPageOf_wp (fun hnone => absurd hin (hnone P hP)) fun R hR hle hlt => ?_
  -- the page that is found is the page of the block
  have he : R = P := by
    refine List.inj_on_of_nodup_map haddr hR hP ?_
    by_contra hne
    rcases R.addr_apart hne with h1 | h1 <;> omega
  subst he
  obtain ⟨A, B, rfl⟩ := List.append_of_mem hP
  refine freeBlock_wp hr hroots (fun S hS => ?_) (hnum R hP) hpanic hd hnot
    (fun h' => hfreed A B h' rfl) fun h' => hwhole A B h' rfl
  rw [List.map_append, List.map_cons, List.nodup_middle, List.nodup_cons, ← List.map_append] at haddr
  exact fun he => haddr.1 (he ▸ List.mem_map_of_mem hS)

end Os161
