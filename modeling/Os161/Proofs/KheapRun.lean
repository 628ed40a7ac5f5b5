import Os161.Proofs.KheapOwners

/-! Runs of the kernel heap: whatever the threads do between two sections under the
lock, the lists of pages, the free lists and the blocks that are out agree. -/

namespace Os161

open Op

/-- The heap is a list of pages, made up of the blocks that are out and of free ones,
and every page that `alloc_kpages` gave out has its owner. `X` says that no entry was
given up, `Y` that no root without a page ever ran out of entries. -/
structure KheapSys.InvAt (s : KheapSys) (X Y : Prop) (pages : List HeapPage) : Prop where
  repr : s.heap.Repr pages
  blocks : KheapBlocks pages s.live
  owners : KheapOwners X Y s.heap.kheaproots s.phase s.kpages (pages.map HeapPage.addr) (pages.map HeapPage.slot)

def KheapSys.Inv (X Y : Prop) (s : KheapSys) : Prop := ∃ pages, s.InvAt X Y pages

variable {X Y : Prop} {s s' : KheapSys} {pages A B : List HeapPage} {P R : HeapPage} {t sz va prpage r j k : ℕ} {ph : Kphase}

/-! ### The two views of a heap -/

theorem KheapBlocks.apart (h : KheapBlocks pages s.live) (hP : P ∈ pages) (hR : R ∈ pages) {c d : ℕ}
    (hc : c < P.nblocks) (hd : d < R.nblocks) (hne : P.block c ≠ R.block d) :
    Apart (P.block c) P.size (R.block d) R.size := by
  by_cases he : P.addr = R.addr
  · obtain rfl := List.inj_on_of_nodup_map h.addrs hP hR he
    exact P.block_apart fun hcd => hne (hcd ▸ rfl)
  · have h1 := P.block_end hc
    have h2 := R.block_end hd
    have h3 := (P.block_mem_page hc).1
    have h4 := (R.block_mem_page hd).1
    unfold Apart
    rcases P.addr_apart he with h5 | h5 <;> omega

namespace KheapSys.InvAt

theorem sizebases (h : s.InvAt X Y pages) (hk : k < 8) :
    ∃ same, Linked 0 (fun pr => (s.heap.refs pr).nextSamesize) (s.heap.sizebases k) same ∧ same.Nodup ∧
      ∀ pr, pr ∈ same ↔ pr ∈ pages.map HeapPage.pr ∧ (s.heap.refs pr).blktype = k := by
  refine ⟨_, h.repr.same k hk, (h.repr.same k hk).nodup, fun pr => ?_⟩
  simp only [List.mem_map, List.mem_filter, decide_eq_true_eq]
  constructor
  · rintro ⟨P, ⟨hP, hPk⟩, rfl⟩
    exact ⟨⟨P, hP, rfl⟩, (h.repr.ref P hP).blktype.trans hPk⟩
  · rintro ⟨⟨P, hP, rfl⟩, hPk⟩
    exact ⟨P, ⟨hP, (h.repr.ref P hP).blktype.symm.trans hPk⟩, rfl⟩

theorem mem_free (h : s.InvAt X Y pages) (hP : P ∈ pages) (x : ℕ) :
    x ∈ P.free ↔ (∃ c < P.nblocks, x = P.block c) ∧ ∀ b ∈ s.live, b.ptr ≠ x := by
  constructor
  · intro hx
    obtain ⟨c, hc, rfl⟩ := P.free_block hx
    exact ⟨⟨c, hc, rfl⟩, (h.blocks.free P hP c hc).mp hx⟩
  · rintro ⟨⟨c, hc, rfl⟩, hlive⟩
    exact (h.blocks.free P hP c hc).mpr hlive

theorem liveBlock (h : s.InvAt X Y pages) {b : LiveBlock} (hb : b ∈ s.live) :
    ∃ P ∈ pages, b.size = P.size ∧ b.sz ≤ b.size ∧ ∃ d < P.nblocks, b.ptr = P.block d := by
  obtain ⟨P, hP, hsz, hblock⟩ := h.blocks.place b hb
  have hsize := LiveBlock.size_eq hsz
  exact ⟨P, hP, hsize, hsize ▸ (blocktype_spec hsz).2, hblock⟩

theorem agree (h : s.InvAt X Y pages) : s.Agree (pages.map HeapPage.pr) where
  allbase := h.repr.all
  once := h.repr.nodup
  sizebases _ hk := h.sizebases hk
  blktype pr hpr := by
    obtain ⟨P, hP, rfl⟩ := List.mem_map.mp hpr
    exact (h.repr.ref P hP).blktype.trans_lt P.type_lt
  free pr hpr := by
    obtain ⟨P, hP, rfl⟩ := List.mem_map.mp hpr
    have href := h.repr.ref P hP
    refine ⟨P.free, href.free, href.nfree.symm, P.nodup, fun x => ?_⟩
    rw [href.blktype, href.pageaddr]
    exact h.mem_free hP x
  live b hb := by
    obtain ⟨P, hP, hsize, hsz, d, hd, hptr⟩ := h.liveBlock hb
    have href := h.repr.ref P hP
    refine ⟨hsz, P.pr, List.mem_map_of_mem hP, ?_, d, ?_, ?_⟩
    · rw [href.blktype, hsize]
      rfl
    · rw [href.pageaddr, hsize, hptr]
      rfl
    · rw [href.pageaddr, hsize, hptr]
      exact P.block_end hd
  apart := by
    have honce : s.live.Pairwise fun b b' => b.ptr ≠ b'.ptr := List.pairwise_map.mp h.blocks.once
    refine honce.imp_of_mem fun {b b'} hb hb' hne => ?_
    obtain ⟨P, hP, hsize, -, d, hd, hptr⟩ := h.liveBlock hb
    obtain ⟨R, hR, hsize', -, e, he, hptr'⟩ := h.liveBlock hb'
    rw [hptr, hptr'] at hne ⊢
    rw [hsize, hsize']
    exact h.blocks.apart hP hR hd he hne
  apartFree b hb pr hpr nodes hnodes x hx := by
    obtain ⟨P, hP, hsize, -, d, hd, hptr⟩ := h.liveBlock hb
    obtain ⟨R, hR, rfl⟩ := List.mem_map.mp hpr
    have href := h.repr.ref R hR
    rw [hnodes.unique href.free] at hx
    obtain ⟨⟨e, he, rfl⟩, hlive⟩ := (h.mem_free hR x).mp hx
    have hne := hlive b hb
    rw [hptr] at hne ⊢
    rw [href.blktype, hsize]
    exact h.blocks.apart hP hR hd he hne
  used := by rw [h.repr.getused, h.blocks.used]

end KheapSys.InvAt

/-! ### Sections under the lock -/

theorem KheapSys.run_of_wp {α : Type} {x : HeapM α} {next : α → KheapSys → Option KheapSys}
    {E : Empty → Kheap → Prop} {C : KheapSys → Prop}
    (hx : x.wp True (fun a h => ∀ s', next a { s with heap := h } = some s' → C s') E s.heap)
    (hrun : s.run x next = some s') : C s' := by
  unfold run at hrun
  unfold Op.wp at hx
  cases hres : x s.heap with
  | ok a h =>
    rw [hres] at hrun hx
    exact hx s' hrun
  | err e h => exact e.elim
  | panic =>
    rw [hres] at hrun
    exact absurd hrun (by simp)

/-- The bit of an entry is set. -/
def Kheap.markRef (h : Kheap) (r j : ℕ) : Kheap :=
  h.setRoot r fun root =>
    { root with pagerefsInuse := Function.update root.pagerefsInuse j true, numinuse := root.numinuse + 1 }

theorem Kheap.clearBit_spec {h : Kheap} (hbit : h.clearBit = some (r, j)) :
    r < 16 ∧ j < 256 ∧ (h.kheaproots r).pagerefsInuse j = false ∧
    ∀ q < r, 256 ≤ (h.kheaproots q).numinuse ∨ ∀ i < 256, (h.kheaproots q).pagerefsInuse i = true := by
  obtain ⟨l₁, p, l₂, hrange, hfind, hbefore⟩ := List.findSome?_eq_some_iff.mp hbit
  split_ifs at hfind
  obtain ⟨i, hi, he⟩ := Option.map_eq_some_iff.mp hfind
  obtain ⟨rfl, rfl⟩ := Prod.mk.inj he
  have hp : p ∈ List.range 16 := by
    rw [hrange]
    exact List.mem_append_right _ List.mem_cons_self
  refine ⟨List.mem_range.mp hp, List.mem_range.mp (List.mem_of_find?_eq_some hi), by simpa using List.find?_some hi, ?_⟩
  intro q hq
  -- the roots come in order, so that a smaller one was looked at before
  have hq₁ : q ∈ l₁ := by
    have hmem : q ∈ l₁ ++ p :: l₂ := hrange ▸ List.mem_range.mpr (hq.trans (List.mem_range.mp hp))
    have hsorted := List.pairwise_lt_range (n := 16)
    rw [hrange, List.pairwise_append, List.pairwise_cons] at hsorted
    rcases List.mem_append.mp hmem with hm | hm
    · exact hm
    · rcases List.mem_cons.mp hm with hm | hm
      · omega
      · have := hsorted.2.1.1 q hm
        omega
  have hnone := hbefore q hq₁
  split_ifs at hnone with hfull
  · exact Or.inl hfull
  · rw [Option.map_eq_none_iff, List.find?_eq_none] at hnone
    exact Or.inr fun i hi => by simpa using hnone i (List.mem_range.mpr hi)

namespace KheapSys

/-- The first section of `kmalloc`. -/
theorem kmalloc_inv (h : s.InvAt X Y pages) (hidle : s.phase t = .idle) (hk : blocktype sz = some k)
    (hs : s.run (subpageKmalloc k) (fun ptr s => match ptr with
      | some ptr => some (s.returnBlock t sz ptr)
      | none => some (s.setPhase t (.page sz))) = some s') : s'.Inv X Y := by
  refine run_of_wp (E := fun _ _ => False) (subpageKmalloc_wp h.repr (blocktype_spec hk).1 ?_ ?_) hs
  · rintro s' hs'
    obtain rfl := Option.some.inj hs'
    refine ⟨pages, h.repr, h.blocks, h.owners.setPhase ?_ ?_⟩ <;> rw [hidle]
    · exact List.Perm.refl _
    · rfl
  · rintro A P B x F hfree heap rfl hPk hr hroots s' hs'
    obtain rfl := Option.some.inj hs'
    refine ⟨A ++ P.pop F hfree :: B, hr, h.blocks.take hfree (hk.trans (congrArg some hPk.symm)), ?_⟩
    change KheapOwners X Y heap.kheaproots (Function.update s.phase t .idle) s.kpages _ _
    rw [hroots, map_replace HeapPage.addr P (P.pop F hfree) rfl, map_replace HeapPage.slot P (P.pop F hfree) rfl]
    refine h.owners.setPhase ?_ ?_ <;> rw [hidle]

/-- The page and the entry that a thread has become a page of the heap, and the first
block of it goes out. -/
theorem newpage_inv (hr : s.heap.Repr pages) (hb : KheapBlocks pages s.live)
    (ho : KheapOwners X Y s.heap.kheaproots (Function.update s.phase t ph) s.kpages (pages.map HeapPage.addr)
      (pages.map HeapPage.slot)) (hp : ph.pages = [prpage]) (he : ph.entry = [(r, j)])
    (hpage : (s.heap.kheaproots r).page ≠ 0)
    (hs : s.gotRef t sz prpage (some ((s.heap.kheaproots r).page + 16 * j)) = some s') : s'.Inv X Y := by
  have hroots := ho.rootsOk rfl
  have hprpage : prpage ∈ pagesOf s.heap.kheaproots (Function.update s.phase t ph) (pages.map HeapPage.addr)
      (.thread t) := by
    rw [pagesOf_update_self, hp]
    exact List.mem_cons_self
  have hentry : (r, j) ∈ entriesOf (Function.update s.phase t ph) (pages.map HeapPage.slot) (.thread t) := by
    rw [entriesOf_update_self, he]
    exact List.mem_cons_self
  obtain ⟨h0, haligned, hbound⟩ := ho.given _ ((ho.pages.cover _).mpr ⟨_, hprpage⟩)
  obtain ⟨hrlt, hjlt, hinuse⟩ := ho.inuse _ _ hentry
  -- a page of the heap is not the page of the thread, and its entry not the entry of the thread
  have hapart (R : HeapPage) (hR : R ∈ pages) : R.addr ≠ prpage := fun hRp => by
    cases ho.pages.unique .heap (.thread t) prpage (hRp ▸ List.mem_map_of_mem hR) hprpage
  have hslot (R : HeapPage) (hR : R ∈ pages) : R.slot ≠ (r, j) := fun hRs => by
    cases ho.entries.unique .heap (.thread t) (r, j) (hRs ▸ List.mem_map_of_mem hR) hentry
  have hnew (R : HeapPage) (hR : R ∈ pages) : R.pr ≠ (s.heap.kheaproots r).page + 16 * j := by
    have href := hr.ref R hR
    intro hpr
    have h1 := hroots.aligned r hrlt
    have h2 := hroots.aligned R.root R.root_lt
    have hidx := R.idx_lt
    rw [href.addr] at hpr
    have hsame : (s.heap.kheaproots R.root).page = (s.heap.kheaproots r).page := by omega
    have hroot := hroots.unique R.root R.root_lt r hrlt href.page hsame
    exact hslot R hR (Prod.ext hroot (by rw [HeapPage.slot]; omega))
  unfold gotRef at hs
  cases hk : blocktype sz with
  | none =>
    simp only [hk] at hs
    exact absurd hs (by simp)
  | some k =>
    simp only [hk] at hs
    let P : HeapPage :=
      { pr := (s.heap.kheaproots r).page + 16 * j
        root := r
        idx := j
        addr := prpage
        blktype := k
        free := (List.range (4096 / sizes k)).reverse.map fun c => prpage + c * sizes k
        type_lt := (blocktype_spec hk).1
        root_lt := hrlt
        idx_lt := hjlt
        aligned := haligned
        pos := h0
        bound := hbound
        blocks := fun x hx => by
          obtain ⟨c, hc, rfl⟩ := List.mem_map.mp hx
          exact ⟨c, List.mem_range.mp (List.mem_reverse.mp hc), rfl⟩
        nodup := by
          have hpos := (sizes_spec (blocktype_spec hk).1).1
          refine (List.nodup_reverse.mpr List.nodup_range).map fun c d hcd => ?_
          exact Nat.eq_of_mul_eq_mul_right (by omega) (Nat.add_left_cancel hcd) }
    have hblocks := hb.cons (P := P) rfl hapart
    refine run_of_wp (E := fun _ _ => False)
      (subpageNewpage_wp (P := P) hr rfl hpage rfl hinuse hnew hapart ?_) hs
    rintro x F hF heap hr' hroots' s' hs'
    obtain rfl := Option.some.inj hs'
    refine ⟨P.pop F hF :: pages, hr', hblocks.take (A := []) hF hk, ?_⟩
    change KheapOwners X Y heap.kheaproots (Function.update s.phase t .idle) s.kpages _ _
    have hinstall := ho.install .idle (t := t) (r := r) (j := j)
      (by rw [Function.update_self, hp]) (by rw [Function.update_self, he]) rfl rfl
    rw [Function.update_idem] at hinstall
    rw [hroots']
    exact hinstall

/-- There is no pageref page, and the entry is lost. -/
theorem norefs_inv (hr : s.heap.Repr pages) (hb : KheapBlocks pages s.live)
    (ho : KheapOwners X Y s.heap.kheaproots s.phase s.kpages (pages.map HeapPage.addr)
      (pages.map HeapPage.slot)) (hp : (s.phase t).pages = [prpage])
    (he : (s.phase t).entry = [] ∨ ¬ X ∧ (s.phase t).entry = [(r, j)])
    (hs : s.gotRef t sz prpage none = some s') : s'.Inv X Y := by
  obtain rfl := Option.some.inj hs
  refine ⟨pages, hr, hb, ?_⟩
  rcases he with he | he
  · exact ho.setPhase (by rw [hp]; exact List.Perm.refl _) (by rw [he]; rfl)
  · exact ho.leak he.1 (by rw [hp]; rfl) he.2 rfl

theorem allocpagerefEnd_inv (ph : Kphase) (hr : s.heap.Repr pages) (hb : KheapBlocks pages s.live)
    (ho : KheapOwners X Y s.heap.kheaproots (Function.update s.phase t ph) s.kpages (pages.map HeapPage.addr)
      (pages.map HeapPage.slot)) (hp : ph.pages = [prpage]) (he : ph.entry = [(r, j)])
    (hpage : (s.heap.kheaproots r).page ≠ 0)
    (hs : s.run (allocpagerefEnd r j) (fun pr s => s.gotRef t sz prpage pr) = some s') : s'.Inv X Y := by
  refine run_of_wp (E := fun _ _ => False) ?_ hs
  unfold allocpagerefEnd
  rw [wp_bind, wp_get, if_neg hpage, wp_pure]
  exact fun s' hs' => newpage_inv hr hb ho hp he hpage hs'

theorem fresh_inv (h : s.InvAt X Y pages) (hY : Y → s.Spacious) (hph : s.phase t = .fresh sz prpage)
    (hs : s.run allocpageref (fun res s => match res with
      | .null => s.gotRef t sz prpage none
      | .ready pr => s.gotRef t sz prpage (some pr)
      | .noPage r j => some (s.setPhase t (.refpage sz prpage r j))) = some s') : s'.Inv X Y := by
  have hpages : (s.phase t).pages = [prpage] := by rw [hph]; rfl
  have hentry : (s.phase t).entry = [] := by rw [hph]; rfl
  refine run_of_wp (E := fun _ _ => False) ?_ hs
  unfold allocpageref
  rw [wp_bind, wp_get]
  cases hbit : s.heap.clearBit with
  | none => exact fun s' hs' => norefs_inv (r := 0) (j := 0) h.repr h.blocks h.owners hpages (Or.inl hentry) hs'
  | some e =>
    obtain ⟨r, j⟩ := e
    obtain ⟨hr, hj, hclear, hfull⟩ := Kheap.clearBit_spec hbit
    -- the roots before it have no entry to spare, so that they have their pages
    have hbelow (hy : Y) (q : ℕ) (hq : q < r) : (s.heap.kheaproots q).page ≠ 0 := by
      intro hzero
      have hspare := hY hy q (hq.trans hr) hzero
      rcases hfull q hq with hnum | hall
      · omega
      · have hcount := h.owners.count q (hq.trans hr)
        rw [List.countP_eq_length.mpr fun i hi => hall i (List.mem_range.mp hi), List.length_range] at hcount
        omega
    -- the bit of no page changes
    have hrepr : (s.heap.markRef r j).Repr pages := by
      refine h.repr.setRoot (fun _ _ _ => rfl) fun R hR hRr => Function.update_of_ne (fun hRj => ?_) ..
      have hset := (h.repr.ref R hR).inuse
      rw [hRr, hRj, hclear] at hset
      exact Bool.false_ne_true hset
    have hreserve (ph : Kphase) (hp : ph.pages = [prpage]) (he : ph.entry = [(r, j)]) :
        KheapOwners X Y (s.heap.markRef r j).kheaproots (Function.update s.phase t ph) s.kpages
          (pages.map HeapPage.addr) (pages.map HeapPage.slot) :=
      h.owners.reserve hr hj hclear hbelow (hp.trans hpages.symm) hentry he rfl
    simp only [wp_bind, wp_modify]
    rw [wp_ite]
    refine ⟨fun hzero s' hs' => ?_, fun hpage s' hs' => ?_⟩
    · obtain rfl := Option.some.inj hs'
      exact ⟨pages, hrepr, h.blocks, hreserve _ rfl rfl⟩
    · have hpage' : ((s.heap.markRef r j).kheaproots r).page = (s.heap.kheaproots r).page := by
        rw [Kheap.markRef, Kheap.roots_setRoot_self]
      have hgot : { s with heap := s.heap.markRef r j }.gotRef t sz prpage
          (some (((s.heap.markRef r j).kheaproots r).page + 16 * j)) = some s' := by
        rw [hpage']
        exact hs'
      exact newpage_inv (s := { s with heap := s.heap.markRef r j }) hrepr h.blocks
        (hreserve (.refback sz prpage r j) rfl rfl) rfl rfl (hpage'.trans_ne hpage) hgot

theorem refgot_inv (h : s.InvAt X Y pages) (hX : X → va ≠ 0 ∨ (s.heap.kheaproots r).page ≠ 0)
    (hph : s.phase t = .refgot sz prpage r j va)
    (hs : s.run (allocpagerefpageBack r va) (fun spare s =>
      if spare then some (s.setPhase t (.refspare sz prpage r j va))
      else s.run (allocpagerefEnd r j) fun pr s => s.gotRef t sz prpage pr) = some s') : s'.Inv X Y := by
  have hentry : (s.phase t).entry = [(r, j)] := by rw [hph]; rfl
  have hmem : (r, j) ∈ entriesOf s.phase (pages.map HeapPage.slot) (.thread t) := by
    rw [entriesOf, hentry]
    exact List.mem_cons_self
  obtain ⟨hr, -, -⟩ := h.owners.inuse (.thread t) (r, j) hmem
  refine run_of_wp (E := fun _ _ => False) ?_ hs
  unfold allocpagerefpageBack
  rw [wp_ite]
  refine ⟨fun hva s' hs' => ?_, fun hva => ?_⟩
  · have hpages : (s.phase t).pages = [prpage] := by rw [hph, Kphase.pages, if_pos hva]
    by_cases hpage : (s.heap.kheaproots r).page = 0
    · refine run_of_wp (E := fun _ _ => False) ?_ hs'
      unfold allocpagerefEnd
      rw [wp_bind, wp_get, if_pos hpage, wp_pure]
      have hlost : ¬ X := fun hx => (hX hx).elim (fun hne => hne hva) fun hne => hne hpage
      exact fun s' hs' => norefs_inv h.repr h.blocks h.owners hpages (Or.inr ⟨hlost, hentry⟩) hs'
    -- somebody else has allocated the page in the meantime
    · refine allocpagerefEnd_inv _ h.repr h.blocks ?_ hpages hentry hpage hs'
      rw [Function.update_eq_self]
      exact h.owners
  · have hpages : (s.phase t).pages = [prpage, va] := by rw [hph, Kphase.pages, if_neg hva]
    simp only [wp_bind, wp_kassert_true, wp_get]
    intro haligned
    rw [wp_ite]
    refine ⟨fun hpage s' hs' => ?_, fun hpage => ?_⟩
    · obtain rfl := Option.some.inj hs'
      exact ⟨pages, h.repr, h.blocks, h.owners.setPhase (by rw [hpages]; exact List.Perm.refl _) hentry.symm⟩
    · rw [not_not] at hpage
      simp only [wp_bind, wp_modify]
      -- no page of the heap has its pageref there yet
      have hrepr := h.repr.setRoot (r := r) (f := fun root => { root with page := va })
        (fun R hR hRr => absurd (hRr ▸ hpage) (h.repr.ref R hR).page) fun _ _ _ => rfl
      have howners := h.owners.setRootPage (.refback sz prpage r j) (t := t) hr (h.owners.numinuse_pos hmem).ne' hpage hva
        (by rw [hpages]; exact List.Perm.swap va prpage []) hentry.symm rfl
      refine fun s' hs' => allocpagerefEnd_inv _
        (s := { s with heap := s.heap.setRoot r fun root => { root with page := va } }) hrepr h.blocks howners rfl rfl ?_ hs'
      rw [Kheap.roots_setRoot_self]
      exact hva

theorem refback_inv (h : s.InvAt X Y pages) (hph : s.phase t = .refback sz prpage r j)
    (hpage : (s.heap.kheaproots r).page ≠ 0)
    (hs : s.run (allocpagerefEnd r j) (fun pr s => s.gotRef t sz prpage pr) = some s') : s'.Inv X Y := by
  refine allocpagerefEnd_inv (s.phase t) h.repr h.blocks ?_ (by rw [hph]; rfl) (by rw [hph]; rfl) hpage hs
  rw [Function.update_eq_self]
  exact h.owners

theorem kfree_inv (h : s.InvAt X Y pages) (hidle : s.phase t = .idle) {b : LiveBlock} (hb : b ∈ s.live)
    (hs : s.run (subpageKfree b.ptr) (fun res s =>
      let s := { s with live := s.live.filter fun c => c.ptr ≠ b.ptr }
      match res with
      | .freed => some s
      | .wholePage prpage => some (s.setPhase t (.drop prpage))
      | .notOurs => if b.ptr % 4096 = 0 then some (s.setPhase t (.drop b.ptr)) else none) = some s') : s'.Inv X Y := by
  obtain ⟨P, hP, -, -, d, hd, hptr⟩ := h.liveBlock hb
  have hnot : P.block d ∉ P.free := fun hmem => (h.blocks.free P hP d hd).mp hmem b hb hptr
  have hnum (R : HeapPage) (hR : R ∈ pages) : 0 < (s.heap.kheaproots R.root).numinuse :=
    h.owners.numinuse_pos (j := R.idx) (o := .heap) (List.mem_map_of_mem hR)
  refine run_of_wp (E := fun _ _ => False) ?_ hs
  rw [hptr]
  refine subpageKfree_wp h.repr (h.owners.rootsOk rfl) h.blocks.addrs hnum (fun _ => trivial) hP hd hnot ?_ ?_
  · rintro A B heap rfl hr hroots s' hs'
    obtain rfl := Option.some.inj hs'
    refine ⟨A ++ P.giveBack d hd hnot :: B, hr, h.blocks.give hd hnot ⟨b, hb, hptr⟩, ?_⟩
    change KheapOwners X Y heap.kheaproots s.phase s.kpages _ _
    rw [hroots, map_replace HeapPage.addr P (P.giveBack d hd hnot) rfl,
      map_replace HeapPage.slot P (P.giveBack d hd hnot) rfl]
    exact h.owners
  · rintro A B heap rfl hwhole hr hroots s' hs'
    obtain rfl := Option.some.inj hs'
    refine ⟨A ++ B, hr, (h.blocks.give hd hnot ⟨b, hb, hptr⟩).drop hwhole, ?_⟩
    change KheapOwners X Y heap.kheaproots (Function.update s.phase t (.drop P.addr)) s.kpages _ _
    have howners := h.owners
    rw [List.map_append, List.map_append, List.map_cons, List.map_cons] at howners
    rw [List.map_append, List.map_append]
    exact howners.wholePage (t := t) (by rw [hidle]; rfl) rfl (by rw [hidle]; rfl) hroots

/-- Nobody writes to a free block. -/
theorem write_inv (h : s.InvAt X Y pages) {a v : ℕ} (hforeign : s.Foreign a) :
    { s with heap := { s.heap with mem := Function.update s.heap.mem a v } }.InvAt X Y pages := by
  refine ⟨⟨h.repr.all, h.repr.same, fun P hP => ?_⟩, h.blocks, h.owners⟩
  refine (h.repr.ref P hP).congr rfl rfl rfl (fun x hx => Function.update_of_ne (fun hxa => ?_) ..) rfl rfl
  subst hxa
  have hin := P.free_bounds hx
  have hsize := P.size_pos
  rcases hforeign with hout | ⟨b, hb, hle, hlt⟩
  · have haligned := P.aligned
    have hpage : x / 4096 * 4096 = P.addr := by omega
    exact hout ((h.owners.pages.cover _).mpr ⟨.heap, hpage ▸ List.mem_map_of_mem hP⟩)
  · obtain ⟨R, hR, hbsize, -, d, hd, hptr⟩ := h.liveBlock hb
    obtain ⟨⟨c, hc, rfl⟩, hlive⟩ := (h.mem_free hP x).mp hx
    have hne := hlive b hb
    rw [hptr] at hne hle hlt
    rw [hbsize] at hlt
    rcases h.blocks.apart hR hP hd hc hne with hap | hap <;> omega

end KheapSys

theorem kheapStep_inv {e : KheapEv} (hinv : s.Inv X Y) (hX : X → s.KeepsRef e) (hY : Y → s.Spacious)
    (hs : kheapStep s e = some s') : s'.Inv X Y := by
  obtain ⟨pages, h⟩ := hinv
  cases e with
  | kmalloc t sz =>
    simp only [kheapStep] at hs
    split_ifs at hs with hidle
    cases hk : blocktype sz with
    | none =>
      simp only [hk] at hs
      exact absurd hs (by simp)
    | some k =>
      simp only [hk] at hs
      exact KheapSys.kmalloc_inv h hidle.1 hk hs
  | allocKpages t va =>
    simp only [kheapStep] at hs
    cases hph : s.phase t with
    | page sz =>
      simp only [hph] at hs
      split_ifs at hs with hva hfresh <;> obtain rfl := Option.some.inj hs
      · exact ⟨pages, h.repr, h.blocks, h.owners.setPhase (by rw [hph]; exact List.Perm.refl _) (by rw [hph]; rfl)⟩
      · obtain ⟨h0, hal, hb, hnew⟩ := hfresh
        exact ⟨pages, h.repr, h.blocks, h.owners.allocKpages h0 hal hb hnew (by rw [hph]; rfl) (by rw [hph]; rfl)⟩
    | refpage sz prpage r j =>
      simp only [hph] at hs
      split_ifs at hs with hva hfresh <;> obtain rfl := Option.some.inj hs
      · exact ⟨pages, h.repr, h.blocks, h.owners.setPhase (by rw [hph]; exact List.Perm.refl _) (by rw [hph]; rfl)⟩
      · obtain ⟨h0, hal, hb, hnew⟩ := hfresh
        refine ⟨pages, h.repr, h.blocks, h.owners.allocKpages h0 hal hb hnew ?_ (by rw [hph]; rfl)⟩
        rw [hph]
        exact if_neg hva
    | _ =>
      simp only [hph] at hs
      exact absurd hs (by simp)
  | locked t =>
    simp only [kheapStep] at hs
    cases hph : s.phase t with
    | fresh sz prpage =>
      simp only [hph] at hs
      exact KheapSys.fresh_inv h hY hph hs
    | refgot sz prpage r j va =>
      simp only [hph] at hs
      refine KheapSys.refgot_inv h (fun hx => ?_) hph hs
      have hkeeps := hX hx
      rw [KheapSys.KeepsRef, hph] at hkeeps
      exact hkeeps
    | refback sz prpage r j =>
      simp only [hph] at hs
      split_ifs at hs with hpage
      exact KheapSys.refback_inv h hph hpage hs
    | _ =>
      simp only [hph] at hs
      exact absurd hs (by simp)
  | freeKpages t =>
    simp only [kheapStep] at hs
    cases hph : s.phase t with
    | refspare sz prpage r j va =>
      simp only [hph] at hs
      obtain rfl := Option.some.inj hs
      refine ⟨pages, h.repr, h.blocks, h.owners.freeKpages ?_ (by rw [hph]; rfl)⟩
      rw [hph]
      exact List.Perm.swap va prpage []
    | drop prpage =>
      simp only [hph] at hs
      obtain rfl := Option.some.inj hs
      refine ⟨pages, h.repr, h.blocks, h.owners.freeKpages ?_ (by rw [hph]; rfl)⟩
      rw [hph]
      exact List.Perm.refl _
    | _ =>
      simp only [hph] at hs
      exact absurd hs (by simp)
  | kfree t ptr =>
    by_cases hlive : s.phase t = .idle ∧ ∃ b ∈ s.live, b.ptr = ptr
    · simp only [kheapStep] at hs
      rw [if_pos hlive] at hs
      obtain ⟨hidle, b, hb, rfl⟩ := hlive
      exact KheapSys.kfree_inv h hidle hb hs
    · simp only [kheapStep] at hs
      rw [if_neg hlive] at hs
      exact absurd hs (by simp)
  | write a v =>
    simp only [kheapStep] at hs
    split_ifs at hs with hforeign
    obtain rfl := Option.some.inj hs
    exact ⟨pages, KheapSys.write_inv h hforeign.2⟩

theorem KheapSys.init_inv (refs : ℕ → Pageref) (mem : ℕ → ℕ) : (KheapSys.init refs mem).Inv X Y := by
  refine ⟨[], ⟨rfl, fun _ _ => rfl, (by simp)⟩, ⟨List.nodup_nil, (by simp), (by simp [init]), List.nodup_nil, rfl⟩, ?_⟩
  have hpages (o : HeapOwner) : pagesOf (init refs mem).heap.kheaproots (init refs mem).phase [] o = [] := by
    cases o with
    | heap => rfl
    | roots => exact List.filter_eq_nil_iff.mpr (by simp [init])
    | thread t => rfl
  have hentries (o : HeapOwner) : entriesOf (init refs mem).phase [] o = [] := by
    cases o <;> rfl
  refine ⟨⟨fun o => ?_, fun o o' a ha => ?_, fun a => ?_⟩, (by simp [init]), List.nodup_nil,
    ⟨fun o => ?_, fun o o' x hx => ?_, fun _ => Iff.rfl⟩, fun o x hx => ?_, fun r _ => ?_, fun _ r _ j _ hset => ?_,
    fun _ r _ hused => ?_⟩
  · exact (hpages o).symm ▸ List.nodup_nil
  · exact absurd ((hpages o) ▸ ha) List.not_mem_nil
  · simp only [List.map_nil, hpages]
    simp [init]
  · exact (hentries o).symm ▸ List.nodup_nil
  · exact absurd ((hentries o) ▸ hx) List.not_mem_nil
  · exact absurd ((hentries o) ▸ hx) List.not_mem_nil
  · exact (List.countP_eq_zero.mpr fun _ _ => Bool.false_ne_true).symm
  · exact absurd hset Bool.false_ne_true
  · exact absurd hused (by simp [init])

/-- In every run the lists of pages, the free lists and the blocks that are out agree. -/
theorem kheap_run (refs : ℕ → Pageref) (mem : ℕ → ℕ) (evs : List KheapEv) :
    AllStates kheapStep (fun s => ∃ all, s.Agree all) (KheapSys.init refs mem) evs := by
  refine AllStates.mono (fun s hs => ?_)
    (allStates_of_step (fun _ _ _ hs => kheapStep_inv hs False.elim False.elim) (KheapSys.init_inv refs mem) evs)
  obtain ⟨pages, h⟩ := hs
  exact ⟨_, h.agree⟩

end Os161
