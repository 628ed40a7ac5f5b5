import Os161.Proofs.UserHeap

/-! `malloc` and `free` keep the blocks that are in use, and what is in them. -/

namespace Os161

open Op

variable {h h' : Uheap} {A B C C' bs bs' : List Ublock} {a b : Ublock} {k size x y z fuel mh : ℕ} {c : Prop}
  {grant : ℕ → Bool} {E : MallocExit → Uheap → Prop}

/-! ### What stays of the other blocks -/

/-- Blocks in use other than the one at `x` stay where they are, with their contents. -/
def Uheap.Kept (h h' : Uheap) (bs bs' : List Ublock) (x : ℕ) : Prop :=
  ∀ z d, (z, d) ∈ laid Ublock.len h.heapbase bs → d.used = true → z ≠ x →
    (z, d) ∈ laid Ublock.len h.heapbase bs' ∧ ∀ y, z + 8 ≤ y → y < z + d.len → h'.mem y = h.mem y

/-- Blocks in use other than the one at `x` have been there before. -/
def UsedFrom (base : ℕ) (bs bs' : List Ublock) (x : ℕ) : Prop :=
  ∀ z d, (z, d) ∈ laid Ublock.len base bs' → d.used = true → z ≠ x → (z, d) ∈ laid Ublock.len base bs

theorem UsedFrom.trans {base : ℕ} {bs₁ : List Ublock} (h : UsedFrom base bs bs₁ x) (h' : UsedFrom base bs₁ bs' x) :
    UsedFrom base bs bs' x := by
  intro z d hd hu hne
  exact h z d (h' z d hd hu hne) hu hne

/-- No two neighbours are free. -/
def Coalesced (bs : List Ublock) : Prop := bs.IsChain fun a b => a.used = true ∨ b.used = true

/-- A block in use fits in anywhere. -/
theorem Coalesced.insert (hA : Coalesced A) (hB : Coalesced B) (hu : b.used = true) : Coalesced (A ++ [b] ++ B) := by
  rw [List.append_assoc, List.singleton_append]
  refine List.isChain_append.mpr ⟨hA, List.isChain_cons.mpr ⟨fun _ _ => Or.inl hu, hB⟩, fun a _ d hd => ?_⟩
  obtain rfl : b = d := Option.some.inj hd
  exact Or.inr hu

/-- The parts on both sides of a block, and the block with the part behind it. -/
theorem Coalesced.split (h : Coalesced (A ++ [b] ++ B)) : Coalesced A ∧ Coalesced (b :: B) ∧ Coalesced (A ++ [b]) := by
  have hall := h
  rw [List.append_assoc, List.singleton_append] at hall
  exact ⟨(List.isChain_append.mp hall).1, (List.isChain_append.mp hall).2.1, (List.isChain_append.mp h).1⟩

/-- A free block in front, or at the end, can be any other one. -/
theorem Coalesced.swap_last (h : Coalesced (A ++ [b])) (hu : b.used = false) : Coalesced (A ++ [a]) := by
  obtain ⟨hA, -, hlast⟩ := List.isChain_append.mp h
  refine List.isChain_append.mpr ⟨hA, List.isChain_singleton a, fun d hd e _ => Or.inl ?_⟩
  rcases hlast d hd b rfl with hdu | hbu
  · exact hdu
  · rw [hu] at hbu
    exact absurd hbu Bool.false_ne_true

theorem Coalesced.swap (h : Coalesced (b :: B)) (hu : b.used = false) : Coalesced (a :: B) := by
  obtain ⟨hhead, hB⟩ := List.isChain_cons.mp h
  refine List.isChain_cons.mpr ⟨fun d hd => Or.inr ?_, hB⟩
  rcases hhead d hd with hbu | hdu
  · rw [hu] at hbu
    exact absurd hbu Bool.false_ne_true
  · exact hdu

/-- What `__malloc_split` leaves behind the block: the rest, perhaps with a free block in
front. -/
def Remainder (B R : List Ublock) : Prop := R = B ∨ ∃ r : Ublock, r.used = false ∧ R = r :: B

theorem Coalesced.remainder {R : List Ublock} (h : Coalesced (b :: B)) (hu : b.used = false) (hR : Remainder B R) :
    Coalesced R := by
  rcases hR with rfl | ⟨r, -, rfl⟩
  · exact (List.isChain_cons.mp h).2
  · exact h.swap hu

theorem Uheap.not_headerWord (hd : (z, b) ∈ laid Ublock.len h.heapbase bs) (h1 : z + 8 ≤ y) (h2 : y < z + b.len) :
    ¬ h.HeaderWord bs y := by
  rintro ⟨r, hr, hy⟩
  by_cases he : (z, b) = r
  · subst he
    simp only at hy
    omega
  · have hlen := r.2.len_pos
    rcases laid_apart hd hr he with hap | hap <;> simp only at hap <;> omega

/-- Stores that leave the headers alone. -/
theorem Uheap.Repr.congr {m : ℕ → ℕ} (hr : h.Repr bs) (hm : ∀ y, h.HeaderWord bs y → m y = h.mem y) :
    { h with mem := m }.Repr bs := by
  refine ⟨hr.base, hr.aligned, hr.top, hr.brk, hr.start, hr.lt, hr.total, hr.tiles.congr fun r hr => ?_, hr.last⟩
  exact ⟨hm _ ⟨r, hr, Or.inl rfl⟩, hm _ ⟨r, hr, Or.inr rfl⟩⟩

theorem laid_replace (hd : (z, b) ∈ laid Ublock.len x (A ++ C ++ B))
    (hout : z < x + room Ublock.len A ∨ x + room Ublock.len A + room Ublock.len C ≤ z)
    (hroom : B = [] ∨ room Ublock.len C' = room Ublock.len C) : (z, b) ∈ laid Ublock.len x (A ++ C' ++ B) := by
  have hlen := b.len_pos
  rw [laid_append, laid_append, List.mem_append, List.mem_append] at hd ⊢
  rcases hd with (hA | hC) | hB
  · exact Or.inl (Or.inl hA)
  · have := laid_bounds hC
    omega
  · rcases hroom with rfl | hroom
    · exact absurd hB List.not_mem_nil
    · rw [room_append, hroom, ← room_append]
      exact Or.inr hB

/-- What lies outside the part that is replaced stays. -/
theorem laid_swap (hd : (z, b) ∈ laid Ublock.len x (A ++ C ++ B)) (hnot : (z, b) ∉ laid Ublock.len (x + room Ublock.len A) C)
    (hroom : B = [] ∨ room Ublock.len C' = room Ublock.len C) : (z, b) ∈ laid Ublock.len x (A ++ C' ++ B) := by
  rw [laid_append, laid_append, List.mem_append, List.mem_append] at hd ⊢
  rcases hd with (hA | hC) | hB
  · exact Or.inl (Or.inl hA)
  · exact absurd hC hnot
  · rcases hroom with rfl | hroom
    · exact absurd hB List.not_mem_nil
    · rw [room_append, hroom, ← room_append]
      exact Or.inr hB

/-- The block at an address, and those that lie elsewhere. -/
theorem laid_outside (hd : (z, b) ∈ laid Ublock.len x (A ++ [a] ++ B)) (hne : z ≠ x + room Ublock.len A) :
    z + b.len ≤ x + room Ublock.len A ∨ x + room Ublock.len A + a.len ≤ z := by
  have hself : (x + room Ublock.len A, a) ∈ laid Ublock.len x (A ++ [a] ++ B) := by
    rw [List.append_assoc]
    exact laid_middle
  rcases laid_apart hd hself fun he => hne (congrArg Prod.fst he) with hap | hap
  · exact Or.inl hap
  · exact Or.inr hap

/-! ### The search -/

/-- `mh` points to the last of the blocks, if there is one. -/
def Uheap.LastAt (h : Uheap) (A : List Ublock) (mh : ℕ) : Prop :=
  (A = [] ∧ mh = 0) ∨ ∃ A' a, A = A' ++ [a] ∧ mh = h.addr A'

theorem Uheap.addr_concat : h.addr (A ++ [a]) = h.addr A + a.len := by
  simp only [Uheap.addr, room_append, room_cons, room_nil]
  omega

theorem mallocSearch_wp (hr : h.Repr (A ++ B)) (hfuel : B.length < fuel) (hmh : h.LastAt A mh)
    {Q : MallocSearch → Uheap → Prop}
    (hfound : ∀ A' b B', A ++ B = A' ++ b :: B' → b.used = false → size + 8 ≤ b.len → Q (.found (h.addr A')) h)
    (hended : ∀ mh, h.LastAt (A ++ B) mh → (∀ b ∈ B, b.used = false → b.len < size + 8) →
      Q (.ended h.heaptop mh (lastN 0 (A ++ B))) h) :
    (mallocSearch size fuel (h.addr A) mh (lastN 0 A)).wp c Q E h := by
  induction B generalizing A fuel mh with
  | nil =>
    obtain ⟨fuel, rfl⟩ := Nat.exists_eq_add_one_of_ne_zero (Nat.ne_of_gt (Nat.zero_lt_of_lt hfuel))
    rw [List.append_nil] at hr hended
    have htop : h.heaptop = h.addr A := hr.top
    unfold mallocSearch
    simp only [wp_bind, wp_get]
    rw [if_pos (by omega), wp_pure, ← htop]
    exact hended mh hmh (by simp)
  | cons b B ih =>
    obtain ⟨fuel, rfl⟩ := Nat.exists_eq_add_one_of_ne_zero (Nat.ne_of_gt (Nat.zero_lt_of_lt hfuel))
    obtain ⟨hdr, htop, hn, hlast, hlt, -, -⟩ := hr.block
    have hlen := b.len_pos
    have hassoc : A ++ b :: B = A ++ [b] ++ B := by simp
    -- the rest of the loop
    have hnext (hbad : b.used = false → b.len < size + 8) :
        (mallocSearch size fuel (u32 (h.addr A + mNextoff h.mem (h.addr A))) (h.addr A)
          (mhNextblock h.mem (h.addr A))).wp c Q E h := by
      rw [hdr.nextoff hn, hdr.nextblock hn, ← Nat.cast_add, u32_natCast hlt, ← Uheap.addr_concat,
        ← lastN_concat (p := 0) (A := A)]
      rw [hassoc] at hr hfound hended
      rw [List.length_cons] at hfuel
      refine ih hr (by omega) (Or.inr ⟨A, b, rfl, rfl⟩) hfound fun mh hmh hall => hended mh hmh fun d hd hfree => ?_
      rcases List.mem_cons.mp hd with rfl | hd
      · exact hbad hfree
      · exact hall d hd hfree
    unfold mallocSearch
    simp only [wp_bind, wp_get]
    rw [if_neg (by omega)]
    simp only [wp_bind]
    refine (wp_errxIf _ (not_not.mpr hdr.ok)).mpr ((wp_errxIf _ ?_).mpr ?_)
    · rw [hdr.prevblock hlast]
      exact fun hne => hne rfl
    rw [wp_ite, wp_ite, hdr.inuse, hdr.size hn]
    refine ⟨fun hused => hnext fun hfree => ?_, fun hfree => ⟨fun hsmall => hnext fun _ => by omega, fun hbig => ?_⟩⟩
    · rw [hfree] at hused
      exact absurd rfl hused
    · refine hfound A b B rfl ?_ (by omega)
      cases hb : b.used with
      | false => rfl
      | true =>
        rw [hb] at hfree
        exact absurd Nat.one_ne_zero hfree

/-! ### Allocation -/

theorem Uheap.Kept.trans {h₁ : Uheap} {bs₁ : List Ublock} (hk : h.Kept h₁ bs bs₁ x) (hbase : h₁.heapbase = h.heapbase)
    (hk' : h₁.Kept h' bs₁ bs' x) : h.Kept h' bs bs' x := by
  intro z d hd hu hne
  obtain ⟨h1, h2⟩ := hk z d hd hu hne
  obtain ⟨h3, h4⟩ := hk' z d (hbase ▸ h1) hu hne
  exact ⟨hbase ▸ h3, fun y hy hy' => (h4 y hy hy').trans (h2 y hy hy')⟩

/-- The block that is cut, or left as it is, goes on at its address. -/
theorem mallocSplit_kept (hr : h.Repr (A ++ [b] ++ B)) (hk : size = 8 * k) (hkn : k + 1 ≤ b.n)
    {Q : Unit → Uheap → Prop}
    (hQ : ∀ m (d : Ublock) R, { h with mem := m }.Repr (A ++ [d] ++ R) → d.used = b.used → k + 1 ≤ d.n →
      h.Kept { h with mem := m } (A ++ [b] ++ B) (A ++ [d] ++ R) (h.addr A) →
      UsedFrom h.heapbase (A ++ [b] ++ B) (A ++ [d] ++ R) (h.addr A) → Remainder B R → Q () { h with mem := m }) :
    (mallocSplit (h.addr A) size).wp c Q E h := by
  refine mallocSplit_wp hr hk hkn (fun _ => hQ h.mem b B hr rfl hkn (fun z d hd _ _ => ⟨hd, fun _ _ _ => rfl⟩)
    (fun z d hd _ _ => hd) (Or.inl rfl)) ?_
  intro m b' r hroom hb'n hb'u hrn hru hrepr hframe
  have hassoc : A ++ [b', r] ++ B = A ++ [b'] ++ (r :: B) := by simp
  have hsame : room Ublock.len [b', r] = room Ublock.len [b] := by
    simp only [room_cons, room_nil, Ublock.len]
    omega
  refine hQ m b' (r :: B) (hassoc ▸ hrepr) hb'u (by omega) (fun z d hd hu hne => ?_) (fun z d hd hu hne => ?_)
    (Or.inr ⟨r, hru, rfl⟩)
  · rw [← hassoc]
    have hout := laid_outside hd hne
    have hlen := d.len_pos
    refine ⟨laid_replace hd ?_ (Or.inr hsame), fun y h1 h2 => hframe y ?_ (Uheap.not_headerWord hd h1 h2)⟩
    · simp only [room_cons, room_nil]
      omega
    · unfold Uheap.addr
      omega
  · rw [← hassoc] at hd
    refine laid_swap hd (fun hmem => ?_) (Or.inr hsame.symm)
    -- it is neither the block itself nor the free rest
    rcases List.mem_cons.mp hmem with he | hmem
    · exact hne (Prod.mk.inj he).1
    · have he := List.mem_singleton.mp hmem
      rw [(Prod.mk.inj he).2, hru] at hu
      exact Bool.false_ne_true hu

theorem Uheap.Repr.setUsed_kept (hr : h.Repr (A ++ [b] ++ B)) (u : Bool) (hn : a.n = b.n) :
    h.Kept { h with mem := setInuse (h.addr A) u.toNat h.mem } (A ++ [b] ++ B) (A ++ [a] ++ B) (h.addr A) := by
  intro z d hd hu hne
  have hlen := d.len_pos
  have hout := laid_outside hd hne
  have hsame : room Ublock.len [a] = room Ublock.len [b] := by
    simp only [room_cons, room_nil, Ublock.len, hn]
  refine ⟨laid_replace hd ?_ (Or.inr hsame), fun y h1 h2 => ?_⟩
  · simp only [room_cons, room_nil]
    omega
  · refine (hr.setUsed u (a := ⟨b.n, u, b.pos⟩) rfl rfl).2 y fun hy => Uheap.not_headerWord hd h1 h2 ?_
    rw [hy, List.append_assoc]
    exact Uheap.Repr.headerWord_self4

/-- What `malloc` does: a block at `x` that was not in use has room for `k` units. -/
structure Uheap.Got (h h' : Uheap) (bs : List Ublock) (x k : ℕ) (bs' : List Ublock) : Prop where
  repr : h'.Repr bs'
  base : h'.heapbase = h.heapbase
  kept : h.Kept h' bs bs' x
  free : ∀ d, (x, d) ∈ laid Ublock.len h.heapbase bs → d.used = false
  used : UsedFrom h.heapbase bs bs' x
  chain : Coalesced bs → Coalesced bs'
  grows : h'.heaptop ≠ h.heaptop → ∀ b ∈ bs, b.used = false → b.len < 8 * k + 8
  got : ∃ d, (x, d) ∈ laid Ublock.len h.heapbase bs' ∧ d.used = true ∧ k + 1 ≤ d.n

theorem Uheap.Repr.addr_lt (hr : h.Repr (A ++ [b] ++ B)) : mData (h.addr A) = h.addr A + 8 := by
  rw [List.append_assoc, List.singleton_append] at hr
  obtain ⟨-, -, -, -, hlt, -, -⟩ := hr.block
  have := b.len_pos
  unfold mData u32
  omega

theorem laid_only (hd : (x + room Ublock.len A, a) ∈ laid Ublock.len x (A ++ [b] ++ B)) : a = b := by
  refine laid_inj (fun d _ => Nat.lt_of_lt_of_le (by decide) d.len_pos) hd ?_
  rw [List.append_assoc]
  exact laid_middle

/-- `malloc` from where the search found a block. -/
theorem mallocFound_wp (hr : h.Repr (A ++ [b] ++ B)) (hfree : b.used = false) (hk : size = 8 * k) (hkn : k + 1 ≤ b.n)
    {Q : ℕ → Uheap → Prop} (hQ : ∀ h' bs', h.Got h' (A ++ [b] ++ B) (h.addr A) k bs' → Q (h.addr A + 8) h') :
    Op.wp c (do
      mallocSplit (h.addr A) size
      poke (setInuse (h.addr A) 1)
      pure (mData (h.addr A))) Q E h := by
  simp only [wp_bind]
  refine mallocSplit_kept hr hk hkn fun m d R hrepr hdu hdn hkept hfrom hR => ?_
  simp only [wp_poke, wp_pure]
  rw [hr.addr_lt]
  obtain ⟨hrepr', -⟩ := hrepr.setUsed true (a := ⟨d.n, true, d.pos⟩) rfl rfl
  refine hQ _ _ ⟨hrepr', rfl, hkept.trans rfl (hrepr.setUsed_kept true rfl), fun e he => ?_,
    hfrom.trans fun z e he _ hne => ?_, fun hc => ?_, fun hne => absurd rfl hne, ?_⟩
  · rw [laid_only he, hfree]
  · exact laid_swap he (fun hmem => hne (Prod.mk.inj (List.mem_singleton.mp hmem)).1) (Or.inr rfl)
  · exact hc.split.1.insert (hc.split.2.1.remainder hfree hR) rfl
  · refine ⟨⟨d.n, true, d.pos⟩, ?_, rfl, hdn⟩
    rw [List.append_assoc]
    exact laid_middle

/-! ### A larger heap -/

/-- The heap after `sbrk`. -/
def Uheap.grown (h : Uheap) (amount : ℕ) (m : ℕ → ℕ) : Uheap :=
  { h with heaptop := h.heaptop + amount, brk := h.heaptop + amount, mem := m }

theorem Uheap.Repr.extend {amount : ℕ} {m : ℕ → ℕ} (hr : h.Repr (A ++ C)) (h32 : h.heaptop + amount < 2 ^ 32)
    (h31 : h.heaptop + amount < h.start + 2 ^ 31) (hroom : room Ublock.len C' = room Ublock.len C + amount)
    (hbefore : ∀ y < h.addr A, m y = h.mem y) (hC : Tiles m (h.addr A) (lastN 0 A) C')
    (hlast : ∀ d ∈ (A ++ C').getLast?, 2 ≤ d.n) : (h.grown amount m).Repr (A ++ C') := by
  refine ⟨hr.base, hr.aligned, ?_, rfl, hr.start, h32, h31, ?_, hlast⟩
  · have htop := hr.top
    simp only [Uheap.grown, room_append] at htop ⊢
    omega
  · exact tiles_append.mpr ⟨hr.tiles_before.frame fun y _ hy => hbefore y hy, hC⟩

theorem Uheap.allows_iff {amount : ℕ} (hamt : amount < 2 ^ 31) :
    h.Allows amount ↔ h.start ≤ h.brk + amount ∧ h.brk + amount < 2 ^ 32 ∧ h.brk + amount < h.start + 2 ^ 31 := by
  unfold Uheap.Allows Uheap.newBrk
  rw [if_pos hamt]
  omega

theorem mallocSbrk_wp (hr : h.Repr bs) {amount : ℕ} {Q : ℕ → Uheap → Prop}
    (hfail : ¬ (grant amount = true ∧ h.Allows amount) → Q 0 h)
    (hok : h.Allows amount →
      Q h.heaptop { h with brk := (h.newBrk amount).toNat, heaptop := u32 (h.heaptop + amount) }) :
    (mallocSbrk grant amount).wp c Q E h := by
  have hbrk := hr.brk
  have hlt := hr.lt
  have hal := hr.aligned
  have hmod := room_mod bs
  have htop := hr.top
  unfold mallocSbrk sbrk
  simp only [wp_bind, wp_get]
  rw [wp_ite]
  refine ⟨fun hgrant => ?_, fun hnot => ?_⟩
  · simp only [wp_bind, wp_set, wp_pure]
    rw [if_neg (by unfold sbrkFailed; omega)]
    simp only [wp_bind, wp_get]
    refine (wp_errxIf _ (not_not.mpr hbrk)).mpr ?_
    simp only [wp_modify, wp_pure]
    rw [hbrk]
    exact hok hgrant.2
  · rw [wp_pure, if_pos rfl, wp_pure]
    exact hfail hnot

/-- A positive amount. -/
theorem mallocSbrk_grow (hr : h.Repr bs) {amount : ℕ} (hamt : amount < 2 ^ 31) {Q : ℕ → Uheap → Prop}
    (hfail : ¬ (grant amount = true ∧ h.Allows amount) → Q 0 h)
    (hok : h.Allows amount → h.heaptop + amount < 2 ^ 32 → h.heaptop + amount < h.start + 2 ^ 31 →
      Q h.heaptop (h.grown amount h.mem)) :
    (mallocSbrk grant amount).wp c Q E h := by
  refine mallocSbrk_wp hr hfail fun hok' => ?_
  have hallows := (Uheap.allows_iff hamt).mp hok'
  rw [hr.brk] at hallows
  have hnew : (h.newBrk amount).toNat = h.heaptop + amount := by
    unfold Uheap.newBrk
    rw [if_pos hamt, hr.brk]
    omega
  have hgrown : ({ h with brk := (h.newBrk amount).toNat, heaptop := u32 (h.heaptop + amount) } : Uheap) =
      h.grown amount h.mem := by
    rw [Uheap.grown, hnew, ← Nat.cast_add, u32_natCast hallows.2.1]
  rw [hgrown]
  exact hok hok' hallows.2.1 hallows.2.2

/-- Rounded up to whole pages. -/
def wholePages (n : ℕ) : ℕ := (n + 4095) / 4096 * 4096

/-- What a block of `size` bytes at the top of the heap takes in addition. -/
def shortfall (bs : List Ublock) (size : ℕ) : ℕ :=
  match bs.getLast? with
  | some b => if b.used then size + 8 else size + 8 - b.len
  | none => size + 8

theorem shortfall_used (h : ∀ b ∈ bs.getLast?, b.used = true) : shortfall bs size = size + 8 := by
  unfold shortfall
  cases hlast : bs.getLast? with
  | none => rfl
  | some b => exact if_pos (h b hlast)

theorem shortfall_free (hu : b.used = false) : shortfall (A ++ [b]) size = size + 8 - b.len := by
  unfold shortfall
  rw [List.getLast?_concat]
  exact if_neg (by rw [hu]; exact Bool.false_ne_true)

theorem shortfall_le (bs : List Ublock) (size : ℕ) : shortfall bs size ≤ size + 8 := by
  unfold shortfall
  split
  · split_ifs <;> omega
  · exact le_rfl

/-- The amount asked for. -/
theorem morespace_eq (need : ℕ) (hlt : need + 4096 ≤ 2 ^ 32) :
    u32 (4096 * (u32 (need + 4096 - 1) / 4096 : ℕ)) = wholePages need := by
  unfold u32 wholePages
  omega

/-- It is a number of pages that is large enough. -/
theorem pages_spec (need : ℕ) (hpos : 0 < need) (hlt : need + 4096 ≤ 2 ^ 31) :
    ∃ amount, wholePages need = amount ∧ u32 (4096 * (u32 (need + 4096 - 1) / 4096 : ℕ)) = amount ∧ need ≤ amount ∧
      4096 ≤ amount ∧ amount % 8 = 0 ∧ amount < 2 ^ 31 := by
  refine ⟨_, rfl, morespace_eq need (by omega), ?_⟩
  unfold wholePages
  omega

/-- The end of `malloc`, on a heap with a new block at its top. -/
theorem mallocTop_wp {amount : ℕ} {m : ℕ → ℕ} (hr : (h.grown amount m).Repr (A ++ [b])) (hused : b.used = true)
    (hk : size = 8 * k) (hkn : k + 1 ≤ b.n) (hkept : h.Kept (h.grown amount m) bs (A ++ [b]) (h.addr A))
    (hfree : ∀ d, (h.addr A, d) ∈ laid Ublock.len h.heapbase bs → d.used = false)
    (hbs : ∃ C, bs = A ++ C) (hall : ∀ b ∈ bs, b.used = false → b.len < size + 8) {Q : ℕ → Uheap → Prop}
    (hQ : ∀ h' bs' x, h.Got h' bs x k bs' → Q (x + 8) h') :
    Op.wp c (do
      mallocSplit (h.addr A) size
      pure (mData (h.addr A))) Q E (h.grown amount m) := by
  rw [← List.append_nil (A ++ [b])] at hr
  simp only [wp_bind, wp_pure]
  rw [show mData (h.addr A) = h.addr A + 8 from hr.addr_lt]
  refine mallocSplit_kept hr hk hkn fun m' d R hrepr hdu hdn hkept' hfrom hR => ?_
  rw [List.append_nil] at hkept' hfrom
  obtain ⟨C, rfl⟩ := hbs
  have htop : UsedFrom h.heapbase (A ++ C) (A ++ [b]) (h.addr A) := by
    intro z e he _ hne
    rw [laid_append, List.mem_append] at he ⊢
    exact he.imp_right fun hmem => absurd (Prod.mk.inj (List.mem_singleton.mp hmem)).1 hne
  have hchain (hc : Coalesced (A ++ C)) : Coalesced (A ++ [d] ++ R) := by
    refine Coalesced.insert (List.isChain_append.mp hc).1 ?_ (hdu.trans hused)
    rcases hR with rfl | ⟨r, -, rfl⟩
    · exact List.isChain_nil
    · exact List.isChain_singleton r
  refine hQ _ _ _ ⟨hrepr, rfl, hkept.trans rfl hkept', hfree, htop.trans hfrom, hchain, fun _ => hk ▸ hall, d, ?_,
    hdu.trans hused, hdn⟩
  rw [List.append_assoc]
  exact laid_middle

/-- The top block is free, and grows. -/
theorem mallocExpand_grow (hr : h.Repr (A ++ [b])) (hbu : b.used = false) (hk : size = 8 * k)
    (hshort : size + 8 - b.len + 4096 ≤ 2 ^ 31) (hall : ∀ d ∈ A ++ [b], d.used = false → d.len < size + 8)
    {Q : ℕ → Uheap → Prop}
    (hnull : ¬ (grant (wholePages (size + 8 - b.len)) = true ∧ h.Allows (wholePages (size + 8 - b.len))) → Q 0 h)
    (hQ : h.Allows (wholePages (size + 8 - b.len)) → ∀ h' bs' x, h.Got h' (A ++ [b]) x k bs' → Q (x + 8) h') {right : ℕ} :
    (mallocExpand grant size (h.addr A) right).wp c Q E h := by
  have hbase := hr.base
  have hsmall := hall b (by simp) hbu
  obtain ⟨hdr, hend, hn, -, -, -, hle⟩ := hr.block
  have hlen : b.len = 8 * b.n := rfl
  have hpos := b.len_pos
  have hcond : h.addr A ≠ 0 ∧ mhInuse h.mem (h.addr A) = 0 := ⟨by omega, by rw [hdr.inuse, hbu]; rfl⟩
  have hlt : mSize h.mem (h.addr A) < size := by
    rw [hdr.size hn]
    omega
  have hlt32 : size < 2 ^ 32 := by
    have htotal := hr.total
    have hstart := hr.start
    omega
  have hneed : u32 (size - mSize h.mem (h.addr A)) = size + 8 - b.len := by
    rw [hdr.size hn, u32_sub (by omega) (by omega)]
    omega
  obtain ⟨amount, hpages, hamount, henough, hpage, hmod, hamt⟩ := pages_spec (size + 8 - b.len) (by omega) hshort
  rw [hpages] at hnull hQ
  obtain ⟨b', hb'n, hb'u⟩ : ∃ b' : Ublock, b'.n = b.n + amount / 8 ∧ b'.used = true :=
    ⟨⟨b.n + amount / 8, true, Nat.add_pos_left b.pos _⟩, rfl, rfl⟩
  have hb'len : b'.len = 8 * b'.n := rfl
  unfold mallocExpand
  simp only [wp_bind, wp_get]
  rw [if_pos hcond, wp_bind]
  refine (wp_errxIf _ (not_not.mpr hlt)).mpr ?_
  rw [if_pos hcond, hneed, hamount, wp_bind]
  refine mallocSbrk_grow hr hamt (fun hnot => ?_) fun hallows h32 h31 => ?_
  · rw [if_pos rfl, wp_pure]
    exact hnull hnot
  rw [if_neg (by omega), if_pos hcond]
  have hfield : mMkfield (u32 (mNextoff h.mem (h.addr A) + amount)) = b'.n := by
    rw [hdr.nextoff hn]
    unfold mMkfield u32
    omega
  let m := Function.update h.mem (h.addr A + 4) (b'.n * 8 + b'.used.toNat * 4 + 2)
  have hmem : setInuse (h.addr A) 1 (setNextblock (h.addr A) b'.n h.mem) = m := by
    have hdr₁ : Hdr (Function.update h.mem (h.addr A + 4) (b'.n * 8 + b.used.toNat * 4 + 2)) (h.addr A) (lastN 0 A)
        ⟨b'.n, b.used, b'.pos⟩ :=
      ⟨(Function.update_of_ne (by omega) ..).trans hdr.1, Function.update_self ..⟩
    rw [hdr.setNextblock_eq (by omega)]
    refine (hdr₁.setInuse_eq true).trans ?_
    rw [Function.update_idem, ← hb'u]
  have hframe (y : ℕ) (hy : y ≠ h.addr A + 4) : m y = h.mem y := Function.update_of_ne hy ..
  have hrepr : (h.grown amount m).Repr (A ++ [b']) := by
    refine hr.extend h32 h31 ?_ (fun y hy => hframe y (by omega)) ⟨⟨?_, Function.update_self ..⟩, trivial⟩ fun d hd => ?_
    · simp only [room_cons, room_nil]
      omega
    · exact (hframe _ (by omega)).trans hdr.1
    · rw [List.getLast?_concat] at hd
      obtain rfl : b' = d := Option.some.inj hd
      omega
  have hkept : h.Kept (h.grown amount m) (A ++ [b]) (A ++ [b']) (h.addr A) := by
    intro z d hd hu hne
    have hlen' := d.len_pos
    rw [← List.append_nil (A ++ [b])] at hd
    have hout := laid_outside hd hne
    rw [← List.append_nil (A ++ [b'])]
    refine ⟨laid_replace hd ?_ (Or.inl rfl), fun y h1 h2 => hframe y fun hy => ?_⟩
    · simp only [room_cons, room_nil]
      omega
    · unfold Uheap.addr at hy
      omega
  have hgoal := mallocTop_wp (c := c) (E := E) hrepr hb'u hk (by omega) hkept (fun d hd => ?_) ⟨[b], rfl⟩ hall (hQ hallows)
  · simp only [wp_bind, wp_poke, hfield]
    rw [wp_bind, ← hmem] at hgoal
    exact hgoal
  · rw [← List.append_nil (A ++ [b])] at hd
    rw [laid_only hd, hbu]

/-- A new block at the top. -/
theorem mallocExpand_new (hr : h.Repr bs) (hmh : mh = 0 ∨ mhInuse h.mem mh ≠ 0) (hk : size = 8 * k)
    (hshort : size + 4104 ≤ 2 ^ 31) (hall : ∀ b ∈ bs, b.used = false → b.len < size + 8) {Q : ℕ → Uheap → Prop}
    (hnull : ¬ (grant (wholePages (size + 8)) = true ∧ h.Allows (wholePages (size + 8))) → Q 0 h)
    (hQ : h.Allows (wholePages (size + 8)) → ∀ h' bs' x, h.Got h' bs x k bs' → Q (x + 8) h') :
    (mallocExpand grant size mh (lastN 0 bs)).wp c Q E h := by
  have hbase := hr.base
  have htop : h.heaptop = h.addr bs := hr.top
  have hge : h.heapbase ≤ h.addr bs := Nat.le_add_right ..
  have hlast := lastN_le 0 bs
  have hstart := hr.start
  have htotal := hr.total
  have hcond : ¬ (mh ≠ 0 ∧ mhInuse h.mem mh = 0) := by tauto
  have hneed : u32 (8 + size) = size + 8 := by
    unfold u32
    omega
  obtain ⟨amount, hpages, hamount, henough, hpage, hmod, hamt⟩ := pages_spec (size + 8) (by omega) (by omega)
  rw [hpages] at hnull hQ
  obtain ⟨b', hb'n, hb'u⟩ : ∃ b' : Ublock, b'.n = amount / 8 ∧ b'.used = true :=
    ⟨⟨amount / 8, true, by omega⟩, rfl, rfl⟩
  have hb'len : b'.len = 8 * b'.n := rfl
  unfold mallocExpand
  simp only [wp_bind, wp_get]
  rw [if_neg hcond, if_neg hcond, hneed, hamount, wp_bind]
  refine mallocSbrk_grow hr hamt (fun hnot => ?_) fun hallows h32 h31 => ?_
  · rw [if_pos rfl, wp_pure]
    exact hnull hnot
  rw [if_neg (by omega), if_neg hcond]
  have hlast29 : lastN 0 bs < 2 ^ 29 := by
    unfold Uheap.addr at htop
    omega
  let m := Function.update (Function.update h.mem h.heaptop (lastN 0 bs * 8 + 2)) (h.heaptop + 4) (mMkfield amount * 8 + 4 + 2)
  have hframe (y : ℕ) (h0 : y ≠ h.heaptop) (h4 : y ≠ h.heaptop + 4) : m y = h.mem y := by
    simp only [m, Function.update_of_ne h0, Function.update_of_ne h4]
  have hrepr : (h.grown amount m).Repr (bs ++ [b']) := by
    rw [← List.append_nil bs] at hr
    refine hr.extend h32 h31 ?_ (fun y hy => hframe y (by omega) (by omega)) ⟨⟨?_, ?_⟩, trivial⟩ fun d hd => ?_
    · simp only [room_cons, room_nil]
      omega
    · rw [← htop]
      simp only [m]
      rw [Function.update_of_ne (by omega), Function.update_self]
    · rw [← htop, hb'n, hb'u]
      exact Function.update_self ..
    · rw [List.getLast?_concat] at hd
      obtain rfl : b' = d := Option.some.inj hd
      omega
  have hbelow (z : ℕ) (d : Ublock) (hd : (z, d) ∈ laid Ublock.len h.heapbase bs) : z + d.len ≤ h.heaptop :=
    htop ▸ (laid_bounds hd).2
  have hkept : h.Kept (h.grown amount m) bs (bs ++ [b']) (h.addr bs) := by
    intro z d hd hu hne
    have hz := hbelow z d hd
    rw [laid_append]
    exact ⟨List.mem_append_left _ hd, fun y h1 h2 => hframe y (by omega) (by omega)⟩
  have hgoal := mallocTop_wp (c := c) (E := E) hrepr hb'u hk (by omega) hkept (fun d hd => ?_)
    ⟨[], (List.append_nil bs).symm⟩ hall (hQ hallows)
  · simp only [wp_bind, wp_poke]
    rw [topHeader_eq hlast29 (by unfold mMkfield; omega)]
    rw [wp_bind, ← htop] at hgoal
    exact hgoal
  · have hz := hbelow _ d hd
    have := d.len_pos
    omega

/-- The two ways to get more room: the top block is free, or there has to be a new one. -/
theorem Uheap.LastAt.cases (hr : h.Repr bs) (hmh : h.LastAt bs mh) (size : ℕ) :
    (∃ A b, bs = A ++ [b] ∧ b.used = false ∧ mh = h.addr A) ∨
      ((mh = 0 ∨ mhInuse h.mem mh ≠ 0) ∧ shortfall bs size = size + 8) := by
  rcases hmh with ⟨rfl, rfl⟩ | ⟨A, b, rfl, rfl⟩
  · exact Or.inr ⟨Or.inl rfl, rfl⟩
  · cases hbu : b.used with
    | false => exact Or.inl ⟨A, b, rfl, hbu, rfl⟩
    | true =>
      refine Or.inr ⟨Or.inr ?_, shortfall_used fun d hd => ?_⟩
      · rw [hr.block.1.inuse, hbu]
        exact Nat.one_ne_zero
      · rw [List.getLast?_concat] at hd
        obtain rfl : b = d := Option.some.inj hd
        exact hbu

theorem mallocExpand_wp (hr : h.Repr bs) (hmh : h.LastAt bs mh) (hk : size = 8 * k)
    (hshort : shortfall bs size + 4096 ≤ 2 ^ 31) (hall : ∀ b ∈ bs, b.used = false → b.len < size + 8)
    {Q : ℕ → Uheap → Prop}
    (hnull : ¬ (grant (wholePages (shortfall bs size)) = true ∧ h.Allows (wholePages (shortfall bs size))) → Q 0 h)
    (hQ : h.Allows (wholePages (shortfall bs size)) → ∀ h' bs' x, h.Got h' bs x k bs' → Q (x + 8) h') :
    (mallocExpand grant size mh (lastN 0 bs)).wp c Q E h := by
  rcases hmh.cases hr size with ⟨A, b, rfl, hbu, rfl⟩ | ⟨hmh, hneed⟩
  · rw [shortfall_free hbu] at hshort hnull hQ
    exact mallocExpand_grow hr hbu hk hshort hall hnull hQ
  · rw [hneed] at hshort hnull hQ
    exact mallocExpand_new hr hmh hk (by omega) hall hnull hQ

theorem length_le_room : bs.length ≤ room Ublock.len bs := by
  induction bs with
  | nil => rfl
  | cons b bs ih =>
    have := b.len_pos
    rw [List.length_cons, room_cons]
    omega

/-- The search finds a block, or it gets to the end. -/
theorem mallocReady_cases (hr : h.Repr bs) (hk : u32 (size + 8 - 1) / 8 * 8 = 8 * k) {Q : ℕ → Uheap → Prop}
    (hfound : ∀ A b B, bs = A ++ [b] ++ B → b.used = false → k + 1 ≤ b.n → Op.wp c (do
      mallocSplit (h.addr A) (8 * k)
      poke (setInuse (h.addr A) 1)
      pure (mData (h.addr A))) Q E h)
    (hended : ∀ mh, h.LastAt bs mh → (∀ b ∈ bs, b.used = false → b.len < 8 * k + 8) →
      (mallocExpand grant (8 * k) mh (lastN 0 bs)).wp c Q E h) : (mallocReady grant size).wp c Q E h := by
  have hbase := hr.base
  have htop := hr.top
  have hfuel : bs.length ≤ room Ublock.len bs := length_le_room
  unfold mallocReady
  simp only [wp_bind, wp_get]
  refine (wp_errxIf _ (by omega)).mpr ?_
  rw [hk]
  refine mallocSearch_wp (A := []) (B := bs) hr (by omega) (Or.inl ⟨rfl, rfl⟩) (fun A b B hbs hfree hbig => ?_)
    fun mh hmh hall => ?_
  · unfold Ublock.len at hbig
    exact hfound A b B (by simpa using hbs) hfree (by omega)
  · rw [wp_bind]
    refine (wp_errxIf _ (fun hne => hne rfl)).mpr ?_
    exact hended mh hmh hall

/-- What is missing is little enough for `sbrk` to take it for what it is. -/
theorem mallocReady_fits (hr : h.Repr bs) (hk : u32 (size + 8 - 1) / 8 * 8 = 8 * k) {Q : ℕ → Uheap → Prop}
    (hshort : (∀ b ∈ bs, b.used = false → b.len < 8 * k + 8) → shortfall bs (8 * k) + 4096 ≤ 2 ^ 31)
    (hnull : (∀ b ∈ bs, b.used = false → b.len < 8 * k + 8) →
      ¬ (grant (wholePages (shortfall bs (8 * k))) = true ∧ h.Allows (wholePages (shortfall bs (8 * k)))) → Q 0 h)
    (hQ : ∀ h' bs' x, h.Got h' bs x k bs' → Q (x + 8) h') : (mallocReady grant size).wp c Q E h := by
  refine mallocReady_cases hr hk (fun A b B hbs hfree hbig => ?_) fun mh hmh hall => ?_
  · subst hbs
    exact mallocFound_wp hr hfree rfl hbig fun h' bs' hgot => hQ h' bs' _ hgot
  · exact mallocExpand_wp hr hmh rfl (hshort hall) hall (hnull hall) fun _ => hQ

theorem mallocReady_wp (hr : h.Repr bs) (hsize : size < 2 ^ 31 - 2 ^ 13) {Q : ℕ → Uheap → Prop} (hnull : Q 0 h)
    (hQ : ∀ h' bs' x k, h.Got h' bs x k bs' → size ≤ 8 * k → 8 * k < size + 8 → Q (x + 8) h') :
    (mallocReady grant size).wp c Q E h := by
  obtain ⟨k, hk, hle, hlt, hbound⟩ : ∃ k, u32 (size + 8 - 1) / 8 * 8 = 8 * k ∧ size ≤ 8 * k ∧ 8 * k < size + 8 ∧
      8 * k + 2 ^ 13 ≤ 2 ^ 31 := by
    refine ⟨(size + 7) / 8, ?_, ?_, ?_, ?_⟩
    · unfold u32
      omega
    · omega
    · omega
    · omega
  have hshort := shortfall_le bs (8 * k)
  exact mallocReady_fits hr hk (fun _ => by omega) (fun _ _ => hnull) fun h' bs' x hgot => hQ h' bs' x k hgot hle hlt

/-- Before the first call. -/
structure Uheap.Unset (h : Uheap) : Prop where
  base : h.heapbase = 0
  top : h.heaptop = 0
  pos : 0 < h.brk
  start : h.brk = h.start
  lt : h.brk < 2 ^ 32

theorem wp_errxIf_cases {p : Prop} [Decidable p] {e : MallocExit} {Q : Unit → Uheap → Prop} (hE : p → E e h)
    (hQ : ¬ p → Q () h) : (errxIf p e).wp c Q E h := by
  unfold errxIf
  rw [wp_ite, wp_fail, wp_pure]
  exact ⟨hE, hQ⟩

/-- `sbrk` of an amount that does not matter for the sign. -/
theorem sbrk_wp {amount : ℕ} (hamt : amount < 2 ^ 31) {Q : ℕ → Uheap → Prop}
    (hfail : ¬ (grant amount = true ∧ h.Allows amount) → Q sbrkFailed h)
    (hok : h.brk + amount < 2 ^ 32 → h.brk + amount < h.start + 2 ^ 31 → Q h.brk { h with brk := h.brk + amount }) :
    (sbrk grant amount).wp c Q E h := by
  unfold sbrk
  simp only [wp_bind, wp_get]
  rw [wp_ite]
  refine ⟨fun hgrant => ?_, fun hnot => hfail hnot⟩
  have hall := (Uheap.allows_iff hamt).mp hgrant.2
  have hnew : (h.newBrk amount).toNat = h.brk + amount := by
    unfold Uheap.newBrk
    rw [if_pos hamt]
    omega
  simp only [wp_bind, wp_set, wp_pure]
  rw [hnew]
  exact hok hall.2.1 hall.2.2

theorem mallocInit_wp (hu : h.Unset) {Q : Unit → Uheap → Prop}
    (hfail : ∀ e h' amount, e = .initialSbrk ∨ e = .sbrkAligning → amount < 8 →
      h.brk = sbrkFailed ∨ ¬ (grant amount = true ∧ h.Allows amount) → E e h')
    (hQ : ∀ h', h'.Repr [] → h'.mem = h.mem → h'.start = h.start → h'.brk = (h.brk + 7) / 8 * 8 → Q () h') :
    (mallocInit grant).wp c Q E h := by
  obtain ⟨hbase, htop, hpos, hstart, hlt⟩ := hu
  unfold mallocInit
  simp only [wp_bind, wp_get]
  refine (wp_errxIf _ (by omega)).mpr ?_
  -- the first `sbrk` only asks for the break
  refine sbrk_wp (by decide) (fun hnot => ?_) fun _ _ => ?_
  · exact wp_errxIf_cases (fun _ => hfail _ _ 0 (Or.inl rfl) (by decide) (Or.inr hnot)) fun hne => absurd rfl hne
  refine wp_errxIf_cases (fun hfull => hfail _ _ 0 (Or.inl rfl) (by decide) (Or.inl hfull)) fun hone => ?_
  refine (wp_errxIf _ (by omega)).mpr ?_
  simp only [wp_modify]
  rw [wp_ite]
  refine ⟨fun hodd => ?_, fun heven => ?_⟩
  · rw [wp_bind]
    have hadjust : 8 - h.brk % 8 < 8 := by omega
    refine sbrk_wp (by omega) (fun hnot => ?_) fun h32 h31 => ?_
    · rw [wp_bind]
      exact wp_errxIf_cases (fun _ => hfail _ _ _ (Or.inr rfl) hadjust (Or.inr hnot)) fun hne => absurd rfl hne
    · simp only [wp_bind]
      refine (wp_errxIf _ hone).mpr ((wp_errxIf _ (fun hne => hne rfl)).mpr ?_)
      simp only [wp_modify]
      have hcast : u32 (h.brk + (8 - h.brk % 8 : ℕ)) = h.brk + (8 - h.brk % 8) := by
        rw [← Nat.cast_add]
        exact u32_natCast h32
      rw [hcast]
      refine hQ _ ⟨?_, ?_, rfl, rfl, ?_, h32, h31, trivial, (by simp)⟩ rfl rfl ?_
      · change 0 < h.brk + _
        omega
      · change (h.brk + (8 - h.brk % 8)) % 8 = 0
        omega
      · change h.start ≤ h.brk + _
        omega
      · change h.brk + (8 - h.brk % 8) = _
        omega
  · rw [wp_pure]
    refine hQ _ ⟨hpos, by change h.brk % 8 = 0; omega, rfl, rfl, hstart.ge, hlt, ?_, trivial, (by simp)⟩ rfl rfl ?_
    · change h.brk < h.start + _
      omega
    · change h.brk = _
      omega

/-! ### Release -/

/-- What `__malloc_trymerge` makes of two blocks and those behind: one free block, or it
leaves them as they are. -/
def Merged (a b : Ublock) (B : List Ublock) (d : Ublock) (R : List Ublock) : Prop :=
  (a.used = false ∧ b.used = false ∧ d.used = false ∧ R = B) ∨ ((a.used = true ∨ b.used = true) ∧ d = a ∧ R = b :: B)

/-- After a try to merge, a free block has no free block behind it. -/
theorem Merged.behind {d : Ublock} {R : List Ublock} (hm : Merged a b B d R) (ha : a.used = false)
    (h : Coalesced (b :: B)) : d.used = false ∧ Coalesced (d :: R) := by
  rcases hm with ⟨-, hb, hd, rfl⟩ | ⟨hused, rfl, rfl⟩
  · exact ⟨hd, h.swap hb⟩
  · refine ⟨ha, List.isChain_cons_cons.mpr ⟨hused, h⟩⟩

/-- Nor one in front of it, if it was merged with that. -/
theorem Merged.join {d : Ublock} {R : List Ublock} (hm : Merged a b B d R) (hA : Coalesced (A ++ [a]))
    (hb : b.used = false) (hB : Coalesced (b :: B)) : Coalesced (A ++ [d] ++ R) := by
  rw [List.append_assoc, List.singleton_append, Coalesced, List.isChain_split]
  rcases hm with ⟨ha, -, -, rfl⟩ | ⟨hused, rfl, rfl⟩
  · exact ⟨hA.swap_last ha, hB.swap hb⟩
  · exact ⟨hA, List.isChain_cons_cons.mpr ⟨hused, hB⟩⟩

theorem mallocTrymerge_kept (hr : h.Repr (A ++ [a, b] ++ B)) {Q : Unit → Uheap → Prop}
    (hQ : ∀ m (d : Ublock) R, Merged a b B d R → { h with mem := m }.Repr (A ++ [d] ++ R) →
      h.Kept { h with mem := m } (A ++ [a, b] ++ B) (A ++ [d] ++ R) x →
      (∀ y, UsedFrom h.heapbase (A ++ [a, b] ++ B) (A ++ [d] ++ R) y) → Q () { h with mem := m }) :
    (mallocTrymerge (h.addr A) (h.addr A + a.len)).wp c Q E h := by
  have hassoc : A ++ [a, b] ++ B = A ++ [a] ++ b :: B := by simp
  refine mallocTrymerge_wp hr (fun hused => ?_) fun m d hau hbu hdn hdu hrepr hframe => ?_
  · refine hQ h.mem a (b :: B) (Or.inr ⟨hused, rfl, rfl⟩) (hassoc ▸ hr) ?_ ?_
    · rw [hassoc]
      exact fun z e he _ _ => ⟨he, fun _ _ _ => rfl⟩
    · rw [hassoc]
      exact fun y z e he _ _ => he
  · have hsame : room Ublock.len [d] = room Ublock.len [a, b] := by
      simp only [room_cons, room_nil, Ublock.len]
      omega
    refine hQ m d B (Or.inl ⟨hau, hbu, hdu, rfl⟩) hrepr (fun z e he hu _ => ?_) fun y z e he hu _ => ?_
    rotate_left
    · refine laid_swap he (fun hmem => ?_) (Or.inr hsame.symm)
      rw [(Prod.mk.inj (List.mem_singleton.mp hmem)).2, hdu] at hu
      exact Bool.false_ne_true hu
    refine ⟨laid_replace he ?_ (Or.inr hsame), fun y h1 h2 => hframe y (Uheap.not_headerWord he h1 h2)⟩
    -- a block in use is neither of the two
    have hea : (z, e) ≠ (h.addr A, a) := fun heq => by
      rw [(Prod.mk.inj heq).2, hau] at hu
      exact Bool.false_ne_true hu
    have heb : (z, e) ≠ (h.addr A + a.len, b) := fun heq => by
      rw [(Prod.mk.inj heq).2, hbu] at hu
      exact Bool.false_ne_true hu
    have hlen := e.len_pos
    have hla := a.len_pos
    have hlb := b.len_pos
    have hina : (h.addr A, a) ∈ laid Ublock.len h.heapbase (A ++ [a, b] ++ B) := by
      rw [List.append_assoc]
      exact laid_middle
    have hinb : (h.addr A + a.len, b) ∈ laid Ublock.len h.heapbase (A ++ [a, b] ++ B) := by
      rw [hassoc, ← Uheap.addr_concat]
      exact laid_middle
    have h1 : Apart z e.len (h.addr A) a.len := laid_apart he hina hea
    have h2 : Apart z e.len (h.addr A + a.len) b.len := laid_apart he hinb heb
    have haddr : h.addr A = h.heapbase + room Ublock.len A := rfl
    simp only [room_cons, room_nil]
    rcases h1 with h1 | h1 <;> rcases h2 with h2 | h2 <;> omega

theorem free_wp (hr : h.Repr (A ++ [b] ++ B)) (hu : b.used = true) {Q : Unit → Uheap → Prop}
    (hQ : ∀ h' bs', h'.Repr bs' → h'.heapbase = h.heapbase → h.Kept h' (A ++ [b] ++ B) bs' (h.addr A) →
      (∀ z d, (z, d) ∈ laid Ublock.len h.heapbase bs' → d.used = true →
        z ≠ h.addr A ∧ (z, d) ∈ laid Ublock.len h.heapbase (A ++ [b] ++ B)) →
      (Coalesced (A ++ [b] ++ B) → Coalesced bs') → Q () h') :
    (free (h.addr A + 8)).wp c Q E h := by
  have hbase := hr.base
  have hr' := hr
  rw [List.append_assoc, List.singleton_append] at hr'
  obtain ⟨hdr, htop, hn, hlastA, hlt, hal, hle⟩ := hr'.block
  have hpos := b.len_pos
  have hlen : b.len = 8 * b.n := rfl
  -- the pointer lies below the top, as an empty block is not the last one
  have hin : h.addr A + 8 < h.heaptop := by
    cases B with
    | nil =>
      have := hr.last b (by simp)
      omega
    | cons e B =>
      have := e.len_pos
      rw [room_cons] at htop
      omega
  obtain ⟨b₀, hb₀n, hb₀u⟩ : ∃ b₀ : Ublock, b₀.n = b.n ∧ b₀.used = false := ⟨⟨b.n, false, b.pos⟩, rfl, rfl⟩
  have hb₀len : b₀.len = b.len := by rw [Ublock.len, Ublock.len, hb₀n]
  -- the block is marked free, and its data wiped
  let h₁ : Uheap := { h with mem := mallocDeadbeef (h.addr A + 8) (b.len - 8) (setInuse (h.addr A) 0 h.mem) }
  obtain ⟨hrepr₀, -⟩ := hr.setUsed false hb₀n hb₀u
  have hwipe (y : ℕ) (hy : y < h.addr A + 8 ∨ h.addr A + b.len ≤ y) : h₁.mem y = setInuse (h.addr A) 0 h.mem y :=
    mallocDeadbeef_frame fun i hi => by omega
  have hself : (h.addr A, b₀) ∈ laid Ublock.len h.heapbase (A ++ [b₀] ++ B) := by
    rw [List.append_assoc]
    exact laid_middle
  have hrepr₁ : h₁.Repr (A ++ [b₀] ++ B) := by
    refine hrepr₀.congr fun y hy => hwipe y ?_
    by_contra hin
    exact Uheap.not_headerWord hself (by omega) (by omega) hy
  have hkept₁ : h.Kept h₁ (A ++ [b] ++ B) (A ++ [b₀] ++ B) (h.addr A) := by
    intro z d hd hdu hne
    obtain ⟨hstay, hdata⟩ := hr.setUsed_kept false hb₀n z d hd hdu hne
    have hout := laid_outside hd hne
    have haddr : h.addr A = h.heapbase + room Ublock.len A := rfl
    exact ⟨hstay, fun y h1 h2 => (hwipe y (by omega)).trans (hdata y h1 h2)⟩
  -- blocks in use are still the old ones
  have hused (bs' : List Ublock) (hfrom : ∀ y, UsedFrom h.heapbase (A ++ [b₀] ++ B) bs' y) (z : ℕ) (d : Ublock)
      (hd : (z, d) ∈ laid Ublock.len h.heapbase bs') (hdu : d.used = true) :
      z ≠ h.addr A ∧ (z, d) ∈ laid Ublock.len h.heapbase (A ++ [b] ++ B) := by
    have hold := hfrom (z + 1) z d hd hdu (by omega)
    have hne : z ≠ h.addr A := by
      intro hz
      rw [hz] at hold
      rw [laid_only hold, hb₀u] at hdu
      exact Bool.false_ne_true hdu
    refine ⟨hne, laid_swap hold (fun hmem => hne (Prod.mk.inj (List.mem_singleton.mp hmem)).1) (Or.inr ?_)⟩
    simp only [room_cons, room_nil, hb₀len]
  -- what is left to do once the block above has been seen to
  have hbelow (m : ℕ → ℕ) (d : Ublock) (R : List Ublock) (hrepr : { h₁ with mem := m }.Repr (A ++ [d] ++ R))
      (hkept : h₁.Kept { h₁ with mem := m } (A ++ [b₀] ++ B) (A ++ [d] ++ R) (h.addr A))
      (hfrom : ∀ y, UsedFrom h.heapbase (A ++ [b₀] ++ B) (A ++ [d] ++ R) y)
      (hchain : Coalesced (A ++ [b] ++ B) → d.used = false ∧ Coalesced (d :: R)) :
      Op.wp c (if h.addr A ≠ h.heapbase then do
        let g ← Op.get
        mallocTrymerge (mPrev g.mem (h.addr A)) (h.addr A)
      else pure ()) Q E { h₁ with mem := m } := by
    have hkept₂ := hkept₁.trans rfl hkept
    rw [wp_ite]
    refine ⟨fun hne => ?_, fun hfirst => hQ _ _ hrepr rfl hkept₂ (hused _ hfrom) fun hc => ?_⟩
    · obtain rfl | ⟨A', a, rfl⟩ := List.eq_nil_or_concat' A
      · exact absurd rfl hne
      have hrd := hrepr
      rw [List.append_assoc _ [d], List.singleton_append] at hrd
      obtain ⟨hdrd, -, -, hlastd, -, -, -⟩ := hrd.block
      rw [lastN_concat] at hdrd hlastd
      change Hdr m (h.addr (A' ++ [a])) a.n d at hdrd
      have haddr : h.addr (A' ++ [a]) = h.addr A' + a.len := Uheap.addr_concat
      have hlena : a.len = 8 * a.n := rfl
      have hprev : mPrev m (h.addr (A' ++ [a])) = h.addr A' := by
        rw [mPrev, hdrd.prevoff hlastd, haddr]
        unfold u32
        omega
      simp only [wp_bind, wp_get]
      rw [hprev, haddr]
      have hassoc : A' ++ [a] ++ [d] ++ R = A' ++ [a, d] ++ R := by simp
      refine mallocTrymerge_kept (x := h.addr (A' ++ [a])) (hassoc ▸ hrepr) fun m' e R' hm hrepr' hkept' hfrom' =>
        hQ _ _ hrepr' rfl ?_ (hused _ fun y => ?_) fun hc => ?_
      · refine hkept₂.trans rfl ?_
        rw [hassoc]
        exact hkept'
      · refine (hfrom y).trans ?_
        rw [hassoc]
        exact hfrom' y
      · exact hm.join hc.split.1 (hchain hc).1 (hchain hc).2
    · -- there is nothing below the bottom
      have hA : A = [] := by
        rw [not_not] at hfirst
        cases A with
        | nil => rfl
        | cons a A =>
          have := a.len_pos
          simp only [Uheap.addr, room_cons] at hfirst
          omega
      subst hA
      exact (hchain hc).2
  have hdata : mData (h.addr A) = h.addr A + 8 := hr.addr_lt
  have hmh : u32 ((h.addr A + 8 : ℕ) - 8) = h.addr A := by
    unfold u32
    omega
  unfold free
  rw [if_neg (by omega)]
  simp only [wp_bind, wp_get]
  refine (wp_errxIf _ (by omega)).mpr ((wp_errxIf _ (by omega)).mpr ?_)
  rw [hmh]
  refine (wp_errxIf _ (not_not.mpr hdr.ok)).mpr ((wp_errxIf _ ?_).mpr ?_)
  · rw [hdr.inuse, hu]
    exact Nat.one_ne_zero
  simp only [wp_poke, hdata, hdr.size hn, hdr.next hn hlt]
  rw [wp_ite]
  refine ⟨fun hnot => ?_, fun hlast => hbelow h₁.mem b₀ B hrepr₁ (fun z d hd _ _ => ⟨hd, fun _ _ _ => rfl⟩)
    (fun y z d hd _ _ => hd) fun _ => ⟨hb₀u, ?_⟩⟩
  rotate_left
  · -- the block is the last one
    have hB : B = [] := by
      rw [not_not] at hlast
      cases B with
      | nil => rfl
      | cons e B =>
        have := e.len_pos
        rw [room_cons] at htop
        omega
    rw [hB]
    exact List.isChain_singleton b₀
  have hB : B ≠ [] := fun hB => hnot (by rw [hB, room_nil] at htop; exact htop)
  obtain ⟨e, B', rfl⟩ := List.exists_cons_of_ne_nil hB
  have hassoc : A ++ [b₀] ++ e :: B' = A ++ [b₀, e] ++ B' := by simp
  rw [wp_bind, show h.addr A + b.len = h.addr A + b₀.len by rw [hb₀len]]
  refine mallocTrymerge_kept (x := h.addr A) (hassoc ▸ hrepr₁) fun m d R hm hrepr hkept hfrom =>
    hbelow m d R hrepr ?_ ?_ fun hc => hm.behind hb₀u (List.isChain_cons.mp hc.split.2.1).2
  · rw [hassoc]
    exact hkept
  · rw [hassoc]
    exact hfrom

end Os161
