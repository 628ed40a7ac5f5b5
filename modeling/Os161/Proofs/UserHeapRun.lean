import Os161.Proofs.UserMalloc

/-! In every run of a program its heap stays in order. -/

namespace Os161

open Op

variable {h h' : Uheap} {bs bs' : List Ublock} {b : Ublock} {k size x z : ℕ} {grant : ℕ → Bool}

/-- The blocks of the program are the blocks of the heap in use, and free ones lie apart. -/
structure UserSys.InvAt (s : UserSys) (bs : List Ublock) : Prop where
  repr : s.heap.Repr bs
  block : ∀ l ∈ s.live, 8 ≤ l.ptr ∧ ∃ d, (l.ptr - 8, d) ∈ laid Ublock.len s.heap.heapbase bs ∧ d.used = true ∧
    l.size + 8 ≤ d.len
  once : (s.live.map UserBlock.ptr).Nodup
  used : ∀ z d, (z, d) ∈ laid Ublock.len s.heap.heapbase bs → d.used = true → ∃ l ∈ s.live, l.ptr = z + 8
  chain : Coalesced bs

/-- The heap has not been set up, or the blocks are in order, or the program has left. -/
inductive UserSys.Inv (s : UserSys) : Prop
  | unset (hended : s.ended = none) (hheap : s.heap.Unset) (hlive : s.live = [])
  | running (hended : s.ended = none) (bs : List Ublock) (h : s.InvAt bs)
  | left (e : MallocExit) (hended : s.ended = some (.exit e)) (he : e = .initialSbrk ∨ e = .sbrkAligning)

namespace UserSys

variable {s s' : UserSys} {l : UserBlock}

theorem InvAt.mod (h : s.InvAt bs) (hd : (z, b) ∈ laid Ublock.len s.heap.heapbase bs) : z % 8 = 0 := by
  obtain ⟨A, B, rfl, rfl⟩ := exists_split hd
  have h1 := h.repr.aligned
  have h2 := room_mod A
  omega

theorem InvAt.room_eq (h : s.InvAt bs) (hd : (l.ptr - 8, b) ∈ laid Ublock.len s.heap.heapbase bs) :
    s.room l = b.len - 8 := by
  obtain ⟨A, B, rfl, hz⟩ := exists_split hd
  obtain ⟨hdr, -, hn, -⟩ := h.repr.block
  rw [UserSys.room, hz]
  exact congrArg (· - 8) (hdr.nextoff hn)

theorem InvAt.blocks (h : s.InvAt bs) : s.Blocks ((laid Ublock.len s.heap.heapbase bs).map Prod.fst) := by
  refine ⟨fun l hl => ?_, fun l hl => ?_, fun l hl => ?_, fun l hl mh hmh => ?_, ?_⟩
  · obtain ⟨-, d, hd, -⟩ := h.block l hl
    exact List.mem_map.mpr ⟨_, hd, rfl⟩
  · obtain ⟨h8, d, hd, -⟩ := h.block l hl
    have := h.mod hd
    omega
  · obtain ⟨h8, d, hd, -, hsize⟩ := h.block l hl
    rw [h.room_eq hd]
    omega
  · obtain ⟨h8, d, hd, -⟩ := h.block l hl
    obtain ⟨⟨z, e⟩, he, rfl⟩ := List.mem_map.mp hmh
    have hdlen := d.len_pos
    have helen := e.len_pos
    rw [h.room_eq hd]
    unfold Apart
    by_cases hsame : (l.ptr - 8, d) = (z, e)
    · obtain ⟨rfl, rfl⟩ := Prod.mk.inj hsame
      omega
    · rcases laid_apart hd he hsame with hap | hap <;> simp only at hap ⊢ <;> omega
  · have honce : s.live.Pairwise fun l l' => l.ptr ≠ l'.ptr := List.pairwise_map.mp h.once
    refine honce.imp_of_mem fun {l l'} hl hl' hne => ⟨hne, ?_⟩
    obtain ⟨h8, d, hd, -⟩ := h.block l hl
    obtain ⟨h8', d', hd', -⟩ := h.block l' hl'
    have hdlen := d.len_pos
    have hdlen' := d'.len_pos
    rw [h.room_eq hd, h.room_eq hd']
    unfold Apart
    rcases laid_apart hd hd' (fun he => hne (by have := (Prod.mk.inj he).1; omega)) with hap | hap <;>
      simp only at hap <;> omega

theorem Inv.good (h : s.Inv) : s.Good := by
  cases h with
  | unset hended hheap hlive =>
    obtain ⟨hbase, htop, -⟩ := hheap
    rw [Good, hended]
    refine ⟨[], ⟨?_, (by simp), (by simp), (by simp), (by simp)⟩, ⟨?_, ?_, ?_, ?_, ?_⟩⟩
    · exact hbase.trans htop.symm
    all_goals rw [hlive]
    · simp
    · simp
    · simp
    · simp
    · exact List.Pairwise.nil
  | running hended bs h =>
    rw [Good, hended]
    exact ⟨_, h.repr.tiled, h.blocks⟩
  | left e hended he =>
    rw [Good, hended]
    exact he

theorem Inv.invAt (h : s.Inv) (hended : s.ended = none) (hl : l ∈ s.live) : ∃ bs, s.InvAt bs := by
  cases h with
  | unset _ _ hlive =>
    rw [hlive] at hl
    exact absurd hl List.not_mem_nil
  | running _ bs h => exact ⟨bs, h⟩
  | left e hend _ => exact absurd (hended.symm.trans hend) (by simp)

/-! ### Steps -/

/-- The words of a block hold its bytes. -/
theorem InvAt.keeps (h : s.InvAt bs) {h' : Uheap} (hl : l ∈ s.live) (hk : s.heap.Kept h' bs bs' x) (hne : l.ptr - 8 ≠ x)
    {a : ℕ} (h1 : l.ptr ≤ a) (h2 : a < l.ptr + s.room l) : byteAt h'.mem a = byteAt s.heap.mem a := by
  obtain ⟨h8, d, hd, hu, -⟩ := h.block l hl
  have hmod := h.mod hd
  rw [h.room_eq hd] at h2
  have hlen : d.len = 8 * d.n := rfl
  rw [byteAt, byteAt, (hk _ d hd hu hne).2 (a / 4 * 4) (by omega) (by omega)]

theorem call_of_wp {α : Type} {f : UheapM α} {next : α → Uheap → UserSys} {P : UserSys → Prop}
    (hf : f.wp False (fun r h => P (next r h)) (fun e h => P { s with heap := h, ended := some (.exit e) }) s.heap) :
    P (s.call f next) := by
  unfold call
  unfold Op.wp at hf
  cases hres : f s.heap with
  | ok r h =>
    rw [hres] at hf
    exact hf
  | err e h =>
    rw [hres] at hf
    exact hf
  | panic =>
    rw [hres] at hf
    exact hf.elim

/-- A new block is put in front of those of the program. -/
theorem InvAt.got (h : s.InvAt bs) {h' : Uheap} (hg : s.heap.Got h' bs x k bs') (hsize : size ≤ 8 * k) :
    { s with heap := h', live := ⟨x + 8, size⟩ :: s.live }.InvAt bs' ∧ ∀ l ∈ s.live, l.ptr - 8 ≠ x := by
  have hne (l : UserBlock) (hl : l ∈ s.live) : l.ptr - 8 ≠ x := fun he => by
    obtain ⟨-, d, hd, hu, -⟩ := h.block l hl
    rw [hg.free d (he ▸ hd)] at hu
    exact Bool.false_ne_true hu
  refine ⟨⟨hg.repr, fun l hl => ?_, ?_, fun z d hd hu => ?_, hg.chain h.chain⟩, hne⟩
  · rcases List.mem_cons.mp hl with rfl | hl
    · obtain ⟨d, hd, hu, hdn⟩ := hg.got
      refine ⟨Nat.le_add_left .., d, ?_, hu, ?_⟩
      · rw [hg.base]
        exact hd
      · change size + 8 ≤ 8 * d.n
        omega
    · obtain ⟨h8, d, hd, hu, hs⟩ := h.block l hl
      refine ⟨h8, d, ?_, hu, hs⟩
      rw [hg.base]
      exact (hg.kept _ d hd hu (hne l hl)).1
  · refine List.nodup_cons.mpr ⟨fun hmem => ?_, h.once⟩
    obtain ⟨l, hl, he⟩ := List.mem_map.mp hmem
    exact hne l hl (by rw [he]; rfl)
  · rw [hg.base] at hd
    by_cases hzx : z = x
    · exact ⟨⟨x + 8, size⟩, List.mem_cons_self, by rw [hzx]⟩
    · obtain ⟨l, hl, hptr⟩ := h.used z d (hg.used z d hd hu hzx) hu
      exact ⟨l, List.mem_cons_of_mem _ hl, hptr⟩

/-- `malloc` on a heap that has been set up. -/
theorem InvAt.mallocReady (h : s.InvAt bs) (hended : s.ended = none) (hsize : size < 2 ^ 31 - 2 ^ 13) :
    (mallocReady grant size).wp False (fun ptr h' =>
      ({ s with heap := h', live := if ptr = 0 then s.live else ⟨ptr, size⟩ :: s.live } : UserSys).Inv ∧
        ∀ l ∈ s.live, ∀ a, l.ptr ≤ a → a < l.ptr + s.room l → byteAt h'.mem a = byteAt s.heap.mem a)
      (fun _ _ => False) s.heap := by
  refine mallocReady_wp h.repr hsize ⟨?_, fun _ _ _ _ _ => rfl⟩ fun h' bs' x k hg hk _ =>
    ⟨?_, fun l hl a h1 h2 => ?_⟩
  · rw [if_pos rfl]
    exact .running hended bs h
  · rw [if_neg (by omega)]
    exact .running hended bs' (h.got hg hk).1
  · exact h.keeps hl hg.kept ((h.got hg hk).2 l hl) h1 h2

theorem malloc_step (grant : ℕ → Bool) (h : s.Inv) (hended : s.ended = none) (hsize : size < 2 ^ 31 - 2 ^ 13) :
    (s.call (malloc grant size) fun ptr h =>
      { s with heap := h, live := if ptr = 0 then s.live else ⟨ptr, size⟩ :: s.live }).Inv ∧
    s.Keeps (.malloc size grant) (s.call (malloc grant size) fun ptr h =>
      { s with heap := h, live := if ptr = 0 then s.live else ⟨ptr, size⟩ :: s.live }) := by
  refine call_of_wp (P := fun s' => s'.Inv ∧ s.Keeps (.malloc size grant) s') ?_
  unfold malloc
  simp only [wp_bind, wp_get]
  cases h with
  | unset _ hheap hlive =>
    rw [if_pos hheap.base, wp_bind]
    have hkeeps (s' : UserSys) : s.Keeps (.malloc size grant) s' := fun l hl => by
      rw [hlive] at hl
      exact absurd hl List.not_mem_nil
    refine mallocInit_wp hheap (fun e h' _ he _ _ => ⟨.left e rfl he, hkeeps _⟩) fun h₁ hr _ _ _ => ?_
    have hinv : { s with heap := h₁ }.InvAt [] := by
      refine ⟨hr, fun l hl => ?_, ?_, fun z d hd => absurd hd List.not_mem_nil, List.isChain_nil⟩
      · rw [show ({ s with heap := h₁ } : UserSys).live = [] from hlive] at hl
        exact absurd hl List.not_mem_nil
      · rw [show ({ s with heap := h₁ } : UserSys).live = [] from hlive]
        exact List.nodup_nil
    exact (hinv.mallocReady hended hsize).mono (fun ptr h' hres => ⟨hres.1, hkeeps _⟩) fun _ _ he => he.elim
  | running _ bs h =>
    have hbase := h.repr.base
    rw [if_neg (by omega)]
    exact (h.mallocReady hended hsize).mono (fun ptr h' hres => ⟨hres.1, fun l hl _ _ => hres.2 l hl⟩)
      fun _ _ he => he.elim
  | left e hend _ => exact absurd (hended.symm.trans hend) (by simp)

/-- The blocks of the program other than the one at `x` are kept. -/
theorem InvAt.kept (h : s.InvAt bs) {h' : Uheap} {live : List UserBlock} (hr : h'.Repr bs')
    (hbase : h'.heapbase = s.heap.heapbase) (hk : s.heap.Kept h' bs bs' x) (hsub : live.Sublist s.live)
    (hne : ∀ l ∈ live, l.ptr - 8 ≠ x)
    (hused : ∀ z d, (z, d) ∈ laid Ublock.len s.heap.heapbase bs' → d.used = true → ∃ l ∈ live, l.ptr = z + 8)
    (hchain : Coalesced bs') : { s with heap := h', live := live }.InvAt bs' := by
  refine ⟨hr, fun l hl => ?_, h.once.sublist (hsub.map _), by rw [hbase]; exact hused, hchain⟩
  obtain ⟨h8, d, hd, hu, hs⟩ := h.block l (hsub.subset hl)
  refine ⟨h8, d, ?_, hu, hs⟩
  rw [hbase]
  exact (hk _ d hd hu (hne l hl)).1

theorem free_step (h : s.InvAt bs) (hended : s.ended = none) (hl : l ∈ s.live) :
    (s.call (free l.ptr) fun _ h => { s with heap := h, live := s.live.filter fun b => b.ptr ≠ l.ptr }).Inv ∧
    s.Keeps (.free l.ptr)
      (s.call (free l.ptr) fun _ h => { s with heap := h, live := s.live.filter fun b => b.ptr ≠ l.ptr }) := by
  refine call_of_wp (P := fun s' => s'.Inv ∧ s.Keeps (.free l.ptr) s') ?_
  obtain ⟨h8, d, hd, hu, -⟩ := h.block l hl
  obtain ⟨A, B, rfl, hz⟩ := exists_split hd
  have hassoc : A ++ d :: B = A ++ [d] ++ B := by simp
  rw [hassoc] at h
  have hptr : l.ptr = s.heap.addr A + 8 := by
    rw [Uheap.addr, ← hz]
    omega
  have hout (l' : UserBlock) (hl' : l' ∈ s.live) (hne : l'.ptr ≠ l.ptr) : l'.ptr - 8 ≠ s.heap.addr A := fun he => by
    have := (h.block l' hl').1
    omega
  rw [hptr]
  refine free_wp h.repr hu fun h' bs' hr hbase hk hfrom hchain => ⟨?_, fun l' hl' _ hne a h1 h2 => ?_⟩
  · refine .running hended bs' (h.kept hr hbase hk List.filter_sublist (fun l' hl' => ?_) (fun z e he heu => ?_)
      (hchain h.chain))
    · obtain ⟨hmem, hne⟩ := List.mem_filter.mp hl'
      exact hout l' hmem (by simpa [hptr] using hne)
    · obtain ⟨hne, hold⟩ := hfrom z e he heu
      obtain ⟨l', hl', hptr'⟩ := h.used z e hold heu
      refine ⟨l', List.mem_filter.mpr ⟨hl', ?_⟩, hptr'⟩
      simp only [hptr', ne_eq, decide_not, Bool.not_eq_eq_eq_not, Bool.not_true, decide_eq_false_iff_not]
      omega
  · refine h.keeps hl' hk (hout l' hl' fun he => hne ?_) h1 h2
    rw [he, hptr]

/-- A store into a block is not one into a header. -/
theorem store_step (h : s.InvAt bs) (hl : l ∈ s.live) {a v : ℕ} (h1 : l.ptr ≤ a) (h2 : a < l.ptr + l.size) :
    { s with heap := { s.heap with mem := storeByte a v s.heap.mem } }.InvAt bs := by
  obtain ⟨h8, d, hd, hu, hs⟩ := h.block l hl
  have hmod := h.mod hd
  have hlen : d.len = 8 * d.n := rfl
  refine ⟨h.repr.congr fun y hy => Function.update_of_ne (fun he => ?_) .., h.block, h.once, h.used, h.chain⟩
  exact Uheap.not_headerWord hd (by omega) (by omega) (he ▸ hy)

end UserSys

theorem userStep_inv {s s' : UserSys} {e : UserEv} (h : s.Inv) (hs : userStep s e = some s') : s'.Inv ∧ s.Keeps e s' := by
  unfold userStep at hs
  cases hended : s.ended with
  | some _ =>
    simp only [hended] at hs
    exact absurd hs (by simp)
  | none =>
    simp only [hended] at hs
    cases e with
    | malloc size grant =>
      simp only at hs
      split_ifs at hs with hsize
      obtain rfl := Option.some.inj hs
      have hstep := UserSys.malloc_step grant h hended hsize
      rw [hended] at hstep
      exact hstep
    | free ptr =>
      simp only at hs
      split_ifs at hs with hlive
      obtain rfl := Option.some.inj hs
      obtain ⟨l, hl, rfl⟩ := hlive
      obtain ⟨bs, hbs⟩ := h.invAt hended hl
      have hstep := UserSys.free_step hbs hended hl
      rw [hended] at hstep
      exact hstep
    | store a v =>
      simp only at hs
      split_ifs at hs with hlive
      obtain rfl := Option.some.inj hs
      obtain ⟨l, hl, h1, h2⟩ := hlive
      obtain ⟨bs, hbs⟩ := h.invAt hended hl
      have hstep := UserSys.store_step (v := v) hbs hl h1 h2
      rw [hended] at hstep
      exact ⟨.running rfl bs hstep, fun _ _ hno => absurd rfl (hno a v)⟩

/-- In every run the headers tile the heap, the blocks of the program lie between them
apart from each other, no check of the library fails, and no call changes a block of
the program other than the one that it frees. -/
theorem user_heap_run (brk : ℕ) (mem : ℕ → ℕ) (hpos : 0 < brk) (hlt : brk < 2 ^ 32) (evs : List UserEv) :
    AllStates userStep UserSys.Good (UserSys.init brk mem) evs ∧
      AllSteps userStep (fun s e => ∀ s', userStep s e = some s' → s.Keeps e s') (UserSys.init brk mem) evs := by
  have hinit : (UserSys.init brk mem).Inv := .unset rfl ⟨rfl, rfl, hpos, rfl, hlt⟩ rfl
  refine ⟨AllStates.mono (fun s h => h.good) (allStates_of_step (fun s e t h ht => (userStep_inv h ht).1) hinit evs), ?_⟩
  refine allSteps_of_step (I := UserSys.Inv) (fun s e t h ht => ⟨fun s' hs' => (userStep_inv h hs').2, ?_⟩) hinit evs
  exact (userStep_inv h ht).1

theorem user_heap_run_free : (0 < 4259844 ∧ 4259844 < 2 ^ 32) ∧
    (exec userStep (UserSys.init 4259844 fun _ => 0) [.malloc 10 fun _ => true, .malloc 0 fun _ => true,
      .store 4259856 7, .free 4259856]).isSome = true ∧
    AllStates userStep UserSys.Good (UserSys.init 4259844 fun _ => 0) [.malloc 10 fun _ => true,
      .malloc 0 fun _ => true, .store 4259856 7, .free 4259856] :=
  ⟨⟨by decide, by decide⟩, by decide +kernel, (user_heap_run 4259844 (fun _ => 0) (by decide) (by decide) _).1⟩

end Os161
