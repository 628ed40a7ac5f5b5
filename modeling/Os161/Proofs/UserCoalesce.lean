import Os161.Proofs.UserHeapRun

/-! Free blocks of the user heap are merged as soon as they meet. -/

namespace Os161

open Op

variable {s : UserSys} {h : Uheap} {bs : List Ublock} {size z : ℕ} {d : Ublock} {grant : ℕ → Bool}

/-- The order of the blocks is the order of their headers. -/
theorem isChain_laid {m : ℕ → ℕ} {x : ℕ} (hc : Coalesced bs)
    (hm : ∀ z d, (z, d) ∈ laid Ublock.len x bs → d.used = true → mhInuse m z ≠ 0) :
    ((laid Ublock.len x bs).map Prod.fst).IsChain fun mh mh' => mhInuse m mh ≠ 0 ∨ mhInuse m mh' ≠ 0 := by
  induction bs generalizing x with
  | nil => exact List.isChain_nil
  | cons b bs ih =>
    obtain ⟨hhead, hrest⟩ := List.isChain_cons.mp hc
    refine List.isChain_cons.mpr ⟨fun mh hmh => ?_, ih hrest fun z d hd => hm z d (List.mem_cons_of_mem _ hd)⟩
    cases bs with
    | nil => exact absurd hmh (by simp [laid])
    | cons e bs =>
      obtain rfl : x + b.len = mh := Option.some.inj hmh
      rcases hhead e rfl with hu | hu
      · exact Or.inl (hm x b List.mem_cons_self hu)
      · exact Or.inr (hm (x + b.len) e (List.mem_cons_of_mem _ List.mem_cons_self) hu)

namespace UserSys

/-- Blocks that are all free, and no two of them neighbours, are at most one. -/
theorem InvAt.one_of_no_live (h : s.InvAt bs) (hlive : s.live = []) (hne : s.heap.heapbase < s.heap.heaptop) :
    ∃ b, bs = [b] ∧ b.used = false := by
  have hfree (b : Ublock) (z : ℕ) (hb : (z, b) ∈ laid Ublock.len s.heap.heapbase bs) : b.used = false := by
    cases hu : b.used with
    | false => rfl
    | true =>
      obtain ⟨l, hl, -⟩ := h.used z b hb hu
      rw [hlive] at hl
      exact absurd hl List.not_mem_nil
  have htop := h.repr.top
  cases bs with
  | nil =>
    rw [room_nil] at htop
    omega
  | cons b bs =>
    have hb := hfree b _ List.mem_cons_self
    cases bs with
    | nil => exact ⟨b, rfl, hb⟩
    | cons e bs =>
      have he := hfree e _ (List.mem_cons_of_mem _ List.mem_cons_self)
      rcases (List.isChain_cons_cons.mp h.chain).1 with hu | hu
      · rw [hb] at hu
        exact absurd hu Bool.false_ne_true
      · rw [he] at hu
        exact absurd hu Bool.false_ne_true

theorem InvAt.joined (h : s.InvAt bs) : s.Joined ((laid Ublock.len s.heap.heapbase bs).map Prod.fst) := by
  refine ⟨h.repr.tiled, isChain_laid h.chain fun z d hd hu => mhInuse_ne_zero h.repr hd hu, fun hlive hne => ?_⟩
  obtain ⟨b, rfl, hb⟩ := h.one_of_no_live hlive hne
  have hmem : (s.heap.heapbase, b) ∈ laid Ublock.len s.heap.heapbase [b] := List.mem_cons_self
  have hblock : Uheap.Repr s.heap ([] ++ b :: []) := h.repr
  obtain ⟨hdr, htop, hn, -⟩ := hblock.block
  refine ⟨rfl, by rw [h.repr.mhInuse_eq hmem, hb]; rfl, ?_⟩
  have hnext : mNextoff s.heap.mem s.heap.heapbase = b.len := hdr.nextoff hn
  rw [hnext]
  exact htop

theorem Inv.joined (h : s.Inv) (hended : s.ended = none) : ∃ hs, s.Joined hs := by
  cases h with
  | unset _ hheap hlive =>
    obtain ⟨hbase, htop, -⟩ := hheap
    refine ⟨[], ⟨hbase.trans htop.symm, (by simp), (by simp), (by simp), (by simp)⟩, List.isChain_nil, fun _ hlt => ?_⟩
    omega
  | running _ bs h => exact ⟨_, h.joined⟩
  | left e hend _ => exact absurd (hended.symm.trans hend) (by simp)

/-- The top moves only after a search that found nothing. -/
theorem InvAt.extends (h : s.InvAt bs) (hsize : size < 2 ^ 31 - 2 ^ 13) :
    (Os161.mallocReady grant size).wp False (fun _ h' => h'.heaptop ≠ s.heap.heaptop →
      ∃ hs, s.heap.Tiled hs ∧ ∀ mh ∈ hs, mhInuse s.heap.mem mh = 0 → mSize s.heap.mem mh < size)
      (fun _ _ => False) s.heap := by
  refine mallocReady_wp h.repr hsize (fun hne => absurd rfl hne) fun h' bs' x k hg hle hlt hne => ?_
  refine ⟨_, h.repr.tiled, fun mh hmh hfree => ?_⟩
  obtain ⟨⟨z, d⟩, hd, rfl⟩ := List.mem_map.mp hmh
  have hdu : d.used = false := by
    cases hu : d.used with
    | false => rfl
    | true => exact absurd hfree (mhInuse_ne_zero h.repr hd hu)
  have hsmall := hg.grows hne d (mem_of_laid hd) hdu
  have hlen : d.len = 8 * d.n := rfl
  have hpos := d.pos
  simp only [h.repr.mSize_eq hd]
  omega

theorem malloc_extends (grant : ℕ → Bool) (h : s.Inv) (hended : s.ended = none) (hsize : size < 2 ^ 31 - 2 ^ 13) :
    s.ExtendsLast (.malloc size grant) (s.call (malloc grant size) fun ptr h =>
      { s with heap := h, live := if ptr = 0 then s.live else ⟨ptr, size⟩ :: s.live }) := by
  intro size' grant' he
  obtain ⟨rfl, rfl⟩ := UserEv.malloc.inj he
  refine call_of_wp (P := fun s' => s'.heap.heaptop ≠ s.heap.heaptop → ∃ hs, s.heap.Tiled hs ∧ ∀ mh ∈ hs,
    mhInuse s.heap.mem mh = 0 → mSize s.heap.mem mh < size) ?_
  cases h with
  | unset _ hheap hlive =>
    -- there is no block yet
    have hnone : ∃ hs, s.heap.Tiled hs ∧ ∀ mh ∈ hs, mhInuse s.heap.mem mh = 0 → mSize s.heap.mem mh < size :=
      ⟨[], ⟨hheap.base.trans hheap.top.symm, (by simp), (by simp), (by simp), (by simp)⟩, by simp⟩
    unfold malloc
    simp only [wp_bind, wp_get]
    rw [if_pos hheap.base, wp_bind]
    refine mallocInit_wp hheap (fun _ _ _ _ _ _ _ => hnone) fun h₁ hr _ _ _ => ?_
    exact mallocReady_wp hr hsize (fun _ => hnone) fun _ _ _ _ _ _ _ _ => hnone
  | running _ bs h =>
    have hbase := h.repr.base
    unfold malloc
    simp only [wp_bind, wp_get]
    rw [if_neg (by omega)]
    exact (h.extends hsize).mono (fun _ _ hres => hres) fun _ _ he => he.elim
  | left e hend _ => exact absurd (hended.symm.trans hend) (by simp)

end UserSys

theorem userStep_extends {s s' : UserSys} {e : UserEv} (h : s.Inv) (hs : userStep s e = some s') : s.ExtendsLast e s' := by
  cases e with
  | malloc size grant =>
    unfold userStep at hs
    cases hended : s.ended with
    | some _ =>
      simp only [hended] at hs
      exact absurd hs (by simp)
    | none =>
      simp only [hended] at hs
      split_ifs at hs with hsize
      obtain rfl := Option.some.inj hs
      have hext := UserSys.malloc_extends grant h hended hsize
      rw [hended] at hext
      exact hext
  | free ptr => exact fun size grant he => by cases he
  | store a v => exact fun size grant he => by cases he

/-- In every run no two free blocks are neighbours; when nothing is allocated any more the
heap is one free block, and `malloc` only extends it if no free block is large enough. -/
theorem user_heap_coalesced (brk : ℕ) (mem : ℕ → ℕ) (hpos : 0 < brk) (hlt : brk < 2 ^ 32) (evs : List UserEv) :
    AllStates userStep (fun s => s.ended = none → ∃ hs, s.Joined hs) (UserSys.init brk mem) evs ∧
      AllSteps userStep (fun s e => ∀ s', userStep s e = some s' → s.ExtendsLast e s') (UserSys.init brk mem) evs := by
  have hinit : (UserSys.init brk mem).Inv := .unset rfl ⟨rfl, rfl, hpos, rfl, hlt⟩ rfl
  constructor
  · exact (allStates_of_step (fun s e t h ht => (userStep_inv h ht).1) hinit evs).mono fun s h => h.joined
  · refine allSteps_of_step (I := UserSys.Inv) (fun s e t h ht => ⟨fun s' hs' => userStep_extends h hs', ?_⟩) hinit evs
    exact (userStep_inv h ht).1

/-- Two blocks are allocated and freed in the order of their addresses. -/
theorem user_heap_coalesced_two : (0 < 4259840 ∧ 4259840 < 2 ^ 32) ∧
    (exec userStep (UserSys.init 4259840 fun _ => 0) [.malloc 10 fun _ => true, .malloc 20 fun _ => true,
      .free 4259848, .free 4259872]).any (fun s => s.live.isEmpty && (s.heap.heaptop == 4263936)) = true ∧
    AllStates userStep (fun s => s.ended = none → ∃ hs, s.Joined hs) (UserSys.init 4259840 fun _ => 0)
      [.malloc 10 fun _ => true, .malloc 20 fun _ => true, .free 4259848, .free 4259872] :=
  ⟨⟨by decide, by decide⟩, by decide +kernel, (user_heap_coalesced 4259840 (fun _ => 0) (by decide) (by decide) _).1⟩

end Os161
