import Os161.Proofs.KheapRun

/-! The accounts of the pagerefs. A bit is marked before there is a page for the pageref,
and nothing clears it when that page cannot be had: this is the one step that spoils the
accounts. -/

namespace Os161

open Op

variable {X Y : Prop} {s s' : KheapSys} {pages : List HeapPage} {t sz prpage r j va : ℕ} {e : KheapEv}

namespace KheapSys

theorem run_some {α : Type} {x : HeapM α} {next : α → KheapSys → Option KheapSys} (h : s.run x next = some s') :
    ∃ a heap, x s.heap = .ok a heap ∧ next a { s with heap := heap } = some s' := by
  unfold run at h
  cases hx : x s.heap with
  | ok a heap =>
    rw [hx] at h
    exact ⟨a, heap, rfl, h⟩
  | err e heap => exact e.elim
  | panic =>
    rw [hx] at h
    exact absurd h (by simp)

theorem phase_setPhase (ph : Kphase) : (s.setPhase t ph).phase = Function.update s.phase t ph := rfl

theorem Inv.accounted (h : s.Inv True Y) : s.Accounted := by
  obtain ⟨pages, h⟩ := h
  refine ⟨h.owners.count, pages.map HeapPage.pr, h.agree.allbase, ?_⟩
  intro r hr j hj hset
  obtain ⟨o, ho⟩ := h.owners.owned trivial r hr j hj hset
  cases o with
  | heap =>
    obtain ⟨P, hP, hslot⟩ := List.mem_map.mp ho
    obtain ⟨rfl, rfl⟩ := Prod.mk.inj hslot
    have href := h.repr.ref P hP
    exact Or.inl ⟨href.page, List.mem_map.mpr ⟨P, hP, href.addr⟩⟩
  | roots => exact absurd ho List.not_mem_nil
  | thread t => exact Or.inr ⟨t, ho⟩

/-- The roots before the one of a page in use have their pages, so that `freepageref`
gets to it. -/
theorem Inv.freesWell (h : s.Inv X True) : s.FreesWell := by
  obtain ⟨pages, h⟩ := h
  intro b hb
  obtain ⟨P, hP, -, -, d, hd, hptr⟩ := h.liveBlock hb
  have hnot : P.block d ∉ P.free := fun hmem => (h.blocks.free P hP d hd).mp hmem b hb hptr
  have hnum (R : HeapPage) (hR : R ∈ pages) : 0 < (s.heap.kheaproots R.root).numinuse :=
    h.owners.numinuse_pos (j := R.idx) (o := .heap) (List.mem_map_of_mem hR)
  have hpaged : ¬ s.heap.Pageless P.root := by
    intro hless
    obtain ⟨q, hq, hzero, -⟩ := hless
    exact h.owners.ordered trivial P.root P.root_lt (Or.inl (h.repr.ref P hP).page) q hq hzero
  have hwp : (subpageKfree (P.block d)).wp False (fun _ _ => True) (fun _ _ => False) s.heap :=
    subpageKfree_wp h.repr (h.owners.rootsOk rfl) h.blocks.addrs hnum (fun hless => hpaged hless) hP hd hnot
      (fun _ _ _ _ _ _ => trivial) (fun _ _ _ _ _ _ _ => trivial)
  rw [hptr]
  rcases hwp.cases with ⟨res, heap, hres, -⟩ | ⟨_, _, _, hE⟩ | ⟨-, hF⟩
  · exact ⟨res, heap, hres⟩
  · exact hE.elim
  · exact hF.elim

theorem allocpagerefEnd_eq (h : Kheap) : allocpagerefEnd r j h =
    .ok (if (h.kheaproots r).page = 0 then none else some ((h.kheaproots r).page + 16 * j)) h := by
  simp only [allocpagerefEnd, bind, Op.get]
  by_cases hpage : (h.kheaproots r).page = 0
  · rw [if_pos hpage, if_pos hpage]
    rfl
  · rw [if_neg hpage, if_neg hpage]
    rfl

theorem allocpageref_some {h : Kheap} (hbit : h.clearBit = some (r, j)) : allocpageref h =
    .ok (if (h.kheaproots r).page = 0 then .noPage r j else .ready ((h.kheaproots r).page + 16 * j)) (h.markRef r j) := by
  simp only [allocpageref, bind, Op.get, hbit, Op.modify]
  by_cases hpage : (h.kheaproots r).page = 0
  · rw [if_pos hpage, if_pos hpage]
    rfl
  · rw [if_neg hpage, if_neg hpage]
    rfl

/-- If `allocpagerefpage` does not have to give a page back, the root has one unless
`alloc_kpages` failed. -/
theorem allocpagerefpageBack_page {h h' : Kheap} (hback : allocpagerefpageBack r va h = .ok false h')
    (hkeeps : va ≠ 0 ∨ (h.kheaproots r).page ≠ 0) : (h'.kheaproots r).page ≠ 0 := by
  have hwp : (allocpagerefpageBack r va).wp True (fun spare h' => spare = false → (h'.kheaproots r).page ≠ 0)
      (fun _ _ => True) h := by
    unfold allocpagerefpageBack
    by_cases hva : va = 0
    · rw [if_pos hva]
      intro _
      exact hkeeps.resolve_left fun hne => hne hva
    · rw [if_neg hva]
      simp only [wp_bind, wp_kassert_true, wp_get]
      intro _
      by_cases hpage : (h.kheaproots r).page ≠ 0
      · rw [if_pos hpage]
        intro hfalse
        exact absurd hfalse (by simp)
      · rw [if_neg hpage]
        intro _
        rw [Kheap.roots_setRoot_self]
        exact hva
  rw [Op.wp_of_ok hback] at hwp
  exact hwp rfl

/-- `allocpagerefpage` had no page, and there is none. -/
theorem locked_leak (hph : s.phase t = .refgot sz prpage r j 0) (hpage : (s.heap.kheaproots r).page = 0) :
    kheapStep s (.locked t) = some (s.setPhase t (.drop prpage)) := by
  have hback : allocpagerefpageBack r 0 s.heap = .ok false s.heap := rfl
  have hend : allocpagerefEnd r j s.heap = .ok none s.heap := by rw [allocpagerefEnd_eq, if_pos hpage]
  simp only [kheapStep, hph, run, hback, hend]
  rfl

theorem not_keepsRef (h : ¬ s.KeepsRef e) :
    ∃ t sz prpage r j, e = .locked t ∧ s.phase t = .refgot sz prpage r j 0 ∧ (s.heap.kheaproots r).page = 0 := by
  cases e with
  | locked t =>
    cases hph : s.phase t with
    | refgot sz prpage r j va =>
      rw [KheapSys.KeepsRef, hph, Kheap.KeepsRef, not_or, not_not, not_not] at h
      obtain ⟨rfl, hpage⟩ := h
      exact ⟨t, sz, prpage, r, j, rfl, hph, hpage⟩
    | _ =>
      rw [KheapSys.KeepsRef, hph] at h
      exact absurd trivial h
  | _ => exact absurd trivial h

/-- A step leaves the accounts in order exactly if it does not give an entry up. -/
theorem accounted_step (h : s.Inv True Y) (hY : Y → s.Spacious) (hs : kheapStep s e = some s') :
    s'.Accounted ↔ s.KeepsRef e := by
  constructor
  · intro hacc
    by_contra hno
    obtain ⟨t, sz, prpage, r, j, rfl, hph, hpage⟩ := not_keepsRef hno
    rw [locked_leak hph hpage] at hs
    obtain rfl := Option.some.inj hs
    obtain ⟨pages, h⟩ := h
    have hmem : (r, j) ∈ entriesOf s.phase (pages.map HeapPage.slot) (.thread t) := by
      rw [entriesOf, hph]
      exact List.mem_cons_self
    obtain ⟨hr, hj, hset⟩ := h.owners.inuse _ _ hmem
    obtain ⟨all, -, howned⟩ := hacc.owned
    rcases howned r hr j hj hset with hon | ⟨u, hu⟩
    · exact hon.1 hpage
    · by_cases hut : u = t
      · rw [hut, phase_setPhase, Function.update_self] at hu
        exact absurd hu List.not_mem_nil
      · rw [phase_setPhase, Function.update_of_ne hut] at hu
        -- two threads cannot have marked the same entry
        have hsame := h.owners.entries.unique (.thread u) (.thread t) (r, j) hu hmem
        exact hut (HeapOwner.thread.inj hsame)
  · intro hkeeps
    exact (kheapStep_inv h (fun _ => hkeeps) hY hs).accounted

theorem gotRef_phase {pr : ℕ} (h : s.gotRef t sz prpage (some pr) = some s') : s'.phase t = .idle := by
  unfold gotRef at h
  cases hk : blocktype sz with
  | none =>
    simp only [hk] at h
    exact absurd h (by simp)
  | some k =>
    simp only [hk] at h
    obtain ⟨ptr, heap, -, hret⟩ := run_some h
    obtain rfl := Option.some.inj hret
    exact Function.update_self ..

theorem allocpagerefEnd_phase (hpage : (s.heap.kheaproots r).page ≠ 0)
    (h : s.run (allocpagerefEnd r j) (fun pr s => s.gotRef t sz prpage pr) = some s') : s'.phase t = .idle := by
  obtain ⟨pr, heap, hend, hgot⟩ := run_some h
  rw [allocpagerefEnd_eq, if_neg hpage] at hend
  cases hend
  exact gotRef_phase hgot

/-- A `kmalloc` that is about to return NULL has no entry marked, if it did not have to
give one up. -/
theorem givesUp_step (hs : kheapStep s e = some s') (hkeeps : s.KeepsRef e) (hup : s.GivesUp t e s') :
    (s.phase t).entry = [] ∧ s'.heap.kheaproots = s.heap.kheaproots := by
  rcases hup with ⟨rfl, sz, hph⟩ | ⟨rfl, prpage, hdrop⟩
  · simp only [kheapStep, hph, if_true] at hs
    obtain rfl := Option.some.inj hs
    exact ⟨by rw [hph]; rfl, rfl⟩
  · simp only [kheapStep] at hs
    cases hph : s.phase t with
    | fresh sz page =>
      simp only [hph] at hs
      obtain ⟨res, heap, hres, hnext⟩ := run_some hs
      refine ⟨rfl, ?_⟩
      cases hbit : s.heap.clearBit with
      | none =>
        have hnull : allocpageref s.heap = .ok .null s.heap := by simp only [allocpageref, bind, Op.get, hbit]; rfl
        rw [hnull] at hres
        cases hres
        obtain rfl := Option.some.inj hnext
        rfl
      | some x =>
        obtain ⟨r, j⟩ := x
        rw [allocpageref_some hbit] at hres
        by_cases hpage : (s.heap.kheaproots r).page = 0
        · rw [if_pos hpage] at hres
          cases hres
          obtain rfl := Option.some.inj hnext
          rw [phase_setPhase, Function.update_self] at hdrop
          cases hdrop
        · rw [if_neg hpage] at hres
          cases hres
          rw [gotRef_phase hnext] at hdrop
          cases hdrop
    | refgot sz page r j va =>
      simp only [hph] at hs
      rw [KheapSys.KeepsRef, hph, Kheap.KeepsRef] at hkeeps
      obtain ⟨spare, heap, hback, hnext⟩ := run_some hs
      cases spare with
      | true =>
        obtain rfl := Option.some.inj hnext
        rw [phase_setPhase, Function.update_self] at hdrop
        cases hdrop
      | false =>
        rw [if_neg (by simp)] at hnext
        rw [allocpagerefEnd_phase (allocpagerefpageBack_page hback hkeeps) hnext] at hdrop
        cases hdrop
    | refback sz page r j =>
      simp only [hph] at hs
      split_ifs at hs with hpage
      rw [allocpagerefEnd_phase hpage hs] at hdrop
      cases hdrop
    | _ =>
      simp only [hph] at hs
      exact absurd hs (by simp)

end KheapSys

/-- The accounts of the pagerefs are in order in every state of a run exactly if no step
gives up an entry for want of a pageref page. No assertion of `kfree` fails as long as no
root without a page has run out of entries, and a failing `kmalloc` leaves the roots alone
if it does not have to give an entry up. -/
theorem kheap_accounting (refs : ℕ → Pageref) (mem : ℕ → ℕ) (evs : List KheapEv) :
    (AllStates kheapStep KheapSys.Accounted (KheapSys.init refs mem) evs ↔
      AllSteps kheapStep KheapSys.KeepsRef (KheapSys.init refs mem) evs) ∧
    (AllSteps kheapStep (fun s _ => s.Spacious) (KheapSys.init refs mem) evs →
      AllStates kheapStep KheapSys.FreesWell (KheapSys.init refs mem) evs) ∧
    AllSteps kheapStep (fun s e => s.KeepsRef e → ∀ t s', kheapStep s e = some s' → s.GivesUp t e s' →
      (s.phase t).entry = [] ∧ s'.heap.kheaproots = s.heap.kheaproots) (KheapSys.init refs mem) evs := by
  refine ⟨⟨fun hacc => ?_, fun hkeeps => ?_⟩, fun hspace => ?_, ?_⟩
  · refine allSteps_of_states (I := fun s => s.Inv True False) (fun s e t hI _ ht hP => ?_)
      (KheapSys.init_inv refs mem) allSteps_true hacc
    have hkeeps := (KheapSys.accounted_step hI False.elim ht).mp hP
    exact ⟨hkeeps, kheapStep_inv hI (fun _ => hkeeps) False.elim ht⟩
  · have hinv := allStates_of_inv (I := fun s => s.Inv True False)
      (fun s e t hI hk ht => kheapStep_inv hI (fun _ => hk) False.elim ht) (KheapSys.init_inv refs mem) hkeeps
    exact hinv.mono fun s hs => hs.accounted
  · have hinv := allStates_of_inv (I := fun s => s.Inv False True)
      (fun s e t hI hk ht => kheapStep_inv hI False.elim (fun _ => hk) ht) (KheapSys.init_inv refs mem) hspace
    exact hinv.mono fun s hs => hs.freesWell
  · refine allSteps_of_step (I := fun _ => True) (fun s e u _ _ => ⟨?_, trivial⟩) trivial evs
    intro hkeeps t s' hs hup
    exact KheapSys.givesUp_step hs hkeeps hup

/-- The first allocation there is gets a page for its blocks and none for its pageref. -/
def lostRefRun : List KheapEv :=
  [.kmalloc 0 16, .allocKpages 0 4096, .locked 0, .allocKpages 0 0, .locked 0, .freeKpages 0]

/-- It returns NULL with its bit still set: one entry is in use, and there is no page that
it could be for. -/
theorem kmalloc_loses_ref : ∃ s, exec kheapStep (KheapSys.init (fun _ => ⟨0, 0, 0, 0, 0⟩) fun _ => 0) lostRefRun = some s ∧
    s.phase 0 = .idle ∧ s.live = [] ∧ s.heap.allbase = 0 ∧ (s.heap.kheaproots 0).numinuse = 1 ∧ ¬ s.Accounted := by
  refine ⟨_, rfl, rfl, rfl, rfl, rfl, ?_⟩
  intro hacc
  obtain ⟨all, -, howned⟩ := hacc.owned
  rcases howned 0 (by decide) 0 (by decide) rfl with hon | ⟨t, ht⟩
  · exact hon.1 rfl
  · by_cases h0 : t = 0
    · subst h0
      exact absurd ht List.not_mem_nil
    · simp only [KheapSys.phase_setPhase, Function.update_of_ne h0] at ht
      exact absurd ht List.not_mem_nil

end Os161
