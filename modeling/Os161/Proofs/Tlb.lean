import Os161.Spec.Tlb

/-! Why the TLBs keep the processes apart. Entries are written by `vm_fault` for the thread
that runs, from its own address space, which does not change once it has memory; and whoever
comes to a CPU with an address space finds its TLB empty. -/

namespace Os161

variable {a : Addrspace} {l l' : Tlb} {page paddr t : ℕ} {p : VmPhase} {x x' : VmThread} {given : List VmRange}

/-! ### Translation -/

/-- A page of a region is in the memory of the region. -/
theorem region_paddr {vbase npages pbase : ℕ} (hv : pageFrame vbase = vbase) (hp : pageFrame page = page)
    (hlo : vbase ≤ page) (hhi : page < vbase + npages * pageSize) (hmem : pbase + npages * pageSize ≤ 4294967296) :
    pbase ≤ (page - vbase + pbase) % 4294967296 ∧
      (page - vbase + pbase) % 4294967296 + pageSize ≤ pbase + npages * pageSize := by
  simp only [pageFrame, pageSize] at *
  omega

theorem Addrspace.paddr_own (h : a.paddr page = some paddr) (hready : a.Ready)
    (hpage : pageFrame page = page) (hmem : ∀ k, a.pbase k ≠ 0 → a.pbase k + a.npages k * pageSize ≤ 4294967296) :
    ∃ k, a.pbase k ≠ 0 ∧ a.pbase k ≤ paddr ∧ paddr + pageSize ≤ a.pbase k + a.npages k * pageSize := by
  obtain ⟨-, hp1, -, -, hp2, -, hp3, hv1, -, hv2, -, -⟩ := hready
  unfold Addrspace.paddr at h
  dsimp only at h
  split at h
  next h1 =>
    obtain rfl := Option.some.inj h
    exact ⟨.first, hp1, region_paddr hv1 hpage h1.1 (h1.2.trans_le (Nat.mod_le ..)) (hmem .first hp1)⟩
  split at h
  next h2 =>
    obtain rfl := Option.some.inj h
    exact ⟨.second, hp2, region_paddr hv2 hpage h2.1 (h2.2.trans_le (Nat.mod_le ..)) (hmem .second hp2)⟩
  split at h
  next h3 =>
    obtain rfl := Option.some.inj h
    have htop : userspacetop = stackbase + dumbvmStackpages * pageSize := by decide
    exact ⟨.stack, hp3, region_paddr (by decide) hpage h3.1 (htop ▸ h3.2) (hmem .stack hp3)⟩
  next => cases h

theorem Addrspace.defineRegion_pbase {a' : Addrspace} {vaddr sz : ℕ} (h : a.defineRegion vaddr sz = .ok a') (k : VmAlloc) :
    a'.pbase k = a.pbase k := by
  unfold defineRegion at h
  split_ifs at h
  · cases h
    cases k <;> rfl
  · cases h
    cases k <;> rfl

theorem Addrspace.setPbase_pbase (a : Addrspace) (paddr : ℕ) (k j : VmAlloc) :
    (a.setPbase paddr k).pbase j = if j = k then paddr else a.pbase j := by
  cases k <;> cases j <;> rfl

theorem Addrspace.setPbase_npages (a : Addrspace) (paddr : ℕ) (k j : VmAlloc) :
    (a.setPbase paddr k).npages j = a.npages j := by
  cases k <;> cases j <;> rfl

/-! ### The entries -/

theorem mem_pages : page ∈ Tlb.pages l ↔ ∃ paddr, some (page, paddr) ∈ l := by
  simp [Tlb.pages]

theorem tlbInstall_perm {e : ℕ × ℕ} (h : tlbInstall e l = some l') :
    (l'.filterMap id).Perm (e :: l.filterMap id) := by
  induction l generalizing l' with
  | nil => cases h
  | cons x rest ih =>
    cases x with
    | none =>
      cases h
      exact .refl _
    | some y =>
      obtain ⟨l'', hrest, rfl⟩ := Option.map_eq_some_iff.mp h
      exact ((ih hrest).cons y).trans (.swap ..)

/-- Translations of one address space, no page twice. -/
structure TlbOf (a : Addrspace) (l : Tlb) : Prop where
  entry : ∀ e, some e ∈ l → a.Ready ∧ pageFrame e.1 = e.1 ∧ a.paddr e.1 = some e.2
  once : (Tlb.pages l).Nodup

theorem tlbOf_empty (h : Tlb.pages l = []) : TlbOf a l where
  entry e he := absurd (mem_pages.mpr ⟨e.2, he⟩) (by simp [h])
  once := h ▸ List.nodup_nil

theorem TlbOf.install (h : TlbOf a l) (hl : tlbInstall (page, paddr) l = some l') (hnew : page ∉ Tlb.pages l)
    (hready : a.Ready) (hpage : pageFrame page = page) (hpaddr : a.paddr page = some paddr) :
    TlbOf a l' := by
  have hperm := tlbInstall_perm hl
  refine ⟨fun e he => ?_, ?_⟩
  · have hmem : e ∈ l'.filterMap id := by simpa using he
    rcases List.mem_cons.mp (hperm.mem_iff.mp hmem) with rfl | hold
    · exact ⟨hready, hpage, hpaddr⟩
    · exact h.entry e (by simpa using hold)
  · exact (hperm.map Prod.fst).nodup_iff.mpr (List.nodup_cons.mpr ⟨hnew, h.once⟩)

/-! ### One thread -/

/-- What is known of a thread with an address space, wherever it is. -/
def VmPhase.Ok (a : Addrspace) : VmPhase → Prop
  | .setas | .regions => ∀ k, a.pbase k = 0
  | .fault page => pageFrame page = page
  | .found page paddr => pageFrame page = page ∧ a.Ready ∧ a.paddr page = some paddr
  | _ => True

/-- What is known of the TLB of the CPU that runs it. -/
def VmPhase.Fits (a : Addrspace) (l : Tlb) : VmPhase → Prop
  | .regions | .prepare _ => Tlb.pages l = []
  | .user => TlbOf a l
  | .fault page | .found page _ => TlbOf a l ∧ page ∉ Tlb.pages l
  | _ => True

theorem VmPhase.fits_empty (h : Tlb.pages l = []) (p : VmPhase) : p.Fits a l := by
  cases p with
  | unborn | kernel | setas | gone => trivial
  | regions | prepare k => exact h
  | user => exact tlbOf_empty h
  | fault page | found page paddr => exact ⟨tlbOf_empty h, by simp [h]⟩

theorem VmPhase.Fits.tlbOf (h : p.Fits a l) (hp : p.touches = true) : TlbOf a l := by
  cases p with
  | user => exact h
  | fault page | found page paddr => exact h.1
  | unborn | kernel | setas | regions | prepare k | gone => cases hp

theorem VmThread.fits_asActivate (ha : x.as = some a) (l : Tlb) (p : VmPhase) :
    p.Fits a (asActivate x l) := by
  rw [asActivate, if_neg (by simp [ha])]
  exact VmPhase.fits_empty (by simp [Tlb.pages]) p

structure VmThread.Ok (x : VmThread) (t : ℕ) (given : List VmRange) : Prop where
  phase : ∀ a, x.as = some a → x.phase.Ok a
  owns : ∀ a, x.as = some a → ∀ k, a.pbase k ≠ 0 → ⟨some t, a.pbase k, a.npages k⟩ ∈ given

theorem VmThread.ok_with (hok : p.Ok a)
    (howns : ∀ k, a.pbase k ≠ 0 → ⟨some t, a.pbase k, a.npages k⟩ ∈ given) (hfits : p.Fits a l) :
    VmThread.Ok ⟨p, some a⟩ t given ∧ ∀ b, some a = some b → p.Fits b l := by
  refine ⟨⟨fun b hb => ?_, fun b hb => ?_⟩, fun b hb => ?_⟩
  all_goals
    cases hb
    assumption

theorem VmThread.Ok.step {op : VmOp} {new : Option VmRange} (h : x.Ok t given)
    (hfits : ∀ a, x.as = some a → x.phase.Fits a l) (hstep : x.step t l op = some (x', l', new)) :
    x'.Ok t (new.toList ++ given) ∧ ∀ a, x'.as = some a → x'.phase.Fits a l' := by
  have hok := h.phase
  unfold VmThread.step at hstep
  split at hstep
  next hphase ha =>
    cases hstep
    have hzero (k : VmAlloc) : asCreate.pbase k = 0 := by cases k <;> rfl
    exact ok_with hzero (fun k h0 => absurd (hzero k) h0) trivial
  next a hphase ha =>
    cases hstep
    rw [hphase] at hok
    exact ok_with (hok a ha) (h.owns a ha) (fits_asActivate ha l _)
  next vaddr sz a hphase ha =>
    rw [hphase] at hok hfits
    split at hstep
    next a' hdef =>
      cases hstep
      have hzero (k : VmAlloc) : a'.pbase k = 0 := (Addrspace.defineRegion_pbase hdef k).trans (hok a ha k)
      exact ok_with hzero (fun k h0 => absurd (hzero k) h0) (hfits a ha)
    next =>
      cases hstep
      exact ok_with trivial (h.owns a ha) trivial
  next a hphase ha =>
    rw [hphase] at hfits
    split_ifs at hstep
    cases hstep
    exact ok_with trivial (h.owns a ha) (hfits a ha)
  next paddr k a hphase ha =>
    rw [hphase] at hfits
    split_ifs at hstep with h0
    · cases hstep
      exact ok_with trivial (h.owns a ha) trivial
    · cases hstep
      refine ok_with (by cases k <;> trivial) (fun j hj => ?_) (VmPhase.fits_empty (hfits a ha) _)
      rw [Addrspace.setPbase_pbase] at hj ⊢
      rw [Addrspace.setPbase_npages]
      split_ifs at hj ⊢ with hjk
      · rw [hjk]
        exact List.mem_cons_self
      · exact List.mem_cons_of_mem _ (h.owns a ha j hj)
  next va a hphase ha =>
    rw [hphase] at hfits
    split_ifs at hstep with hhit
    · cases hstep
      exact ⟨h, fun b hb => hphase ▸ hfits b hb⟩
    · cases hstep
      refine ok_with ?_ (h.owns a ha) ⟨hfits a ha, hhit⟩
      simp only [VmPhase.Ok, pageFrame, pageSize]
      omega
  next page a hphase ha =>
    rw [hphase] at hok hfits
    split_ifs at hstep with hready
    split at hstep
    next paddr hpaddr =>
      split_ifs at hstep
      cases hstep
      exact ok_with ⟨hok a ha, hready, hpaddr⟩ (h.owns a ha) (hfits a ha)
    next =>
      cases hstep
      exact ok_with trivial (h.owns a ha) (hfits a ha).1
  next page paddr a hphase ha =>
    cases hstep
    rw [hphase] at hok hfits
    obtain ⟨hpage, hready, hpaddr⟩ := hok a ha
    obtain ⟨hof, hnew⟩ := hfits a ha
    refine ok_with trivial (h.owns a ha) ?_
    cases hl : tlbInstall (page, paddr) l with
    | none => exact hof
    | some l' => exact hof.install hl hnew hready hpage hpaddr
  next a _ ha =>
    cases hstep
    exact ok_with trivial (h.owns a ha) trivial
  next a _ ha =>
    cases hstep
    exact ok_with trivial (h.owns a ha) trivial
  next =>
    cases hstep
    exact ⟨⟨by simp, by simp⟩, by simp⟩
  next => cases hstep

/-! ### The machine -/

structure Vm.Inv (s : Vm) : Prop where
  cur : ∀ c < s.ncpus, ∀ c' < s.ncpus, s.cur c = s.cur c' → c = c'
  thread : ∀ t, (s.thread t).Ok t s.given
  fits : ∀ c < s.ncpus, ∀ a, (s.curthread c).as = some a → (s.curthread c).phase.Fits a (s.tlb c)
  memory : ∀ r ∈ s.given, r.top ≤ 4294967296
  disjoint : s.given.Pairwise fun r q => r.top ≤ q.paddr ∨ q.top ≤ r.paddr

namespace Vm

variable {s s' : Vm} {c : ℕ}

/-- More memory is given out. -/
theorem Inv.give (h : s.Inv) {r : VmRange} (hr : s.Fresh r) : ({ s with given := r :: s.given } : Vm).Inv where
  cur := h.cur
  thread t := ⟨(h.thread t).phase, fun a ha k h0 => List.mem_cons_of_mem _ ((h.thread t).owns a ha k h0)⟩
  fits := h.fits
  memory q hq := by
    rcases List.mem_cons.mp hq with rfl | hq
    · exact hr.1
    · exact h.memory q hq
  disjoint := List.pairwise_cons.mpr ⟨hr.2, h.disjoint⟩

/-- A thread changes, and the TLB of a CPU that runs it. -/
theorem Inv.update (h : s.Inv) {tlb : ℕ → Tlb} (hx : x.Ok t s.given)
    (hfits : ∀ c < s.ncpus, s.cur c = t → ∀ a, x.as = some a → x.phase.Fits a (tlb c))
    (hother : ∀ c < s.ncpus, s.cur c ≠ t → tlb c = s.tlb c) :
    ({ s with thread := Function.update s.thread t x, tlb := tlb } : Vm).Inv := by
  refine ⟨h.cur, ?_, fun c hc => ?_, h.memory, h.disjoint⟩
  · exact (Function.forall_update_iff s.thread fun u y => y.Ok u s.given).mpr ⟨hx, fun u _ => h.thread u⟩
  · simp only [curthread, Function.update_apply]
    split_ifs with hu
    · exact hfits c hc hu
    · rw [hother c hc hu]
      exact h.fits c hc

theorem Inv.act (h : s.Inv) (hc : c < s.ncpus) (hx : x.Ok (s.cur c) s.given)
    (hfits : ∀ a, x.as = some a → x.phase.Fits a l) :
    ({ s with thread := Function.update s.thread (s.cur c) x, tlb := Function.update s.tlb c l } : Vm).Inv := by
  refine h.update hx (fun c' hc' he => ?_) fun c' _ hne => Function.update_of_ne (fun he => hne (congrArg s.cur he)) ..
  rw [h.cur c' hc' c hc he, Function.update_self]
  exact hfits

/-- A CPU goes on with another thread. -/
theorem Inv.switch (h : s.Inv) (hfree : ∀ c' < s.ncpus, c' ≠ c → s.cur c' ≠ t) :
    ({ s with cur := Function.update s.cur c t
              tlb := Function.update s.tlb c (asActivate (s.thread t) (s.tlb c)) } : Vm).Inv := by
  refine ⟨fun c₁ h₁ c₂ h₂ he => ?_, h.thread, fun c' hc' a ha => ?_, h.memory, h.disjoint⟩
  · simp only [Function.update_apply] at he
    split_ifs at he with e₁ e₂ e₂
    · rw [e₁, e₂]
    · exact absurd he.symm (hfree c₂ h₂ e₂)
    · exact absurd he (hfree c₁ h₁ e₁)
    · exact h.cur c₁ h₁ c₂ h₂ he
  · simp only [curthread, Function.update_apply] at ha ⊢
    split_ifs at ha ⊢
    · exact VmThread.fits_asActivate ha _ _
    · exact h.fits c' hc' a ha

theorem Inv.step {e : VmEvent} (h : s.Inv) (hok : e.disjoint s = true) (hstep : vmStep s e = some s') : s'.Inv := by
  cases e with
  | fork t =>
    simp only [vmStep, Option.ite_none_right_eq_some, Option.some.injEq] at hstep
    exact hstep.2 ▸ h.update ⟨by simp, by simp⟩ (by simp) fun _ _ _ => rfl
  | switch c t =>
    simp only [vmStep, Option.ite_none_right_eq_some, Option.some.injEq] at hstep
    exact hstep.2 ▸ h.switch hstep.1.2.1
  | run c op =>
    simp only [vmStep, Option.ite_none_right_eq_some, Option.map_eq_some_iff] at hstep
    obtain ⟨hc, ⟨x, l, new⟩, hx, rfl⟩ := hstep
    obtain ⟨hthread, hfits⟩ := (h.thread (s.cur c)).step (h.fits c hc) hx
    cases new with
    | none => exact h.act hc hthread hfits
    | some r =>
      have hr : s.Fresh r := by simpa [VmEvent.disjoint, hx] using hok
      exact (h.give hr).act hc hthread hfits
  | kpages npages paddr =>
    simp only [vmStep, Option.some.injEq] at hstep
    subst hstep
    split_ifs with h0
    · exact h
    · exact h.give ((of_decide_eq_true hok).resolve_left h0)

theorem Inv.isolated (h : s.Inv) : s.Isolated := by
  intro c hc a ha htouch
  have hfits := (h.fits c hc a ha).tlbOf htouch
  have howns := (h.thread (s.cur c)).owns a ha
  have hown (e : ℕ × ℕ) (he : some e ∈ s.tlb c) : ∃ k, ⟨some (s.cur c), a.pbase k, a.npages k⟩ ∈ s.given ∧
      a.pbase k ≤ e.2 ∧ e.2 + pageSize ≤ a.pbase k + a.npages k * pageSize := by
    obtain ⟨hready, hpage, hpaddr⟩ := hfits.entry e he
    obtain ⟨k, h0, hin⟩ := Addrspace.paddr_own hpaddr hready hpage fun k h0 => h.memory _ (howns k h0)
    exact ⟨k, howns k h0, hin⟩
  refine ⟨fun e he => (hfits.entry e he).2.2, hown, fun e he r hr hother => ?_, hfits.once⟩
  -- the page is in a range of its own, which does not meet this one
  obtain ⟨k, hk, hlo, hhi⟩ := hown e he
  have : Std.Symm fun r q : VmRange => r.top ≤ q.paddr ∨ q.top ≤ r.paddr := ⟨fun _ _ => Or.symm⟩
  have hapart := h.disjoint.forall hk hr fun heq => hother (heq ▸ rfl)
  simp only [VmRange.top] at hapart ⊢
  omega

end Vm

/-- In every run, a process that touches user memory finds in the TLB only translations of
its own address space, to memory that is its own, and no page twice. -/
theorem dumbvm_tlb_isolation (s : Vm) (hs : s.Boot) (evs : List VmEvent)
    (hevs : AllSteps vmStep (fun t e => e.disjoint t = true) s evs) : AllStates vmStep Vm.Isolated s evs := by
  have hinv : s.Inv := by
    refine ⟨hs.cur, fun t => ⟨?_, ?_⟩, ?_, ?_, ?_⟩
    all_goals simp [Vm.curthread, hs.kernel, hs.given]
  exact (allStates_of_inv (fun _ _ _ h hok hstep => h.step hok hstep) hinv hevs).mono fun _ h => h.isolated

def twoCpus : Vm where
  ncpus := 2
  cur c := c
  tlb _ := List.replicate 64 none
  thread t := ⟨if t < 2 then .kernel else .unborn, none⟩
  given := []

/-- A program is loaded on one CPU, touches a page there and again after its migration. -/
def loadAndMigrate : List VmEvent :=
  [.fork 2, .switch 0 2, .run 0 .setas, .run 0 .activate, .run 0 (.define 4194304 4096), .run 0 (.define 8388608 1),
    .run 0 .prepare, .run 0 (.getppages 4096), .run 0 (.getppages 8192), .run 0 (.getppages 16384),
    .run 0 (.touch 4194305), .run 0 .translate, .run 0 .install, .switch 0 0, .switch 1 2, .run 1 (.touch 4194305),
    .run 1 .translate, .run 1 .install]

theorem dumbvm_tlb_isolation_migrate : ((exec vmStep twoCpus loadAndMigrate).map fun s => (s.tlb 0).head?) =
      some (some (some (4194304, 4096))) ∧
    AllStates vmStep Vm.Isolated twoCpus loadAndMigrate :=
  ⟨by decide +kernel, dumbvm_tlb_isolation _ ⟨by decide, fun _ => rfl, rfl⟩ _ (by decide +kernel)⟩

end Os161
