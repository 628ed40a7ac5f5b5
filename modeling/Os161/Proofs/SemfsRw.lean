import Os161.Spec.SemfsRw

/-! The count of a semaphore is what was written and not yet consumed. Each call accounts
for what it has moved, so the balance is kept call by call, in the middle of a read too. -/

namespace Os161

variable {w : Bool} {c : RwCall} {l l' : List RwCall} {i : ℕ}

@[simp] theorem flow_nil : flow w [] = 0 := rfl

@[simp] theorem flow_append : flow w (l ++ l') = flow w l + flow w l' := by
  simp [flow]

theorem flow_cons : flow w (c :: l) = flow w [c] + flow w l := by
  simp [flow]

theorem flow_single_same (h : c.write = w) : flow w [c] = c.moved := by
  simp [flow, h]

theorem flow_single_other (h : c.write ≠ w) : flow w [c] = 0 := by
  simp [flow, h]

theorem flow_eraseIdx (h : l[i]? = some c) : flow w l = flow w [c] + flow w (l.eraseIdx i) := by
  induction l generalizing i with
  | nil => exact absurd h (by simp)
  | cons d l ih =>
    cases i with
    | zero =>
      obtain rfl : d = c := by simpa using h
      exact flow_cons
    | succ i =>
      have hrest := ih (i := i) (by simpa using h)
      rw [flow_cons, hrest, List.eraseIdx_cons_succ, flow_cons (l := l.eraseIdx i)]
      omega

/-- Calls that have moved nothing. -/
theorem flow_eq_zero (h : ∀ c ∈ l, c.write = w → c.uio = c.given) : flow w l = 0 := by
  induction l with
  | nil => rfl
  | cons d l ih =>
    rw [flow_cons, ih fun c hc => h c (List.mem_cons_of_mem d hc)]
    by_cases hd : d.write = w
    · rw [flow_single_same hd, RwCall.moved, h d List.mem_cons_self hd, Nat.sub_self]
    · rw [flow_single_other hd]

/-- The offset of the `uio` has moved with its count. -/
structure RwCall.Sound (c : RwCall) : Prop where
  small : c.given.resid < 4294967296
  le : c.uio.resid ≤ c.given.resid
  offset : c.uio.offset = c.given.offset + c.moved

theorem RwCall.Sound.advance (h : c.Sound) {n : ℕ} (hn : n ≤ c.uio.resid) :
    ({ c with uio := c.uio.advance n } : RwCall).Sound ∧ ({ c with uio := c.uio.advance n } : RwCall).moved = c.moved + n := by
  have hle := h.le
  have hoff := h.offset
  unfold RwCall.moved at hoff
  refine ⟨⟨h.small, ?_, ?_⟩, ?_⟩ <;> simp only [RwCall.moved, SemUio.advance] <;> omega

theorem flow_advance (h : c.Sound) {n : ℕ} (hn : n ≤ c.uio.resid) :
    flow w [{ c with uio := c.uio.advance n }] = flow w [c] + if c.write = w then n else 0 := by
  obtain ⟨-, hmoved⟩ := h.advance hn
  have hsame : ({ c with uio := c.uio.advance n } : RwCall).write = c.write := rfl
  by_cases hw : c.write = w
  · rw [flow_single_same (hsame.trans hw), flow_single_same hw, hmoved, if_pos hw]
  · rw [flow_single_other (hsame.trans_ne hw), flow_single_other hw, if_neg hw]

namespace SemRw

variable {s s' : SemRw}

structure Inv (s : SemRw) : Prop where
  small : s.semsCount < 4294967296
  balance : s.semsCount + flow false (s.holder.toList ++ s.blocked ++ s.asleep ++ s.returned.map Prod.fst) =
    flow true (s.holder.toList ++ s.blocked ++ s.asleep ++ s.returned.map Prod.fst)
  waiting : ∀ c ∈ s.blocked ++ s.asleep, c.Sound ∧ (c.write = true → c.uio = c.given)
  holder : ∀ c ∈ s.holder, c.Sound ∧ (c.write = true → 0 < c.uio.resid → c.uio = c.given)
  returned : ∀ r ∈ s.returned, r.1.Sound ∧ (r.2 = .success → r.1.uio.resid = 0) ∧
    (r.2 = .efbig → r.1.write = true ∧ r.1.uio = r.1.given)

theorem create_inv : create.Inv where
  small := by decide
  balance := rfl
  waiting := fun c hc => absurd hc List.not_mem_nil
  holder := fun c hc => absurd hc (by simp [create])
  returned := fun r hr => absurd hr List.not_mem_nil

/-- Everything that was written by calls that have returned. -/
theorem Inv.written_eq (h : s.Inv) : flow true (s.returned.map Prod.fst) = s.written := by
  have hret := h.returned
  unfold written flow
  rw [List.map_map]
  refine congrArg List.sum (List.map_congr_left fun r hr => ?_)
  obtain ⟨-, hsuccess, hefbig⟩ := hret r hr
  cases hres : r.2 with
  | success => simp [RwCall.moved, hsuccess hres]
  | efbig => simp [RwCall.moved, (hefbig hres).2]

theorem Inv.right (h : s.Inv) : s.Right := by
  refine ⟨fun hfree => ?_, fun r hr hread => ?_, fun r hr hres => (h.returned r hr).2.2 hres⟩
  · have hbalance := h.balance
    have hwait : flow true (s.blocked ++ s.asleep) = 0 := flow_eq_zero fun c hc hw => (h.waiting c hc).2 hw
    have hwritten := h.written_eq
    unfold consumed
    simp only [hfree, Option.toList_none, List.nil_append, flow_append] at hbalance hwait ⊢
    omega
  · obtain ⟨hsound, hsuccess, hefbig⟩ := h.returned r hr
    have hres : r.2 = .success := by
      cases hres : r.2 with
      | success => rfl
      | efbig =>
        rw [(hefbig hres).1] at hread
        exact absurd hread.symm Bool.false_ne_true
    have hoff := hsound.offset
    have hzero := hsuccess hres
    refine ⟨hres, ?_⟩
    rw [RwCall.moved, hzero, Nat.sub_zero] at hoff
    rw [← hoff, ← hzero]

/-! ### Steps -/

theorem Inv.enter (h : s.Inv) (write : Bool) {u : SemUio} (hu : u.resid < 4294967296) : (s.enter write u).Inv := by
  have hnew (w : Bool) : flow w [⟨write, u, u⟩] = 0 := flow_eq_zero fun c hc _ => by
    rw [List.mem_singleton.mp hc]
  have hbalance := h.balance
  refine ⟨h.small, ?_, fun c hc => ?_, h.holder, h.returned⟩
  · simp only [SemRw.enter, flow_append, hnew] at hbalance ⊢
    omega
  · simp only [SemRw.enter, List.mem_append, List.mem_singleton] at hc
    rcases hc with (hc | rfl) | hc
    · exact h.waiting c (List.mem_append_left _ hc)
    · exact ⟨⟨hu, le_rfl, by simp [RwCall.moved]⟩, fun _ => rfl⟩
    · exact h.waiting c (List.mem_append_right _ hc)

theorem Inv.acquire (h : s.Inv) (hfree : s.holder = none) (hc : s.blocked[i]? = some c) :
    Inv { s with holder := some c, blocked := s.blocked.eraseIdx i } := by
  have hbalance := h.balance
  have hmem := List.mem_of_getElem? hc
  have herase (w : Bool) := flow_eraseIdx (w := w) hc
  refine ⟨h.small, ?_, fun d hd => ?_, fun d hd => ?_, h.returned⟩
  · have h1 := herase false
    have h2 := herase true
    simp only [hfree, Option.toList_none, Option.toList_some, flow_append, flow_nil] at hbalance ⊢
    omega
  · rcases List.mem_append.mp hd with hd | hd
    · exact h.waiting d (List.mem_append_left _ (List.mem_of_mem_eraseIdx hd))
    · exact h.waiting d (List.mem_append_right _ hd)
  · obtain rfl : c = d := Option.some.inj hd
    obtain ⟨hsound, hgiven⟩ := h.waiting c (List.mem_append_left _ hmem)
    exact ⟨hsound, fun hw _ => hgiven hw⟩

theorem Inv.wakeAt (h : s.Inv) (hs : s.wakeAt i = some s') : s'.Inv ∧ s'.holder = s.holder ∧ s'.semsCount = s.semsCount ∧
    s'.returned = s.returned := by
  obtain ⟨c, hc, rfl⟩ := Option.map_eq_some_iff.mp hs
  have hbalance := h.balance
  have hmem := List.mem_of_getElem? hc
  have herase (w : Bool) := flow_eraseIdx (w := w) hc
  refine ⟨⟨h.small, ?_, fun d hd => ?_, h.holder, h.returned⟩, rfl, rfl, rfl⟩
  · have h1 := herase false
    have h2 := herase true
    simp only [flow_append] at hbalance ⊢
    omega
  · refine h.waiting d ?_
    simp only [List.mem_append, List.mem_singleton] at hd ⊢
    rcases hd with (hd | rfl) | hd
    · exact Or.inl hd
    · exact Or.inr hmem
    · exact Or.inr (List.mem_of_mem_eraseIdx hd)

theorem Inv.wakeup (h : s.Inv) {newcount : ℕ} (hs : s.wakeup i newcount = some s') :
    s'.Inv ∧ s'.holder = s.holder ∧ s'.semsCount = s.semsCount ∧ s'.returned = s.returned := by
  unfold SemRw.wakeup at hs
  split_ifs at hs
  · cases hs
    exact ⟨h, rfl, rfl, rfl⟩
  · unfold SemRw.cvSignal at hs
    split_ifs at hs
    · cases hs
      exact ⟨h, rfl, rfl, rfl⟩
    · exact h.wakeAt hs
  · cases hs
    have hbalance := h.balance
    refine ⟨⟨h.small, ?_, fun d hd => h.waiting d ?_, h.holder, h.returned⟩, rfl, rfl, rfl⟩
    · simp only [SemRw.cvBroadcast, flow_append, flow_nil] at hbalance ⊢
      omega
    · simpa [SemRw.cvBroadcast] using hd

/-- The holder returns. -/
theorem Inv.leave (h : s.Inv) (hc : s.holder = some c) {result : RwResult} (hsuccess : result = .success → c.uio.resid = 0)
    (hefbig : result = .efbig → c.write = true ∧ c.uio = c.given) : (s.leave c result).Inv := by
  have hbalance := h.balance
  refine ⟨h.small, ?_, h.waiting, fun d hd => absurd hd (by simp [SemRw.leave]), fun r hr => ?_⟩
  · simp only [SemRw.leave, hc, Option.toList_some, Option.toList_none, List.map_append, List.map_cons, List.map_nil,
      flow_append, flow_nil] at hbalance ⊢
    omega
  · rcases List.mem_append.mp hr with hr | hr
    · exact h.returned r hr
    · rw [List.mem_singleton.mp hr]
      exact ⟨(h.holder c hc).1, hsuccess, hefbig⟩

/-- The holder has consumed `n`, or written it. -/
theorem Inv.move (h : s.Inv) (hc : s.holder = some c) {n : ℕ} (count : ℕ) (hn : n ≤ c.uio.resid)
    (hcount : count < 4294967296) (hread : c.write = false → s.semsCount = count + n)
    (hwrite : c.write = true → count = s.semsCount + n ∧ n = c.uio.resid) :
    Inv { s with semsCount := count, holder := some { c with uio := c.uio.advance n } } := by
  have hbalance := h.balance
  obtain ⟨hsound, -⟩ := (h.holder c hc).1.advance hn
  have hflow (w : Bool) := flow_advance (w := w) (h.holder c hc).1 hn
  refine ⟨hcount, ?_, h.waiting, fun d hd => ?_, h.returned⟩
  · simp only [hc, Option.toList_some, flow_append] at hbalance
    simp only [Option.toList_some, flow_append, hflow]
    by_cases hw : c.write = true
    · have hthen := (hwrite hw).1
      rw [if_neg (by simp [hw]), if_pos hw]
      omega
    · rw [Bool.not_eq_true] at hw
      have hthen := hread hw
      rw [if_pos hw, if_neg (by simp [hw])]
      omega
  · obtain rfl := Option.some.inj hd
    refine ⟨hsound, fun hw hpos => ?_⟩
    have hall := (hwrite hw).2
    simp only [SemUio.advance] at hpos
    omega

/-- A reader that has the lock goes to sleep. -/
theorem Inv.sleep (h : s.Inv) (hc : s.holder = some c) (hw : c.write = false) :
    Inv { s with holder := none, asleep := s.asleep ++ [c] } := by
  have hbalance := h.balance
  refine ⟨h.small, ?_, fun d hd => ?_, fun d hd => absurd hd (by simp), h.returned⟩
  · simp only [hc, Option.toList_some, Option.toList_none, flow_append, flow_nil] at hbalance ⊢
    omega
  · rw [← List.append_assoc] at hd
    rcases List.mem_append.mp hd with hd | hd
    · exact h.waiting d hd
    · rw [List.mem_singleton.mp hd, hw]
      exact ⟨(h.holder c hc).1, fun hno => absurd hno Bool.false_ne_true⟩

theorem Inv.readTurn (h : s.Inv) (hc : s.holder = some c) (hw : c.write = false) : (s.readTurn c).Inv := by
  have hsmall := h.small
  unfold SemRw.readTurn
  by_cases hpos : 0 < c.uio.resid
  · simp only [if_pos hpos]
    generalize hn : (if s.semsCount < c.uio.resid then s.semsCount else c.uio.resid) = n
    obtain ⟨hnr, hnc⟩ : n ≤ c.uio.resid ∧ n ≤ s.semsCount := by
      split_ifs at hn <;> omega
    have hmove := h.move hc (s.semsCount - n) hnr (by omega) (fun _ => by omega) fun hno =>
      absurd (hw.symm.trans hno) Bool.false_ne_true
    split_ifs with hdone hzero
    · exact hmove.leave rfl (fun _ => hdone) fun he => by cases he
    · exact hmove.sleep rfl hw
    · exact hmove
  · rw [if_neg hpos]
    exact h.leave hc (fun _ => by omega) fun he => by cases he

/-- A sum of two words that does not come out below the first is exact. -/
theorem add_of_not_lt {a b : ℕ} (hb : b < 4294967296) (h : ¬ (a + b) % 4294967296 < a) :
    (a + b) % 4294967296 = a + b := by
  omega

/-- A turn of a write. -/
theorem Inv.writeTurn (h : s.Inv) (hc : s.holder = some c) (hw : c.write = true) (hs : s.writeTurn i c = some s') : s'.Inv := by
  unfold SemRw.writeTurn at hs
  by_cases hpos : 0 < c.uio.resid
  · simp only [if_pos hpos] at hs
    split_ifs at hs with hover
    · cases hs
      exact h.leave hc (fun he => by cases he) fun _ => ⟨hw, (h.holder c hc).2 hw hpos⟩
    · obtain ⟨s₁, hs₁, rfl⟩ := Option.map_eq_some_iff.mp hs
      obtain ⟨h₁, hholder, hcount, -⟩ := h.wakeup hs₁
      have hsmall := h.small
      refine h₁.move (hholder.trans hc) _ le_rfl (Nat.mod_lt _ (by decide))
        (fun hno => absurd (hno.symm.trans hw) Bool.false_ne_true) fun _ => ⟨?_, rfl⟩
      rw [hcount]
      have hsound := (h.holder c hc).1
      exact add_of_not_lt (hsound.le.trans_lt hsound.small) hover
  · rw [if_neg hpos] at hs
    cases hs
    exact h.leave hc (fun _ => by omega) fun he => by cases he

theorem Inv.step (h : s.Inv) {e : SemRwEv} (hs : semRwStep s e = some s') : s'.Inv := by
  cases e with
  | read offset resid =>
    obtain rfl := Option.some.inj hs
    exact h.enter false resid.toNat_lt
  | write offset resid =>
    obtain rfl := Option.some.inj hs
    exact h.enter true resid.toNat_lt
  | acquire i =>
    simp only [semRwStep] at hs
    split_ifs at hs with hfree
    obtain ⟨c, hc, rfl⟩ := Option.map_eq_some_iff.mp hs
    exact h.acquire hfree hc
  | turn i =>
    obtain ⟨c, hc, hs⟩ := Option.bind_eq_some_iff.mp hs
    split_ifs at hs with hw
    · exact h.writeTurn hc hw hs
    · obtain rfl := Option.some.inj hs
      exact h.readTurn hc (by simpa using hw)
  | wake i => exact (h.wakeAt hs).1

/-- What a write does with the lock. -/
theorem Inv.writesRight (h : s.Inv) (e : SemRwEv) : s.WritesRight e := by
  cases e with
  | turn i =>
    intro c hc hw hpos
    have hgiven := (h.holder c hc).2 hw hpos
    have hsound := (h.holder c hc).1
    have hsmall := h.small
    have hstep : semRwStep s (.turn i) = s.writeTurn i c := by
      simp only [semRwStep, Option.mem_def.mp hc, Option.bind_some, hw, if_true]
    refine ⟨hgiven, ?_⟩
    rw [hstep, ← hgiven]
    have hresid := hsound.le.trans_lt hsound.small
    unfold SemRw.writeTurn
    simp only [if_pos hpos]
    by_cases hover : (s.semsCount + c.uio.resid) % 4294967296 < s.semsCount
    · rw [if_pos hover, if_pos (by omega)]
      rfl
    · have hsum := add_of_not_lt hresid hover
      rw [if_neg hover, if_neg (by omega)]
      intro s' hs'
      obtain ⟨s₁, -, rfl⟩ := Option.map_eq_some_iff.mp hs'
      exact hsum
  | read _ _ => trivial
  | write _ _ => trivial
  | acquire _ => trivial
  | wake _ => trivial

end SemRw

/-- A read of 3 takes two writes; it sleeps in between, once for nothing. -/
example : (exec semRwStep SemRw.create [.read 0 3, .acquire 0, .turn 0, .write 5 2, .acquire 0, .turn 0, .turn 0, .acquire 0,
    .turn 0, .wake 0, .acquire 0, .turn 0, .write 0 4, .acquire 0, .turn 0, .turn 0, .acquire 0, .turn 0]).map
      (fun s => (s.semsCount, s.returned.map fun r => (r.1.write, r.1.uio.offset, r.1.uio.resid))) =
    some (3, [(true, 7, 0), (true, 4, 0), (false, 3, 0)]) := by
  decide +kernel

end Os161
