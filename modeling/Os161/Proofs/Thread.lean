import Os161.Lib.Placement
import Os161.Spec.Thread

/-! No thread is lost or duplicated. The current thread of an idle CPU may be
asleep, a zombie or even ready again, so it counts as running only while the CPU
is not idle; what protects it from migration and from `exorcise` in the meantime
is that its `t_cpu` is still the idle CPU. -/

namespace Os161

variable {T W : Type*} {n : ℕ} {s s' : ThreadSys T W n}

/-- The operation has taken threads off its own CPU's run queue. -/
def CpuOp.sends : CpuOp T n → Bool
  | .sending _ _ _ _ => true
  | _ => false

namespace ThreadSys

/-- What the place of a thread says about its `t_state` and `t_cpu`. -/
def Fits (s : ThreadSys T W n) : Place W n → T → Prop
  | .running c, t => (s.thread t).tCpu = c
  | .runqueue c, t => s.thread t = ⟨.ready, c⟩
  | .wchan _, _ => True
  | .zombies c, t => s.thread t = ⟨.zombie, c⟩
  | .held c, t => (s.cpu c).op.sends = true → s.thread t = ⟨.ready, c⟩

structure Inv (s : ThreadSys T W n) : Prop where
  placed : Placed s.threadsAt (fun t => s.live t = true)
  fits : ∀ p, ∀ t ∈ s.threadsAt p, s.Fits p t
  current : ∀ c, s.live (s.cpu c).curthread = true ∧ (s.thread (s.cpu c).curthread).tCpu = c
  busy : ∀ c, (s.cpu c).op = .exorcising → (s.cpu c).isidle = false

theorem Fits.of_eq {p : Place W n} {t : T} (h : s.Fits p t) (hmem : t ∈ s.threadsAt p)
    (ht : s'.thread t = s.thread t)
    (hop : ∀ c, (s'.cpu c).op.sends = true → (s.cpu c).op.sends = true ∨ (s.cpu c).op.held = []) :
    s'.Fits p t := by
  cases p with
  | held c =>
    intro hs
    rcases hop c hs with hs | hnil
    · exact ht.trans (h hs)
    · rw [threadsAt, hnil] at hmem
      exact absurd hmem List.not_mem_nil
  | wchan => trivial
  | _ => simpa only [Fits, ht] using h

/-- How the invariant is kept when the threads `ts` move from `p` to `q`: it is
left to look at their own records and at the current threads. -/
theorem Inv.transfer (h : s.Inv) (p q : Place W n) (ts : List T) (hpq : p ≠ q)
    (hp : (s.threadsAt p).Perm (ts ++ s'.threadsAt p))
    (hq : (s'.threadsAt q).Perm (s.threadsAt q ++ ts))
    (ho : ∀ r, r ≠ p → r ≠ q → s'.threadsAt r = s.threadsAt r)
    (hlive : s'.live = s.live) (hthread : ∀ t, t ∉ ts → s'.thread t = s.thread t)
    (hop : ∀ c, (s'.cpu c).op.sends = true → (s.cpu c).op.sends = true ∨ (s.cpu c).op.held = [])
    (hts : ∀ t ∈ ts, s'.Fits q t)
    (hcur : ∀ c, s.live (s'.cpu c).curthread = true ∧ (s'.thread (s'.cpu c).curthread).tCpu = c)
    (hbusy : ∀ c, (s'.cpu c).op = .exorcising → (s'.cpu c).isidle = false) : s'.Inv := by
  have ho' : ∀ r, r ≠ p → r ≠ q → (s'.threadsAt r).Perm (s.threadsAt r) :=
    fun r h1 h2 => List.Perm.of_eq (ho r h1 h2)
  refine ⟨hlive ▸ h.placed.transfer hpq hp hq ho', fun r t ht => ?_, fun c => hlive ▸ hcur c, hbusy⟩
  rcases (h.placed.mem_transfer hpq hp hq ho' t r).mp ht with ⟨hmem, rfl⟩ | ⟨hnot, hmem⟩
  · exact hts t hmem
  · exact (h.fits r t hmem).of_eq hmem (hthread t hnot) hop

/-- A step that moves no thread from its place. -/
theorem Inv.frame (h : s.Inv) (hat : ∀ r, (s'.threadsAt r).Perm (s.threadsAt r))
    (hlive : s'.live = s.live) (hthread : s'.thread = s.thread)
    (hcur : ∀ c, (s'.cpu c).curthread = (s.cpu c).curthread)
    (hop : ∀ c, (s'.cpu c).op.sends = true → (s.cpu c).op.sends = true ∨ (s.cpu c).op.held = [])
    (hbusy : ∀ c, (s'.cpu c).op = .exorcising → (s'.cpu c).isidle = false) : s'.Inv where
  placed := hlive ▸ h.placed.perm hat
  fits r t ht := by
    have hmem := (hat r).mem_iff.mp ht
    exact (h.fits r t hmem).of_eq hmem (by rw [hthread]) hop
  current c := by
    rw [hlive, hthread, hcur]
    exact h.current c
  busy := hbusy

@[simp] theorem setCpu_cpu (s : ThreadSys T W n) (c d : Fin n) (x : Cpu T n) :
    (s.setCpu c x).cpu d = if d = c then x else s.cpu d :=
  Function.update_apply ..

@[simp] theorem setCpu_thread (s : ThreadSys T W n) (c : Fin n) (x : Cpu T n) :
    (s.setCpu c x).thread = s.thread := rfl

@[simp] theorem setCpu_wchan (s : ThreadSys T W n) (c : Fin n) (x : Cpu T n) :
    (s.setCpu c x).wchan = s.wchan := rfl

@[simp] theorem setCpu_live (s : ThreadSys T W n) (c : Fin n) (x : Cpu T n) :
    (s.setCpu c x).live = s.live := rfl

theorem setOp_inv (h : s.Inv) {c : Fin n} {op : CpuOp T n}
    (hheld : op.held.Perm (s.cpu c).op.held)
    (hs : op.sends = true → (s.cpu c).op.sends = true ∨ (s.cpu c).op.held = [])
    (hb : op ≠ .exorcising) : (s.setOp c op).Inv := by
  apply h.frame
  · intro r
    cases r <;> simp [threadsAt, setOp] <;> split_ifs <;> simp_all
  · rfl
  · rfl
  · intro d
    simp only [setOp, setCpu_cpu]
    split_ifs with hd <;> simp [hd]
  · intro d
    simp only [setOp, setCpu_cpu]
    split_ifs with hd
    · exact hd ▸ hs
    · exact Or.inl
  · intro d hd
    simp only [setOp, setCpu_cpu] at hd ⊢
    split_ifs at hd ⊢
    · exact absurd hd hb
    · exact h.busy d hd

variable [DecidableEq T]

@[simp] theorem setState_cpu (s : ThreadSys T W n) (t : T) (st : ThreadState) :
    (s.setState t st).cpu = s.cpu := rfl

@[simp] theorem setState_wchan (s : ThreadSys T W n) (t : T) (st : ThreadState) :
    (s.setState t st).wchan = s.wchan := rfl

@[simp] theorem setState_live (s : ThreadSys T W n) (t : T) (st : ThreadState) :
    (s.setState t st).live = s.live := rfl

@[simp] theorem setState_self (s : ThreadSys T W n) (t : T) (st : ThreadState) :
    (s.setState t st).thread t = ⟨st, (s.thread t).tCpu⟩ :=
  Function.update_self ..

theorem setState_of_ne (s : ThreadSys T W n) {t u : T} (st : ThreadState) (h : u ≠ t) :
    (s.setState t st).thread u = s.thread u :=
  Function.update_of_ne h ..

@[simp] theorem setState_tCpu (s : ThreadSys T W n) (t u : T) (st : ThreadState) :
    ((s.setState t st).thread u).tCpu = (s.thread u).tCpu := by
  by_cases h : u = t
  · rw [h, setState_self]
  · rw [setState_of_ne s st h]

theorem pickNext_inv (h : s.Inv) {c : Fin n} (hidle : (s.cpu c).isidle = true)
    (hop : (s.cpu c).op = .none) : (s.pickNext c).Inv := by
  unfold pickNext
  split
  · exact h
  · rename_i next rest hq
    have hmem : next ∈ s.threadsAt (.runqueue c) := by simp [threadsAt, hq]
    have hnext : s.thread next = ⟨.ready, c⟩ := h.fits _ _ hmem
    apply h.transfer (.runqueue c) (.running c) [next] (by simp)
    · simp [threadsAt, hq]
    · simp [threadsAt, hidle]
    · intro r h1 h2
      cases r <;> simp [threadsAt] at * <;> split_ifs <;> simp_all [CpuOp.held]
    · rfl
    · intro t ht
      exact setState_of_ne _ _ (by simpa using ht)
    · intro d
      simp only [setState_cpu, setCpu_cpu]
      split_ifs
      · simp [CpuOp.sends]
      · exact Or.inl
    · simp [Fits, hnext]
    · intro d
      by_cases hd : d = c
      · have := (h.placed.cover next).mpr ⟨_, hmem⟩
        simp [hd, hnext, this]
      · simpa [hd] using h.current d
    · intro d
      by_cases hd : d = c
      · simp [hd]
      · simpa [hd] using h.busy d

@[simp] theorem threadMakeRunnable_cpu (s : ThreadSys T W n) (t : T) (d : Fin n) :
    (s.threadMakeRunnable t).cpu d =
      if d = (s.thread t).tCpu then { s.cpu d with runqueue := (s.cpu d).runqueue ++ [t] }
      else s.cpu d := by
  by_cases hd : d = (s.thread t).tCpu <;> simp [threadMakeRunnable, hd]

@[simp] theorem threadMakeRunnable_thread (s : ThreadSys T W n) (t : T) :
    (s.threadMakeRunnable t).thread = (s.setState t .ready).thread := rfl

@[simp] theorem threadMakeRunnable_wchan (s : ThreadSys T W n) (t : T) :
    (s.threadMakeRunnable t).wchan = s.wchan := rfl

@[simp] theorem threadMakeRunnable_live (s : ThreadSys T W n) (t : T) :
    (s.threadMakeRunnable t).live = s.live := rfl

theorem threadMakeRunnable_frame (s : ThreadSys T W n) (t : T) (d : Fin n) :
    ((s.threadMakeRunnable t).cpu d).curthread = (s.cpu d).curthread ∧
      ((s.threadMakeRunnable t).cpu d).isidle = (s.cpu d).isidle ∧
      ((s.threadMakeRunnable t).cpu d).op = (s.cpu d).op := by
  rw [threadMakeRunnable_cpu]
  split_ifs <;> exact ⟨rfl, rfl, rfl⟩

theorem threadsAt_threadMakeRunnable [DecidableEq W] (s : ThreadSys T W n) (t : T) (r : Place W n) :
    (s.threadMakeRunnable t).threadsAt r =
      s.threadsAt r ++ if r = .runqueue (s.thread t).tCpu then [t] else [] := by
  cases r with
  | wchan wc => simp [threadsAt]
  | running d | runqueue d | zombies d | held d =>
    by_cases hd : d = (s.thread t).tCpu <;> simp [threadsAt, hd]

variable [DecidableEq W]

/-- Where the current thread goes when it is parked. -/
def SwitchTo.place (c : Fin n) : SwitchTo W → Place W n
  | .ready => .runqueue c
  | .sleep wc => .wchan wc
  | .zombie => .zombies c

theorem park_cpu {c : Fin n} (hcur : (s.thread (s.cpu c).curthread).tCpu = c) (st : SwitchTo W)
    (d : Fin n) :
    ((s.park c st).cpu d).curthread = (s.cpu d).curthread ∧ ((s.park c st).cpu d).op = (s.cpu d).op ∧
      ((s.park c st).cpu d).isidle = ((s.cpu d).isidle || decide (d = c)) := by
  cases st <;> by_cases hd : d = c <;> simp [park, hd, hcur]

theorem threadsAt_park {c : Fin n} (hcur : (s.thread (s.cpu c).curthread).tCpu = c) (st : SwitchTo W)
    {r : Place W n} (hr : r ≠ .running c) :
    (s.park c st).threadsAt r =
      s.threadsAt r ++ if r = SwitchTo.place c st then [(s.cpu c).curthread] else [] := by
  cases r with
  | running d =>
    have hd : d ≠ c := fun hd => hr (hd ▸ rfl)
    cases st <;> simp [threadsAt, park, SwitchTo.place, hcur, hd]
  | runqueue d | zombies d | held d =>
    by_cases hd : d = c <;> cases st <;> simp [threadsAt, park, SwitchTo.place, hcur, hd]
  | wchan wc =>
    cases st with
    | ready | zombie => simp [threadsAt, park, SwitchTo.place]
    | sleep w => by_cases hw : wc = w <;> simp [threadsAt, park, SwitchTo.place, hw]

theorem park_inv (h : s.Inv) {c : Fin n} (hidle : (s.cpu c).isidle = false)
    (hop : (s.cpu c).op = .none) (st : SwitchTo W) : (s.park c st).Inv := by
  have hcpu := park_cpu (h.current c).2 st
  have hat {r : Place W n} (hr : r ≠ .running c) := threadsAt_park (h.current c).2 st hr
  have hne : SwitchTo.place c st ≠ .running c := by cases st <;> simp [SwitchTo.place]
  apply h.transfer (.running c) (SwitchTo.place c st) [(s.cpu c).curthread] hne.symm
  · simp [threadsAt, hidle, hcpu]
  · rw [hat hne, if_pos rfl]
  · intro r h1 h2
    rw [hat h1, if_neg h2, List.append_nil]
  · cases st <;> rfl
  · intro t ht
    rw [List.mem_singleton] at ht
    cases st <;> simp [park, setState_of_ne _ _ ht]
  · intro d hd
    rw [(hcpu d).2.1] at hd
    exact Or.inl hd
  · cases st <;> simp [Fits, SwitchTo.place, park, (h.current c).2, SwitchTo.state]
  · intro d
    have := h.current d
    rw [(hcpu d).1]
    cases st <;> simpa [park] using this
  · intro d hd
    rw [(hcpu d).2.1] at hd
    have hdc : d ≠ c := by
      rintro rfl
      simp [hop] at hd
    simp [hcpu, h.busy d hd, hdc]

theorem threadSwitch_inv (h : s.Inv) {c : Fin n} (hop : (s.cpu c).op = .none) (st : SwitchTo W) :
    (s.threadSwitch c st).Inv := by
  unfold threadSwitch
  split_ifs with hidle hempty
  · exact h
  · exact h
  · have hcpu := park_cpu (h.current c).2 st c
    apply pickNext_inv (park_inv h (by simpa using hidle) hop st)
    · rw [hcpu.2.2]
      simp
    · rw [hcpu.2.1, hop]

/-- `t` is taken from `p`, where it may be only because it sleeps or is held by a
`wchan_wakeall`, and made runnable. -/
theorem threadMakeRunnable_inv (h : s.Inv) {s₁ : ThreadSys T W n} {p : Place W n} {t : T}
    (hp : (s.threadsAt p).Perm (t :: s₁.threadsAt p)) (hrun : ∀ c, p ≠ .runqueue c)
    (ho : ∀ r, r ≠ p → s₁.threadsAt r = s.threadsAt r)
    (hlive : s₁.live = s.live) (hthread : s₁.thread = s.thread)
    (hcpu : ∀ d, (s₁.cpu d).curthread = (s.cpu d).curthread ∧ (s₁.cpu d).isidle = (s.cpu d).isidle ∧
      ((s₁.cpu d).op.sends = true → (s.cpu d).op.sends = true) ∧
      ((s₁.cpu d).op = .exorcising → (s.cpu d).op = .exorcising)) :
    (s₁.threadMakeRunnable t).Inv := by
  have hat (r : Place W n) := threadsAt_threadMakeRunnable s₁ t r
  rw [hthread] at hat
  apply h.transfer p (.runqueue (s.thread t).tCpu) [t] (hrun _)
  · rw [hat, if_neg (hrun _), List.append_nil]
    exact hp
  · rw [hat, if_pos rfl, ho _ (hrun _).symm]
  · intro r h1 h2
    rw [hat, if_neg h2, List.append_nil, ho r h1]
  · exact hlive
  · intro u hu
    rw [List.mem_singleton] at hu
    simp [setState_of_ne _ _ hu, hthread]
  · intro d hd
    rw [(threadMakeRunnable_frame s₁ t d).2.2] at hd
    exact Or.inl ((hcpu d).2.2.1 hd)
  · simp [Fits, hthread]
  · intro d
    rw [(threadMakeRunnable_frame s₁ t d).1, (hcpu d).1]
    simpa [hthread] using h.current d
  · intro d hd
    rw [(threadMakeRunnable_frame s₁ t d).2.2] at hd
    rw [(threadMakeRunnable_frame s₁ t d).2.1, (hcpu d).2.1]
    exact h.busy d ((hcpu d).2.2.2 hd)

theorem wchanWakeone_inv (h : s.Inv) (wc : W) : (s.wchanWakeone wc).Inv := by
  unfold wchanWakeone
  split
  · exact h
  · rename_i t rest hwc
    apply threadMakeRunnable_inv h (p := .wchan wc)
    · simp [threadsAt, hwc]
    · simp
    · intro r hr
      cases r with
      | wchan w =>
        have hw : w ≠ wc := fun hw => hr (hw ▸ rfl)
        simp [threadsAt, hw]
      | _ => rfl
    · rfl
    · rfl
    · exact fun d => ⟨rfl, rfl, id, id⟩

theorem wakeNext_inv (h : s.Inv) {c : Fin n} {t : T} {ts : List T}
    (hop : (s.cpu c).op = .waking (t :: ts)) : ((s.setOp c (.waking ts)).threadMakeRunnable t).Inv := by
  apply threadMakeRunnable_inv h (p := .held c)
  · simp [threadsAt, setOp, hop, CpuOp.held]
  · simp
  · intro r hr
    cases r with
    | wchan w => rfl
    | running d | runqueue d | zombies d => by_cases hd : d = c <;> simp [threadsAt, setOp, hd]
    | held d =>
      have hd : d ≠ c := fun hd => hr (hd ▸ rfl)
      simp [threadsAt, setOp, hd]
  · rfl
  · rfl
  · intro d
    by_cases hd : d = c
    · simp [setOp, hd, CpuOp.sends]
    · simp [setOp, hd]

omit [DecidableEq T] in
theorem wchanWakeall_inv (h : s.Inv) {c : Fin n} (hop : (s.cpu c).op = .none) (wc : W) :
    (s.wchanWakeall c wc).Inv := by
  apply h.transfer (.wchan wc) (.held c) (s.wchan wc) (by simp)
  · simp [threadsAt, wchanWakeall]
  · simp [threadsAt, wchanWakeall, setOp, hop, CpuOp.held]
  · intro r h1 h2
    cases r with
    | wchan w =>
      have hw : w ≠ wc := fun hw => h1 (hw ▸ rfl)
      simp [threadsAt, wchanWakeall, hw]
    | running d | runqueue d | zombies d =>
      by_cases hd : d = c <;> simp [threadsAt, wchanWakeall, setOp, hd]
    | held d =>
      have hd : d ≠ c := fun hd => h2 (hd ▸ rfl)
      simp [threadsAt, wchanWakeall, setOp, hd]
  · rfl
  · exact fun _ _ => rfl
  · intro d
    by_cases hd : d = c
    · simp [wchanWakeall, setOp, hd, CpuOp.sends]
    · simp only [wchanWakeall, setOp, setCpu_cpu, if_neg hd]
      exact Or.inl
  · simp [Fits, wchanWakeall, setOp, CpuOp.sends]
  · intro d
    have := h.current d
    by_cases hd : d = c <;> simp_all [wchanWakeall, setOp]
  · intro d
    have := h.busy d
    by_cases hd : d = c <;> simp_all [wchanWakeall, setOp]

theorem threadFork_inv (h : s.Inv) (c : Fin n) {t : T} (ht : s.live t = false) :
    (s.threadFork c t).Inv := by
  unfold threadFork
  set s₁ : ThreadSys T W n := { s with
    thread := Function.update s.thread t ⟨.ready, (s.thread (s.cpu c).curthread).tCpu⟩
    live := Function.update s.live t true } with hs₁
  have hat (r : Place W n) := threadsAt_threadMakeRunnable s₁ t r
  have hold (r : Place W n) : s₁.threadsAt r = s.threadsAt r := by cases r <;> rfl
  have hnot (r : Place W n) : t ∉ s.threadsAt r := fun hr => by
    simp [(h.placed.cover t).mpr ⟨r, hr⟩] at ht
  have hthread {u : T} (hu : u ≠ t) : (s₁.threadMakeRunnable t).thread u = s.thread u := by
    rw [threadMakeRunnable_thread, setState_of_ne _ _ hu]
    exact Function.update_of_ne hu ..
  have hframe (d : Fin n) := threadMakeRunnable_frame s₁ t d
  refine ⟨?_, fun r u hu => ?_, fun d => ?_, fun d hd => ?_⟩
  · have hins : Placed (s₁.threadMakeRunnable t).threadsAt (fun u => s.live u = true ∨ u = t) :=
      h.placed.insert (q := .runqueue (s₁.thread t).tCpu) (by simp [ht])
        (by rw [hat, if_pos rfl, hold])
        (fun r hr => by rw [hat, if_neg hr, List.append_nil, hold])
    convert hins using 2 with u
    by_cases hu : u = t <;> simp [hs₁, hu]
  · rw [hat, hold, List.mem_append] at hu
    rcases hu with hu | hu
    · have hne : u ≠ t := fun he => hnot r (he ▸ hu)
      refine (h.fits r u hu).of_eq hu (hthread hne) fun d hd => Or.inl ?_
      rwa [(hframe d).2.2] at hd
    · split_ifs at hu with hr
      · rw [List.mem_singleton] at hu
        simp [hr, hu, Fits]
      · simp at hu
  · have hcur := h.current d
    have hne : (s.cpu d).curthread ≠ t := fun he => by simp [he, ht] at hcur
    rw [(hframe d).1, hthread hne]
    simpa [hs₁, hne] using hcur
  · rw [(hframe d).2.2] at hd
    rw [(hframe d).2.1]
    exact h.busy d hd

omit [DecidableEq T] [DecidableEq W] in
/-- The assertions in `exorcise` and `thread_destroy` hold, and the thread that
goes away is nobody's current thread. -/
theorem zombie_spec (h : s.Inv) {c : Fin n} (hop : (s.cpu c).op = .exorcising) {z : T}
    (hz : z ∈ (s.cpu c).zombies) : (∀ d, z ≠ (s.cpu d).curthread) ∧ s.thread z = ⟨.zombie, c⟩ := by
  have hthread : s.thread z = ⟨.zombie, c⟩ := h.fits (.zombies c) z hz
  refine ⟨fun d hd => ?_, hthread⟩
  have hdc : d = c := by rw [← (h.current d).2, ← hd, hthread]
  subst hdc
  have hrun : z ∈ s.threadsAt (.running d) := by simp [threadsAt, h.busy d hop, hd]
  exact absurd (h.placed.unique _ _ _ hrun (show z ∈ s.threadsAt (.zombies d) from hz)) (by simp)

theorem exorcise_inv (h : s.Inv) {c : Fin n} (hop : (s.cpu c).op = .exorcising) :
    ∃ s', s.exorcise c = some s' ∧ s'.Inv := by
  unfold exorcise
  split
  · refine ⟨_, rfl, setOp_inv h ?_ ?_ (by simp)⟩
    · simp [hop, CpuOp.held]
    · simp [CpuOp.sends]
  · rename_i z rest hz
    obtain ⟨hcur, hthread⟩ := zombie_spec h hop (z := z) (by simp [hz])
    rw [if_neg (by simp [hcur, hthread])]
    set s' : ThreadSys T W n := { s.setCpu c { s.cpu c with zombies := rest } with
      live := Function.update s.live z false } with hs'
    have hpop : (s.threadsAt (.zombies c)).Perm (z :: s'.threadsAt (.zombies c)) := by
      simp [threadsAt, hs', hz]
    have hothers : ∀ r, r ≠ .zombies c → (s'.threadsAt r).Perm (s.threadsAt r) := by
      intro r hr
      cases r with
      | wchan w => rfl
      | running d | runqueue d | held d => by_cases hd : d = c <;> simp [threadsAt, hs', hd]
      | zombies d =>
        have hd : d ≠ c := fun hd => hr (hd ▸ rfl)
        simp [threadsAt, hs', hd]
    have hcpu (d : Fin n) : (s'.cpu d).curthread = (s.cpu d).curthread ∧ (s'.cpu d).op = (s.cpu d).op ∧
        (s'.cpu d).isidle = (s.cpu d).isidle := by
      by_cases hd : d = c <;> simp [hs', hd]
    refine ⟨s', rfl, ?_, fun r u hu => ?_, fun d => ?_, fun d hd => ?_⟩
    · convert h.placed.remove hpop hothers using 2 with u
      by_cases hu : u = z <;> simp [hs', hu]
    · have hmem : u ∈ s.threadsAt r := by
        by_cases hr : r = .zombies c
        · exact hr ▸ hpop.mem_iff.mpr (List.mem_cons_of_mem z (hr ▸ hu))
        · exact (hothers r hr).mem_iff.mp hu
      exact (h.fits r u hmem).of_eq hmem rfl fun d hd => Or.inl ((hcpu d).2.1 ▸ hd)
    · rw [(hcpu d).1]
      simpa [hs', (hcur d).symm] using h.current d
    · rw [(hcpu d).2.2]
      exact h.busy d ((hcpu d).2.1 ▸ hd)

omit [DecidableEq T] [DecidableEq W] in
theorem takeVictims_perm {k : ℕ} {queue victims queue' victims' : List T}
    (h : takeVictims k queue victims = some (queue', victims')) :
    queue' ++ victims' = queue ++ victims := by
  induction k generalizing queue victims with
  | zero =>
    simp only [takeVictims, Option.some.injEq, Prod.mk.injEq] at h
    rw [h.1, h.2]
  | succ k ih =>
    unfold takeVictims at h
    split at h
    · exact absurd h (by simp)
    · rename_i t ht
      obtain ⟨init, rfl⟩ := List.getLast?_eq_some_iff.mp ht
      simpa using ih h

omit [DecidableEq T] [DecidableEq W] in
theorem migrateTake_inv (h : s.Inv) {c : Fin n} {share k : ℕ} (hop : (s.cpu c).op = .taking share k)
    (hs : s.migrateTake c share k = some s') : s'.Inv := by
  unfold migrateTake at hs
  obtain ⟨⟨queue, victims⟩, hv, rfl⟩ := Option.map_eq_some_iff.mp hs
  have hq : queue ++ victims = (s.cpu c).runqueue := by simpa using takeVictims_perm hv
  apply h.transfer (.runqueue c) (.held c) victims (by simp)
  · simp [threadsAt, ← hq, List.perm_append_comm]
  · simp [threadsAt, hop, CpuOp.held]
  · intro r h1 h2
    cases r with
    | wchan w => rfl
    | running d | zombies d => by_cases hd : d = c <;> simp [threadsAt, hd]
    | runqueue d =>
      have hd : d ≠ c := fun hd => h1 (hd ▸ rfl)
      simp [threadsAt, hd]
    | held d =>
      have hd : d ≠ c := fun hd => h2 (hd ▸ rfl)
      simp [threadsAt, hd]
  · rfl
  · exact fun _ _ => rfl
  · intro d
    by_cases hd : d = c
    · simp [hd, hop, CpuOp.held]
    · simp only [setCpu_cpu, if_neg hd]
      exact Or.inl
  · intro t ht _
    exact h.fits (.runqueue c) t (by simp [threadsAt, ← hq, ht])
  · intro d
    have := h.current d
    by_cases hd : d = c <;> simp_all
  · intro d
    have := h.busy d
    by_cases hd : d = c <;> simp_all

/-- The inner loop of the migration sends some of the victims and keeps the rest,
and never sends the current thread. -/
theorem sendLoop_spec {cur : T} {share k count : ℕ} {victims : List T} {r : Sent T}
    (h : sendLoop cur share k count victims = some r) :
    victims.Perm (r.sent ++ r.victims) ∧ cur ∉ r.sent := by
  induction k generalizing count victims r with
  | zero =>
    simp only [sendLoop, Option.some.injEq] at h
    simp [← h]
  | succ k ih =>
    unfold sendLoop at h
    by_cases hc : count < share
    · rw [if_pos hc] at h
      cases victims with
      | nil => exact absurd h (by simp)
      | cons t ts =>
        by_cases ht : t = cur
        · simp only [if_pos ht] at h
          obtain ⟨hp, hn⟩ := ih h
          exact ⟨(List.perm_append_singleton t ts).symm.trans hp, hn⟩
        · simp only [if_neg ht] at h
          obtain ⟨r₁, hr₁, rfl⟩ := Option.map_eq_some_iff.mp h
          obtain ⟨hp, hn⟩ := ih hr₁
          exact ⟨hp.cons t, by simp [hn, Ne.symm ht]⟩
    · rw [if_neg hc, Option.some.injEq] at h
      simp [← h]

omit [DecidableEq W] in
theorem enqueueSent_inv (h : s.Inv) {c d : Fin n} {todo ds : List (Fin n)} {share k k' : ℕ}
    {victims sent rest : List T} (hop : (s.cpu c).op = .sending todo share k victims) (hdc : d ≠ c)
    (hv : victims.Perm (sent ++ rest)) (hcur : (s.cpu c).curthread ∉ sent) :
    ((s.setOp c (.sending ds share k' rest)).enqueueSent d sent).Inv := by
  have hready : ∀ t ∈ sent, s.thread t = ⟨.ready, c⟩ := by
    intro t ht
    refine h.fits (.held c) t ?_ (by simp [hop, CpuOp.sends])
    simp only [threadsAt, hop, CpuOp.held]
    exact hv.mem_iff.mpr (List.mem_append_left _ ht)
  apply h.transfer (.held c) (.runqueue d) sent (by simp)
  · simpa [threadsAt, enqueueSent, setOp, hop, CpuOp.held, hdc.symm] using hv
  · simp [threadsAt, enqueueSent, setOp, hdc]
  · intro r h1 h2
    cases r with
    | wchan w => rfl
    | running e | zombies e =>
      by_cases he : e = d <;> by_cases hc : e = c <;>
        simp [threadsAt, enqueueSent, setOp, he, hc, hdc, hdc.symm]
    | runqueue e =>
      have he : e ≠ d := fun he => h2 (he ▸ rfl)
      by_cases hc : e = c <;> simp [threadsAt, enqueueSent, setOp, he, hc, hdc.symm]
    | held e =>
      have hc : e ≠ c := fun hc => h1 (hc ▸ rfl)
      by_cases he : e = d <;> simp [threadsAt, enqueueSent, setOp, he, hc, hdc]
  · rfl
  · intro t ht
    exact if_neg ht
  · intro e
    by_cases hc : e = c
    · simp [hc, hop, CpuOp.sends]
    · by_cases he : e = d <;> simp [enqueueSent, setOp, hc, he, hdc] <;> exact Or.inl
  · intro t ht
    simp [Fits, enqueueSent, setOp, ht, hready t ht]
  · intro e
    have hcurr := h.current e
    -- a thread that was sent had the sending CPU in its `t_cpu`
    have hnot : (s.cpu e).curthread ∉ sent := by
      intro hmem
      have hec : e = c := by rw [← hcurr.2, hready _ hmem]
      exact hcur (hec ▸ hmem)
    by_cases he : e = d <;> by_cases hc : e = c <;>
      simp_all [enqueueSent, setOp]
  · intro e
    have := h.busy e
    by_cases he : e = d <;> by_cases hc : e = c <;> simp_all [enqueueSent, setOp]

omit [DecidableEq W] in
theorem migrateSend_inv (h : s.Inv) {c : Fin n} {todo : List (Fin n)} {share k : ℕ} {victims : List T}
    (hop : (s.cpu c).op = .sending todo share k victims)
    (hs : s.migrateSend c todo share k victims = some s') : s'.Inv := by
  have hkeep (ds : List (Fin n)) : (s.setOp c (.sending ds share k victims)).Inv :=
    setOp_inv h (by simp [hop, CpuOp.held]) (by simp [hop, CpuOp.sends]) (by simp)
  unfold migrateSend at hs
  cases todo with
  | nil => exact absurd hs (by simp)
  | cons d ds =>
    simp only at hs
    split_ifs at hs with hk hdc
    · cases hs
      exact hkeep []
    · cases hs
      exact hkeep ds
    · obtain ⟨r, hr, rfl⟩ := Option.map_eq_some_iff.mp hs
      obtain ⟨hv, hcur⟩ := sendLoop_spec hr
      exact enqueueSent_inv h hop hdc hv hcur

omit [DecidableEq T] [DecidableEq W] in
theorem migratePutBack_inv (h : s.Inv) {c : Fin n} {todo : List (Fin n)} {share k : ℕ}
    {victims : List T} (hop : (s.cpu c).op = .sending todo share k victims) :
    (s.migratePutBack c victims).Inv := by
  apply h.transfer (.held c) (.runqueue c) victims (by simp)
  · simp [threadsAt, migratePutBack, hop, CpuOp.held]
  · simp [threadsAt, migratePutBack]
  · intro r h1 h2
    cases r with
    | wchan w => rfl
    | running d | zombies d => by_cases hd : d = c <;> simp [threadsAt, migratePutBack, hd]
    | runqueue d =>
      have hd : d ≠ c := fun hd => h2 (hd ▸ rfl)
      simp [threadsAt, migratePutBack, hd]
    | held d =>
      have hd : d ≠ c := fun hd => h1 (hd ▸ rfl)
      simp [threadsAt, migratePutBack, hd]
  · rfl
  · exact fun _ _ => rfl
  · intro d
    by_cases hd : d = c
    · simp [hd, hop, CpuOp.sends]
    · simp only [migratePutBack, setCpu_cpu, if_neg hd]
      exact Or.inl
  · intro t ht
    exact h.fits (.held c) t (by simpa [threadsAt, hop, CpuOp.held] using ht) (by simp [hop, CpuOp.sends])
  · intro d
    have := h.current d
    by_cases hd : d = c <;> simp_all [migratePutBack]
  · intro d
    have := h.busy d
    by_cases hd : d = c <;> simp_all [migratePutBack]

omit [DecidableEq T] [DecidableEq W] in
theorem migrateCount_inv (h : s.Inv) {c : Fin n} {todo : List (Fin n)} {my total : ℕ}
    (hop : (s.cpu c).op = .counting todo my total) : (s.migrateCount c todo my total).Inv := by
  unfold migrateCount
  cases todo with
  | nil =>
    apply setOp_inv h
    · split_ifs <;> simp [hop, CpuOp.held]
    · exact fun _ => Or.inr (by simp [hop, CpuOp.held])
    · split_ifs <;> simp
  | cons d ds =>
    apply setOp_inv h
    · simp [hop, CpuOp.held]
    · simp [CpuOp.sends]
    · simp

omit [DecidableEq W] in
theorem boot_inv (b : Startup T n) : (boot b : ThreadSys T W n).Inv where
  placed := by
    refine ⟨fun p => ?_, fun p q t hp hq => ?_, fun t => ?_⟩
    · cases p <;> simp [threadsAt, boot, CpuOp.held]
    · cases p <;> cases q <;> simp_all [threadsAt, boot, CpuOp.held]
      rename_i c d
      rw [← b.home_start c, hq, b.home_start]
    · simp only [boot, decide_eq_true_eq]
      constructor
      · exact fun ht => ⟨.running (b.home t), by simp [threadsAt, ht]⟩
      · rintro ⟨p, hp⟩
        cases p <;> simp [threadsAt, CpuOp.held] at hp
        rw [hp, b.home_start]
  fits p t ht := by
    cases p <;> simp_all [threadsAt, boot, CpuOp.held, Fits, b.home_start]
  current c := by simp [boot, b.home_start]
  busy c := by simp [boot]

end ThreadSys

open ThreadSys in
theorem threadStep_inv [DecidableEq T] [DecidableEq W] (h : s.Inv) {e : ThreadEv T W n}
    (hs : threadStep s e = some s') : s'.Inv := by
  cases e with
  | fork c t =>
    simp only [threadStep] at hs
    split at hs
    · split_ifs at hs with ht
      cases hs
      exact threadFork_inv h c (by simpa using fun hl => ht (Or.inr hl))
    · exact absurd hs (by simp)
  | yield c | sleep c wc | exit c =>
    simp only [threadStep] at hs
    split at hs
    · rename_i hop
      cases hs
      exact threadSwitch_inv h hop _
    · exact absurd hs (by simp)
  | unidle c =>
    simp only [threadStep] at hs
    split at hs
    · rename_i hop
      split_ifs at hs with hidle
      cases hs
      exact pickNext_inv h hidle hop
    · exact absurd hs (by simp)
  | exorcise c =>
    simp only [threadStep] at hs
    split at hs
    · rename_i hop
      obtain ⟨s₁, hs₁, hinv⟩ := exorcise_inv h hop
      cases hs₁.symm.trans hs
      exact hinv
    · exact absurd hs (by simp)
  | wakeone c wc =>
    simp only [threadStep] at hs
    split at hs
    · cases hs
      exact wchanWakeone_inv h wc
    · exact absurd hs (by simp)
  | wakeall c wc =>
    simp only [threadStep] at hs
    split at hs
    · rename_i hop
      cases hs
      exact wchanWakeall_inv h hop wc
    · exact absurd hs (by simp)
  | wakeNext c =>
    simp only [threadStep] at hs
    split at hs
    · rename_i hop
      cases hs
      exact setOp_inv h (by simp [hop, CpuOp.held]) (by simp [CpuOp.sends]) (by simp)
    · rename_i hop
      cases hs
      exact wakeNext_inv h hop
    · exact absurd hs (by simp)
  | migrate c =>
    simp only [threadStep] at hs
    split at hs
    · rename_i hop
      cases hs
      exact setOp_inv h (by simp [hop, CpuOp.held]) (by simp [CpuOp.sends]) (by simp)
    · exact absurd hs (by simp)
  | migrateNext c =>
    simp only [threadStep] at hs
    split at hs
    · rename_i hop
      cases hs
      exact migrateCount_inv h hop
    · rename_i hop
      exact migrateTake_inv h hop hs
    · rename_i hop
      cases hs
      exact migratePutBack_inv h hop
    · rename_i hop
      exact migrateSend_inv h hop hs
    · exact absurd hs (by simp)

/-- In every state of every run: a thread that was created and not destroyed is in
exactly one place, once; a thread on a run queue is ready and assigned to that
queue's CPU; and a thread that was destroyed, or not yet created, is the current
thread of no CPU, idle or not, and in no place. -/
theorem thread_places_run [DecidableEq T] [DecidableEq W] (b : Startup T n) (evs : List (ThreadEv T W n)) :
    AllStates threadStep (fun s =>
      (∀ t, s.live t = true →
        ∃ p, (s.threadsAt p).count t = 1 ∧ ∀ q, q ≠ p → t ∉ s.threadsAt q) ∧
      (∀ c, ∀ t ∈ (s.cpu c).runqueue, (s.thread t).tState = .ready ∧ (s.thread t).tCpu = c) ∧
      (∀ t, s.live t = false → (∀ c, (s.cpu c).curthread ≠ t) ∧ ∀ p, t ∉ s.threadsAt p))
      (ThreadSys.boot b) evs := by
  refine (allStates_of_step (fun s e t h ht => threadStep_inv h ht) (ThreadSys.boot_inv b) evs).mono ?_
  intro s h
  refine ⟨fun t ht => ?_, fun c t ht => ?_, fun t ht => ⟨fun c hc => ?_, fun p hp => ?_⟩⟩
  · obtain ⟨p, hp⟩ := (h.placed.cover t).mp ht
    exact ⟨p, List.count_eq_one_of_mem (h.placed.nodup p) hp,
      fun q hq hmem => hq (h.placed.unique q p t hmem hp)⟩
  · have hrec : s.thread t = ⟨.ready, c⟩ := h.fits (.runqueue c) t ht
    simp [hrec]
  · have := (h.current c).1
    simp [hc, ht] at this
  · have := (h.placed.cover t).mpr ⟨p, hp⟩
    simp [ht] at this

end Os161
