import Os161.Proofs.Thread
import Os161.Spec.Migration

/-! A call of `thread_consider_migration` loses no thread, whatever the other CPUs do in
the meantime: its own run queue can only grow, and it has at least `to_send` victims. -/

namespace Os161

variable {T W : Type*} {n : ℕ} {c : Fin n}

/-- What the counters of the call promise, for a run queue of `len` threads. -/
def CpuOp.Enough (len : ℕ) : CpuOp T n → Prop
  | .counting _ myCount _ => myCount ≤ len
  | .taking _ toSend => toSend ≤ len
  | .sending _ _ toSend victims => toSend ≤ victims.length
  | .none => True
  | _ => False

theorem CpuOp.Enough.mono {op : CpuOp T n} {len len' : ℕ} (h : op.Enough len) (hle : len ≤ len') : op.Enough len' := by
  cases op with
  | counting _ my _ => exact Nat.le_trans h hle
  | taking _ k => exact Nat.le_trans h hle
  | sending _ _ _ _ => exact h
  | none => trivial
  | exorcising => exact h
  | waking _ => exact h

theorem takeVictims_isSome (k : ℕ) (queue victims : List T) (h : k ≤ queue.length) :
    ∃ queue' victims', ThreadSys.takeVictims k queue victims = some (queue', victims') ∧
      victims'.length = k + victims.length := by
  induction k generalizing queue victims with
  | zero => exact ⟨queue, victims, rfl, (Nat.zero_add _).symm⟩
  | succ k ih =>
    rcases queue.eq_nil_or_concat' with rfl | ⟨init, t, rfl⟩
    · exact absurd h (by simp)
    · rw [List.length_append, List.length_singleton] at h
      obtain ⟨queue', victims', htake, hlen⟩ := ih init (t :: victims) (by omega)
      refine ⟨queue', victims', ?_, ?_⟩
      · unfold ThreadSys.takeVictims
        simpa using htake
      · rw [hlen, List.length_cons]
        omega

/-- The inner loop does not run out of victims. -/
theorem sendLoop_isSome [DecidableEq T] (cur : T) (share k count : ℕ) (victims : List T) (h : k ≤ victims.length) :
    ∃ r, ThreadSys.sendLoop cur share k count victims = some r ∧ r.toSend ≤ k ∧ r.toSend ≤ r.victims.length := by
  induction k generalizing count victims with
  | zero => exact ⟨⟨0, victims, []⟩, rfl, le_rfl, Nat.zero_le _⟩
  | succ k ih =>
    unfold ThreadSys.sendLoop
    by_cases hcount : count < share
    · rw [if_pos hcount]
      cases victims with
      | nil => exact absurd h (by simp)
      | cons t ts =>
        rw [List.length_cons] at h
        by_cases ht : t = cur
        · obtain ⟨r, hr, hk, hlen⟩ := ih count (ts ++ [t]) (by simp; omega)
          exact ⟨r, by simp only [if_pos ht, hr], by omega, hlen⟩
        · obtain ⟨r, hr, hk, hlen⟩ := ih (count + 1) ts (by omega)
          exact ⟨{ r with sent := t :: r.sent }, by simp only [if_neg ht, hr, Option.map_some], hk.trans (Nat.le_succ k), hlen⟩
    · rw [if_neg hcount]
      exact ⟨⟨k + 1, victims, []⟩, rfl, le_rfl, h⟩

namespace Migration

variable {m : Migration T W n}

structure Inv (c : Fin n) (m : Migration T W n) : Prop where
  enough : (m.sys.cpu c).op.Enough (m.sys.cpu c).runqueue.length
  once : ((m.sys.cpu c).runqueue ++ (m.sys.cpu c).op.held).Nodup
  same : ∀ t ∈ (m.sys.cpu c).op.held, (t, (m.sys.thread t).tCpu) ∈ m.taken
  places : ∀ p ∈ m.placed, (p.2.1 ≠ c ∧ p.2.2 = p.2.1 ∧ p.1 ≠ (m.sys.cpu c).curthread) ∨
    (p.2.1 = c ∧ (p.1, p.2.2) ∈ m.taken)
  all : (m.taken.map Prod.fst).Perm ((m.sys.cpu c).op.held ++ m.placed.map Prod.fst)

/-- Only the counters of the call change. -/
theorem Inv.setOp (h : m.Inv c) {op : CpuOp T n} (hop : op.Enough (m.sys.cpu c).runqueue.length)
    (hheld : op.held = (m.sys.cpu c).op.held) : Inv c ⟨m.sys.setOp c op, m.taken, m.placed⟩ := by
  have hcpu : ((m.sys.setOp c op).cpu c) = { m.sys.cpu c with op := op } := by simp [ThreadSys.setOp]
  refine ⟨?_, ?_, ?_, ?_, ?_⟩ <;> simp only [hcpu, hheld]
  · exact hop
  · exact h.once
  · exact h.same
  · exact h.places
  · exact h.all

/-- A run queue that did not change has nothing new on it. -/
theorem newOn_setOp (s : ThreadSys T W n) (d : Fin n) (op : CpuOp T n) : s.newOn (s.setOp c op) d = [] := by
  have hq : ((s.setOp c op).cpu d).runqueue = (s.cpu d).runqueue := by
    by_cases hd : d = c <;> simp [ThreadSys.setOp, hd]
  simp [ThreadSys.newOn, hq]

theorem Inv.take (h : m.Inv c) {share k : ℕ} (hop : (m.sys.cpu c).op = .taking share k) :
    ∃ s', m.sys.migrateTake c share k = some s' ∧ (m.after c s').Inv c ∧
      ∃ victims, (s'.cpu c).op = .sending (List.finRange n) share k victims := by
  have hlen : k ≤ (m.sys.cpu c).runqueue.length := by
    have := h.enough
    rwa [hop] at this
  obtain ⟨queue, victims, htake, hk⟩ := takeVictims_isSome k _ [] hlen
  have hq : queue ++ victims = (m.sys.cpu c).runqueue := by simpa using ThreadSys.takeVictims_perm htake
  refine ⟨_, by rw [ThreadSys.migrateTake, htake, Option.map_some], ?_, victims, by simp⟩
  have hall := h.all
  have honce := h.once
  rw [hop] at hall honce
  simp only [CpuOp.held, List.nil_append, List.append_nil] at hall honce
  unfold after
  simp only [hop, ThreadSys.tookOff, ThreadSys.setCpu_cpu, if_true, CpuOp.held]
  refine ⟨?_, ?_, fun t ht => ?_, fun p hp => ?_, ?_⟩
  · simp [CpuOp.Enough, hk]
  · simpa [CpuOp.held, hq] using honce
  · simp only [ThreadSys.setCpu_cpu, if_true, CpuOp.held] at ht
    exact List.mem_append_right _ (List.mem_map.mpr ⟨t, ht, rfl⟩)
  · simp only [ThreadSys.setCpu_cpu, if_true]
    exact (h.places p hp).imp_right fun hp => ⟨hp.1, List.mem_append_left _ hp.2⟩
  · simp only [ThreadSys.setCpu_cpu, if_true, CpuOp.held, List.map_append, List.map_map]
    refine (List.perm_append_comm.trans (List.Perm.append ?_ hall))
    simp [Function.comp_def]

theorem Inv.putBack (h : m.Inv c) {share k : ℕ} {victims : List T} (hop : (m.sys.cpu c).op = .sending [] share k victims) :
    (m.after c (m.sys.migratePutBack c victims)).Inv c := by
  have hall := h.all
  have honce := h.once
  have hsame := h.same
  rw [hop] at hall honce hsame
  have hnew : m.sys.newOn (m.sys.migratePutBack c victims) c = victims.map fun t => (t, c, (m.sys.thread t).tCpu) := by
    simp [ThreadSys.newOn, ThreadSys.migratePutBack]
  unfold after
  simp only [hop, hnew]
  refine ⟨?_, ?_, fun t ht => ?_, fun p hp => ?_, ?_⟩
  · simp [ThreadSys.migratePutBack, CpuOp.Enough]
  · simpa [ThreadSys.migratePutBack, CpuOp.held] using honce
  · simp [ThreadSys.migratePutBack, CpuOp.held] at ht
  · rcases List.mem_append.mp hp with hp | hp
    · simpa [ThreadSys.migratePutBack] using h.places p hp
    · obtain ⟨t, ht, rfl⟩ := List.mem_map.mp hp
      exact Or.inr ⟨rfl, hsame t ht⟩
  · refine hall.trans (List.perm_append_comm.trans ?_)
    simp [ThreadSys.migratePutBack, CpuOp.held, Function.comp_def]

section
variable [DecidableEq T]

/-- Some victims go to another CPU. -/
theorem Inv.send (h : m.Inv c) {d : Fin n} {ds : List (Fin n)} {share k : ℕ} {victims : List T} {r : ThreadSys.Sent T}
    (hop : (m.sys.cpu c).op = .sending (d :: ds) share k victims) (hdc : d ≠ c)
    (hperm : victims.Perm (r.sent ++ r.victims)) (hcur : (m.sys.cpu c).curthread ∉ r.sent)
    (hlen : r.toSend ≤ r.victims.length) :
    (m.after c ((m.sys.setOp c (.sending ds share r.toSend r.victims)).enqueueSent d r.sent)).Inv c := by
  have hall := h.all
  have honce := h.once
  have hsame := h.same
  rw [hop] at hall honce hsame
  have hcpu : (((m.sys.setOp c (.sending ds share r.toSend r.victims)).enqueueSent d r.sent).cpu c) =
      { m.sys.cpu c with op := .sending ds share r.toSend r.victims } := by
    simp [ThreadSys.enqueueSent, ThreadSys.setOp, hdc.symm]
  have hnew : m.sys.newOn ((m.sys.setOp c (.sending ds share r.toSend r.victims)).enqueueSent d r.sent) d =
      r.sent.map fun t => (t, d, d) := by
    simp only [ThreadSys.newOn, ThreadSys.enqueueSent, ThreadSys.setOp, ThreadSys.setCpu_cpu, if_true, if_neg hdc,
      List.drop_left]
    refine List.map_congr_left fun t ht => ?_
    simp [ht]
  -- a thread is among the victims once, so those that stay have not been sent
  have hstay (t : T) (ht : t ∈ r.victims) : t ∉ r.sent := by
    have hnodup := hperm.nodup_iff.mp (List.nodup_append.mp honce).2.1
    exact fun hsent => (List.nodup_append.mp hnodup).2.2 t hsent t ht rfl
  unfold after
  simp only [hop, hnew]
  refine ⟨?_, ?_, fun t ht => ?_, fun p hp => ?_, ?_⟩
  · simpa only [hcpu, CpuOp.Enough] using hlen
  · simp only [hcpu, CpuOp.held]
    exact ((hperm.append_left _).nodup_iff.mp honce).sublist ((List.sublist_append_right r.sent r.victims).append_left _)
  · simp only [hcpu, CpuOp.held] at ht
    have hthread : ((m.sys.setOp c (.sending ds share r.toSend r.victims)).enqueueSent d r.sent).thread t =
        m.sys.thread t := if_neg (hstay t ht)
    simp only [hthread]
    exact hsame t (hperm.mem_iff.mpr (List.mem_append_right _ ht))
  · simp only [hcpu]
    rcases List.mem_append.mp hp with hp | hp
    · exact h.places p hp
    · obtain ⟨t, ht, rfl⟩ := List.mem_map.mp hp
      exact Or.inl ⟨hdc, rfl, fun heq => hcur (heq ▸ ht)⟩
  · simp only [hcpu, CpuOp.held, List.map_append, List.map_map, Function.comp_def, List.map_id']
    refine hall.trans ((hperm.append_right _).trans ?_)
    rw [List.append_assoc, ← List.append_assoc r.victims]
    exact List.perm_append_comm

variable [DecidableEq W]

omit [DecidableEq T] [DecidableEq W] in
@[simp] theorem after_sys (s' : ThreadSys T W n) : (m.after c s').sys = s' := by
  unfold after
  split <;> rfl

omit [DecidableEq T] [DecidableEq W] in
theorem advances_of {s' : ThreadSys T W n} {op op' : CpuOp T n} (hop : (m.sys.cpu c).op = op) (hop' : (s'.cpu c).op = op')
    (hleft : op'.left < op.left)
    (hexact : ∀ my total share k, op = .counting [] my total → op' = .taking share k → share + k = my)
    (hdown : ∀ k k', op.toSend = some k → op'.toSend = some k' → k' ≤ k) : m.Advances c (m.after c s') := by
  subst hop hop'
  exact ⟨by rwa [after_sys], by rwa [after_sys], by rwa [after_sys]⟩

omit [DecidableEq T] [DecidableEq W] in
theorem Inv.count (h : m.Inv c) {todo : List (Fin n)} {my total : ℕ} (hop : (m.sys.cpu c).op = .counting todo my total) :
    (m.after c (m.sys.migrateCount c todo my total)).Inv c ∧
      m.Advances c (m.after c (m.sys.migrateCount c todo my total)) := by
  have henough : my ≤ (m.sys.cpu c).runqueue.length := by
    have := h.enough
    rwa [hop] at this
  have hafter (s' : ThreadSys T W n) : m.after c s' = ⟨s', m.taken, m.placed⟩ := by
    unfold after
    rw [hop]
  unfold ThreadSys.migrateCount
  cases todo with
  | cons d ds =>
    constructor
    · rw [hafter]
      refine h.setOp ?_ (by rw [hop]; rfl)
      change (if d = c then _ else _) ≤ _
      split_ifs with hd
      · rw [hd]
      · exact henough
    · refine advances_of hop (by simp [ThreadSys.setOp]; rfl) ?_ (fun _ _ _ _ he => ?_) fun _ _ hk => ?_
      · simp [CpuOp.left]
      · cases he
      · cases hk
  | nil =>
    by_cases hshare : my < ThreadSys.divRoundUp total n
    · simp only [if_pos hshare]
      constructor
      · rw [hafter]
        exact h.setOp trivial (by rw [hop]; rfl)
      · refine advances_of hop (by simp [ThreadSys.setOp]; rfl) ?_ (fun _ _ _ _ _ he => ?_) fun _ _ hk => ?_
        · simp [CpuOp.left]
        · cases he
        · cases hk
    · simp only [if_neg hshare]
      constructor
      · rw [hafter]
        refine h.setOp ?_ (by rw [hop]; rfl)
        exact (Nat.sub_le _ _).trans henough
      · refine advances_of hop (by simp [ThreadSys.setOp]; rfl) ?_ (fun _ _ _ _ he he' => ?_) fun _ _ hk => ?_
        · simp [CpuOp.left]
        · cases he
          cases he'
          omega
        · cases hk

/-- The next section of the call is made, and it brings the end nearer. -/
theorem Inv.next (h : m.Inv c) (hop : (m.sys.cpu c).op ≠ .none) :
    ∃ s', threadStep m.sys (.migrateNext c) = some s' ∧ (m.after c s').Inv c ∧ m.Advances c (m.after c s') := by
  have henough := h.enough
  cases hcur : (m.sys.cpu c).op with
  | none => exact absurd hcur hop
  | exorcising =>
    rw [hcur] at henough
    exact henough.elim
  | waking _ =>
    rw [hcur] at henough
    exact henough.elim
  | counting todo my total => exact ⟨m.sys.migrateCount c todo my total, by simp only [threadStep, hcur], h.count hcur⟩
  | taking share k =>
    obtain ⟨s', hs', hinv, victims, hop'⟩ := h.take hcur
    refine ⟨s', by simp only [threadStep, hcur, hs'], hinv, advances_of hcur hop' ?_ (fun _ _ _ _ he => ?_) fun _ _ hk hk' => ?_⟩
    · simp [CpuOp.left]
    · cases he
    · cases hk
      cases hk'
      exact le_rfl
  | sending todo share k victims =>
    rw [hcur] at henough
    cases todo with
    | nil =>
      refine ⟨m.sys.migratePutBack c victims, by simp only [threadStep, hcur], h.putBack hcur,
        advances_of hcur (by simp [ThreadSys.migratePutBack]; rfl) ?_ (fun _ _ _ _ he => ?_) fun _ _ _ hk' => ?_⟩
      · simp [CpuOp.left]
      · cases he
      · cases hk'
    | cons d ds =>
      -- the victims stay, and the list of CPUs gets shorter
      have hkeep (todo : List (Fin n)) (hlt : todo.length ≤ ds.length) :
          (m.after c (m.sys.setOp c (.sending todo share k victims))).Inv c ∧
            m.Advances c (m.after c (m.sys.setOp c (.sending todo share k victims))) := by
        constructor
        · have hafter : m.after c (m.sys.setOp c (.sending todo share k victims)) =
              ⟨m.sys.setOp c (.sending todo share k victims), m.taken, m.placed⟩ := by
            unfold after
            simp only [hcur, newOn_setOp, List.append_nil]
          rw [hafter]
          exact h.setOp henough (by rw [hcur]; rfl)
        · refine advances_of hcur (by simp [ThreadSys.setOp]; rfl) ?_ (fun _ _ _ _ he => ?_) fun _ _ hk hk' => ?_
          · simp [CpuOp.left]
            omega
          · cases he
          · cases hk
            cases hk'
            exact le_rfl
      by_cases hk : k = 0
      · refine ⟨m.sys.setOp c (.sending [] share k victims), ?_, hkeep [] (Nat.zero_le _)⟩
        simp only [threadStep, hcur, ThreadSys.migrateSend, if_pos hk]
      by_cases hdc : d = c
      · refine ⟨m.sys.setOp c (.sending ds share k victims), ?_, hkeep ds le_rfl⟩
        simp only [threadStep, hcur, ThreadSys.migrateSend, if_neg hk, if_pos hdc]
      obtain ⟨r, hr, hle, hlen⟩ :=
        sendLoop_isSome (m.sys.cpu c).curthread share k (m.sys.cpu d).runqueue.length victims henough
      obtain ⟨hperm, hnot⟩ := ThreadSys.sendLoop_spec hr
      have hop' : (((m.sys.setOp c (.sending ds share r.toSend r.victims)).enqueueSent d r.sent).cpu c).op =
          .sending ds share r.toSend r.victims := by
        have hcd : c ≠ d := fun he => hdc he.symm
        simp [ThreadSys.enqueueSent, ThreadSys.setOp, hcd]
      refine ⟨(m.sys.setOp c (.sending ds share r.toSend r.victims)).enqueueSent d r.sent, ?_,
        h.send hcur hdc hperm hnot hlen, advances_of hcur hop' ?_ (fun _ _ _ _ he => ?_) fun _ _ hk hk' => ?_⟩
      · simp only [threadStep, hcur, ThreadSys.migrateSend, if_neg hk, if_neg hdc, hr, Option.map_some]
      · simp [CpuOp.left]
      · cases he
      · cases hk
        cases hk'
        exact hle

theorem Inv.right (h : m.Inv c) : m.Right c := by
  refine ⟨fun hop => ?_, h.places, h.all⟩
  obtain ⟨s', hs', -⟩ := h.next hop
  rw [hs']
  rfl

omit [DecidableEq W] in
/-- The other CPUs add to any run queue. -/
theorem Inv.addTo (h : m.Inv c) (d : Fin n) {t : T} (hheld : t ∉ (m.sys.cpu c).op.held)
    (hqueue : t ∉ (m.sys.cpu c).runqueue) : Inv c { m with sys := m.sys.addTo d t } := by
  have hop : ((m.sys.addTo d t).cpu c).op = (m.sys.cpu c).op := by
    by_cases hd : c = d <;> simp [ThreadSys.addTo, hd]
  have hcur : ((m.sys.addTo d t).cpu c).curthread = (m.sys.cpu c).curthread := by
    by_cases hd : c = d <;> simp [ThreadSys.addTo, hd]
  have hq : ((m.sys.addTo d t).cpu c).runqueue = (m.sys.cpu c).runqueue ∨
      ((m.sys.addTo d t).cpu c).runqueue = (m.sys.cpu c).runqueue ++ [t] := by
    by_cases hd : c = d <;> simp [ThreadSys.addTo, hd]
  refine ⟨?_, ?_, fun u hu => ?_, fun p hp => ?_, ?_⟩
  · rw [hop]
    refine h.enough.mono ?_
    rcases hq with hq | hq <;> simp [hq]
  · rw [hop]
    rcases hq with hq | hq
    · rw [hq]
      exact h.once
    · rw [hq, List.append_assoc, List.singleton_append, List.nodup_middle, List.nodup_cons]
      exact ⟨fun hmem => (List.mem_append.mp hmem).elim hqueue hheld, h.once⟩
  · rw [hop] at hu
    have hne : u ≠ t := fun he => hheld (he ▸ hu)
    have hthread : (m.sys.addTo d t).thread u = m.sys.thread u := Function.update_of_ne hne ..
    simp only [hthread]
    exact h.same u hu
  · simp only [hcur]
    exact h.places p hp
  · simp only [hop]
    exact h.all

omit [DecidableEq T] [DecidableEq W] in
theorem Inv.removeFrom (h : m.Inv c) {d : Fin n} (hdc : d ≠ c) (i : ℕ) : Inv c { m with sys := m.sys.removeFrom d i } := by
  have hcpu : ((m.sys.removeFrom d i).cpu c) = m.sys.cpu c := by
    simp [ThreadSys.removeFrom, hdc.symm]
  refine ⟨?_, ?_, ?_, ?_, ?_⟩ <;> simp only [hcpu]
  · exact h.enough
  · exact h.once
  · exact h.same
  · exact h.places
  · exact h.all

theorem migrationStep_inv {e : MigrationEv T n} {m' : Migration T W n} (h : m.Inv c) (hs : migrationStep c m e = some m') :
    m'.Inv c ∧ (e = .next → m.Advances c m') := by
  cases e with
  | next =>
    have hop : (m.sys.cpu c).op ≠ .none := by
      intro hop
      simp [migrationStep, threadStep, hop] at hs
    obtain ⟨s', hs', hinv, hadv⟩ := h.next hop
    simp only [migrationStep, hs', Option.map_some, Option.some.injEq] at hs
    subst hs
    exact ⟨hinv, fun _ => hadv⟩
  | add d t =>
    simp only [migrationStep] at hs
    split_ifs at hs with hlist
    obtain rfl := Option.some.inj hs
    rw [not_or, not_exists] at hlist
    exact ⟨h.addTo d hlist.1 (hlist.2 c), fun he => by cases he⟩
  | remove d i =>
    simp only [migrationStep] at hs
    split_ifs at hs with hdc
    obtain rfl := Option.some.inj hs
    exact ⟨h.removeFrom hdc i, fun he => by cases he⟩

end

end Migration

variable [DecidableEq T] [DecidableEq W]

/-- From every distribution of threads and with every interleaving: no section meets an
empty list, every section brings the end nearer, and every thread that was taken goes to
another CPU, or back as it was. -/
theorem migration_right (c : Fin n) (s : ThreadSys T W n) (honce : (s.cpu c).runqueue.Nodup) (evs : List (MigrationEv T n)) :
    AllStates (migrationStep c) (fun m => m.Right c) (Migration.enter c s) evs ∧
      AllSteps (migrationStep c) (fun m e => ∀ m', migrationStep c m e = some m' → e = .next → m.Advances c m')
        (Migration.enter c s) evs := by
  have hinit : (Migration.enter c s).Inv c := by
    have hcpu : (s.setOp c (.counting (List.finRange n) 0 0)).cpu c =
        { s.cpu c with op := .counting (List.finRange n) 0 0 } := by simp [ThreadSys.setOp]
    refine ⟨?_, ?_, fun t ht => ?_, fun p hp => ?_, ?_⟩ <;> simp only [Migration.enter, hcpu] at *
    · exact Nat.zero_le _
    · simpa [CpuOp.held] using honce
    · exact absurd ht List.not_mem_nil
    · exact absurd hp List.not_mem_nil
    · exact List.Perm.refl []
  refine ⟨(allStates_of_step (fun m e m' h hs => (Migration.migrationStep_inv h hs).1) hinit evs).mono fun m h => h.right, ?_⟩
  refine allSteps_of_step (I := Migration.Inv c) (fun m e m' h hs => ⟨fun m'' hs'' => ?_, ?_⟩) hinit evs
  · exact (Migration.migrationStep_inv h hs'').2
  · exact (Migration.migrationStep_inv h hs).1

/-- Two ready threads on the first of two CPUs. -/
def twoReady : ThreadSys ℕ Unit 2 where
  cpu c := { curthread := c, isidle := false, runqueue := if c = 0 then [10, 11] else [], zombies := [], op := .none }
  thread t := ⟨.ready, if t = 1 then 1 else 0⟩
  wchan _ := []
  live _ := true

/-- One of them goes to the other CPU. -/
theorem migration_right_two : (twoReady.cpu 0).runqueue.Nodup ∧
    (exec (migrationStep 0) (Migration.enter 0 twoReady) (List.replicate 7 .next)).map Migration.placed =
      some [(11, 1, 1)] ∧
    AllStates (migrationStep 0) (fun m => m.Right 0) (Migration.enter 0 twoReady) (List.replicate 7 .next) :=
  ⟨by decide, by decide +kernel, (migration_right 0 twoReady (by decide) _).1⟩

end Os161
