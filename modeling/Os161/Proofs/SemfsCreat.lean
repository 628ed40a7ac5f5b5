import Os161.Spec.SemfsCreat

/-! `semfs_creat` under every choice of failing allocations. Each label takes back just what
was done above it, so a call that fails leaves the directory, the tables and the heap as they
were. Two things go wrong once a semaphore has been made. The assertion in `semfs_sem_insert`
passes for the creator of `semfs_tablelock` only. And `result` is still 0 when there is no
memory for the directory entry, so that the call takes everything back and returns success. -/

namespace Os161

/-! ### Objects -/

section
variable {okay : ℕ → Bool} {b : Blocks} {c : Prop} {E : Errno → Blocks → Prop}

/-- What an object of `n` blocks that was not made leaves: nothing. -/
def Blocks.Missed (okay : ℕ → Bool) (n : ℕ) (b b' : Blocks) : Prop :=
  b'.live = b.live ∧ ¬ Blocks.AllGot okay b.tries n

theorem kmallocNamed_wp {Q : Option (ℕ × ℕ) → Blocks → Prop}
    (hnone : ∀ b', Blocks.Missed okay 2 b b' → Q none b')
    (hsome : ∀ object name, Blocks.AllGot okay b.tries 2 →
      Q (some (object, name)) ⟨name :: object :: b.live, b.next + 2, b.tries + 2⟩) :
    (kmallocNamed okay).wp c Q E b := by
  unfold kmallocNamed
  rw [Op.wp_bind]
  refine Blocks.alloc_wp (fun h0 => ?_) fun h0 => ?_
  · exact hnone _ ⟨rfl, fun h => by simpa [h0] using h 0 (by omega)⟩
  dsimp only
  rw [Op.wp_bind]
  refine Blocks.alloc_wp (fun h1 => ?_) fun h1 => ?_
  · dsimp only
    rw [Op.wp_bind]
    exact Blocks.free_wp rfl (hnone _ ⟨rfl, fun h => by simpa [h1] using h 1 (by omega)⟩)
  · refine hsome _ _ ?_
    rw [Blocks.allGot_succ, Blocks.allGot_succ]
    exact ⟨⟨Blocks.AllGot.zero okay _, h0⟩, h1⟩

theorem lockBlocks_create_wp {Q : Option LockBlocks → Blocks → Prop}
    (hnone : ∀ b', Blocks.Missed okay 3 b b' → Q none b')
    (hsome : ∀ lock : LockBlocks, Blocks.AllGot okay b.tries 3 →
      Q (some lock) ⟨lock.wchan :: lock.name :: lock.lock :: b.live, b.next + 3, b.tries + 3⟩) :
    (LockBlocks.create okay).wp c Q E b := by
  unfold LockBlocks.create
  rw [Op.wp_bind]
  refine kmallocNamed_wp (fun b' hb => ?_) fun lock name hgot => ?_
  · exact hnone b' ⟨hb.1, fun h => hb.2 (Blocks.allGot_succ.mp h).1⟩
  dsimp only
  rw [Op.wp_bind]
  refine Blocks.alloc_wp (fun h2 => ?_) fun h2 => ?_
  · dsimp only
    rw [Op.wp_bind]
    refine Blocks.free_wp rfl ?_
    rw [Op.wp_bind]
    exact Blocks.free_wp rfl (hnone _ ⟨rfl, fun h => by simpa [h2] using h 2 (by omega)⟩)
  · exact hsome ⟨_, _, _⟩ (Blocks.allGot_succ.mpr ⟨hgot, h2⟩)

theorem lockBlocks_destroy_wp {Q : Unit → Blocks → Prop} {lock : LockBlocks} {l : List ℕ}
    (hlive : b.live = lock.wchan :: lock.name :: lock.lock :: l) (hQ : Q () { b with live := l }) :
    lock.destroy.wp c Q E b := by
  unfold LockBlocks.destroy
  rw [Op.wp_bind]
  refine Blocks.free_wp hlive ?_
  rw [Op.wp_bind]
  refine Blocks.free_wp rfl ?_
  exact Blocks.free_wp rfl hQ

theorem cvBlocks_create_wp {Q : Option CvBlocks → Blocks → Prop}
    (hnone : ∀ b', Blocks.Missed okay 2 b b' → Q none b')
    (hsome : ∀ cv : CvBlocks, Blocks.AllGot okay b.tries 2 →
      Q (some cv) ⟨cv.name :: cv.cv :: b.live, b.next + 2, b.tries + 2⟩) :
    (CvBlocks.create okay).wp c Q E b := by
  unfold CvBlocks.create
  rw [Op.wp_bind]
  exact kmallocNamed_wp hnone fun cv name hgot => hsome ⟨cv, name⟩ hgot

theorem cvBlocks_destroy_wp {Q : Unit → Blocks → Prop} {cv : CvBlocks} {l : List ℕ}
    (hlive : b.live = cv.name :: cv.cv :: l) (hQ : Q () { b with live := l }) : cv.destroy.wp c Q E b := by
  unfold CvBlocks.destroy
  rw [Op.wp_bind]
  refine Blocks.free_wp hlive ?_
  exact Blocks.free_wp rfl hQ

/-- The blocks of a semaphore, the newest first. -/
def SemBox.blocks (sem : SemBox) : List ℕ :=
  [sem.cv.name, sem.cv.cv, sem.lock.wchan, sem.lock.name, sem.lock.lock, sem.block]

theorem semfsSemCreate_wp {Q : Option SemBox → Blocks → Prop}
    (hnone : ∀ b', Blocks.Missed okay 6 b b' → Q none b')
    (hsome : ∀ sem : SemBox, sem.hasvnode = false → Blocks.AllGot okay b.tries 6 →
      Q (some sem) ⟨sem.blocks ++ b.live, b.next + 6, b.tries + 6⟩) :
    (semfsSemCreate okay).wp c Q E b := by
  unfold semfsSemCreate
  rw [Op.wp_bind]
  refine Blocks.alloc_wp (fun h0 => ?_) fun h0 => ?_
  · exact hnone _ ⟨rfl, fun h => by simpa [h0] using h 0 (by omega)⟩
  have hone : Blocks.AllGot okay b.tries 1 := by
    rw [Blocks.allGot_succ]
    exact ⟨Blocks.AllGot.zero okay _, h0⟩
  dsimp only
  rw [Op.wp_bind]
  refine lockBlocks_create_wp (fun b' hb => ?_) fun lock hlock => ?_
  · -- the first `1 + 3` of the six
    dsimp only
    rw [Op.wp_bind]
    refine Blocks.free_wp hb.1 (hnone _ ⟨rfl, fun h => hb.2 fun k hk => ?_⟩)
    have := h (1 + k) (by omega)
    rwa [← Nat.add_assoc] at this
  have hfour : Blocks.AllGot okay b.tries (1 + 3) := Blocks.allGot_add.mpr ⟨hone, hlock⟩
  dsimp only
  rw [Op.wp_bind]
  refine cvBlocks_create_wp (fun b' hb => ?_) fun cv hcv => ?_
  · dsimp only
    rw [Op.wp_bind]
    refine lockBlocks_destroy_wp hb.1 ?_
    rw [Op.wp_bind]
    refine Blocks.free_wp rfl (hnone _ ⟨rfl, fun h => hb.2 ?_⟩)
    exact (Blocks.allGot_add.mp (show Blocks.AllGot okay b.tries (4 + 2) from h)).2
  · exact hsome ⟨_, _, _, _, _⟩ rfl (Blocks.allGot_add.mpr ⟨hfour, hcv⟩)

theorem semfsSemDestroy_wp {Q : Unit → Blocks → Prop} {sem : SemBox} {l : List ℕ}
    (hlive : b.live = sem.blocks ++ l) (hQ : Q () { b with live := l }) : (semfsSemDestroy sem).wp c Q E b := by
  unfold semfsSemDestroy
  rw [Op.wp_bind]
  refine cvBlocks_destroy_wp hlive ?_
  rw [Op.wp_bind]
  refine lockBlocks_destroy_wp rfl ?_
  exact Blocks.free_wp rfl hQ

theorem semfsDirentryCreate_wp {Q : Option SemDent → Blocks → Prop} {name : List UInt8} {semnum : ℕ}
    (hnone : ∀ b', Blocks.Missed okay 2 b b' → Q none b')
    (hsome : ∀ dent : SemDent, dent.name = name → dent.semnum = semnum → Blocks.AllGot okay b.tries 2 →
      Q (some dent) ⟨dent.nameBlock :: dent.block :: b.live, b.next + 2, b.tries + 2⟩) :
    (semfsDirentryCreate okay name semnum).wp c Q E b := by
  unfold semfsDirentryCreate
  rw [Op.wp_bind]
  exact kmallocNamed_wp hnone fun dent copy hgot => hsome ⟨dent, copy, name, semnum⟩ rfl rfl hgot

theorem semfsDirentryDestroy_wp {Q : Unit → Blocks → Prop} {dent : SemDent} {l : List ℕ}
    (hlive : b.live = dent.nameBlock :: dent.block :: l) (hQ : Q () { b with live := l }) :
    (semfsDirentryDestroy dent).wp c Q E b := by
  unfold semfsDirentryDestroy
  rw [Op.wp_bind]
  refine Blocks.free_wp hlive ?_
  exact Blocks.free_wp rfl hQ

/-- The attempts of `array_preallocate`. -/
def growTries (num max : ℕ) : ℕ := if max < num then 1 else 0

theorem arrayPreallocate_wp {Q : Option ℕ → Blocks → Prop} {num max : ℕ}
    (hnone : ∀ b', Blocks.Missed okay (growTries num max) b b' → Q none b')
    (hsome : ∀ newmax, Blocks.AllGot okay b.tries (growTries num max) →
      Q (some newmax) { b with tries := b.tries + growTries num max }) :
    (arrayPreallocate okay num max).wp c Q E b := by
  unfold arrayPreallocate
  unfold growTries at hnone hsome
  rw [Op.wp_ite]
  refine ⟨fun hlt => ?_, fun hle => ?_⟩
  · simp only [Op.wp_bind, Op.wp_get, Op.wp_set, Op.wp_pure]
    rw [if_pos hlt] at hnone hsome
    by_cases h0 : okay b.tries = true
    · rw [if_pos h0]
      refine hsome _ ?_
      rw [Blocks.allGot_succ]
      exact ⟨Blocks.AllGot.zero okay _, h0⟩
    · rw [if_neg h0]
      exact hnone _ ⟨rfl, fun h => h0 (h 0 (by omega))⟩
  · rw [if_neg hle] at hsome
    exact hsome max (Blocks.AllGot.zero okay _)

end

/-! ### Locks and tables -/

/-- No attempt from `b` to `b'` failed. -/
def Blocks.Fine (okay : ℕ → Bool) (b b' : Blocks) : Prop :=
  b.tries ≤ b'.tries ∧ ∀ k, b.tries ≤ k → k < b'.tries → okay k = true

theorem Blocks.Fine.of_got {okay : ℕ → Bool} {b b' : Blocks} {n : ℕ} (hgot : Blocks.AllGot okay b.tries n)
    (htries : b'.tries = b.tries + n) : Blocks.Fine okay b b' := by
  refine ⟨by omega, fun k hge hlt => ?_⟩
  have := hgot (k - b.tries) (by omega)
  rwa [Nat.add_sub_cancel' hge] at this

theorem Blocks.Fine.trans {okay : ℕ → Bool} {b b' b'' : Blocks} (h : Blocks.Fine okay b b')
    (h' : Blocks.Fine okay b' b'') : Blocks.Fine okay b b'' := by
  refine ⟨h.1.trans h'.1, fun k hge hlt => ?_⟩
  rcases Nat.lt_or_ge k b'.tries with hk | hk
  · exact h.2 k hge hk
  · exact h'.2 k hk hlt

section
variable {T : Type} {cur : T} {l : Lock T}

theorem lockRelease_lockAcquire (hl : l.gate = ⟨1, [], []⟩) : lockRelease (lockAcquire l cur) = some l := by
  obtain ⟨thread, gate⟩ := l
  obtain rfl : gate = ⟨1, [], []⟩ := hl
  rfl

theorem lockDoIHold_lockAcquire [DecidableEq T] (hl : l.gate = ⟨1, [], []⟩) :
    lockDoIHold (lockAcquire l cur) cur = true ↔ cur = l.lockThread := by
  obtain ⟨thread, gate⟩ := l
  obtain rfl : gate = ⟨1, [], []⟩ := hl
  simp [lockDoIHold, lockAcquire, Lock.lockCount, Gate.test]

variable {okay : ℕ → Bool} {c : Prop} {s t : SemfsFs T}

theorem releaseDir_wp {Q : Unit → SemfsFs T → Prop} {E : Errno → SemfsFs T → Prop} (hl : l.gate = ⟨1, [], []⟩)
    (ht : t.dirlock = lockAcquire l cur) (hQ : Q () { t with dirlock := l }) : releaseDir.wp c Q E t := by
  unfold releaseDir
  rw [Op.wp_bind, Op.wp_get, ht, lockRelease_lockAcquire hl]
  exact hQ

theorem releaseTable_wp {Q : Unit → SemfsFs T → Prop} {E : Errno → SemfsFs T → Prop} (hl : l.gate = ⟨1, [], []⟩)
    (ht : t.tablelock = lockAcquire l cur) (hQ : Q () { t with tablelock := l }) : releaseTable.wp c Q E t := by
  unfold releaseTable
  rw [Op.wp_bind, Op.wp_get, ht, lockRelease_lockAcquire hl]
  exact hQ

/-- The end of an array is its first hole if it has no other. -/
theorem append_eq_setSlot {α : Type} {l : List (Option α)} (h : ¬ firstHole l < l.length) (a : α) :
    l ++ [some a] = setSlot l (firstHole l) a := by
  unfold setSlot
  rw [if_neg h]

theorem semfsSemInsert_wp [DecidableEq T] {Q : ℕ → SemfsFs T → Prop} {E : Errno → SemfsFs T → Prop} {sem : SemBox}
    (hl : l.gate = ⟨1, [], []⟩) (ht : t.tablelock = lockAcquire l cur) (hpanic : cur ≠ l.lockThread → c)
    (hE : cur = l.lockThread → ∀ e h', h'.live = t.heap.live →
      (t.sems.length = semfsRootdir ∨ ¬ Blocks.AllGot okay t.heap.tries t.slotTries) → E e { t with heap := h' })
    (hQ : cur = l.lockThread → t.sems.length ≠ semfsRootdir → Blocks.AllGot okay t.heap.tries t.slotTries →
      ∀ max, Q (firstHole t.sems) { t with
        sems := setSlot t.sems (firstHole t.sems) sem
        semsMax := max
        heap := { t.heap with tries := t.heap.tries + t.slotTries } }) :
    (semfsSemInsert okay cur sem).wp c Q E t := by
  have hhold : lockDoIHold t.tablelock cur = true ↔ cur = l.lockThread := by
    rw [ht]
    exact lockDoIHold_lockAcquire hl
  unfold semfsSemInsert
  rw [Op.wp_bind, Op.wp_get, Op.wp_bind, Op.wp_kassert_cases, hhold]
  refine ⟨fun hcur => ?_, hpanic⟩
  rw [Op.wp_ite]
  refine ⟨fun hfull => hE hcur .enospc t.heap rfl (Or.inl hfull), fun hroom => ?_⟩
  rw [Op.wp_ite]
  refine ⟨fun hhole => ?_, fun hhole => ?_⟩
  · have htries : t.slotTries = 0 := if_pos hhole
    rw [htries] at hQ
    exact hQ hcur hroom (Blocks.AllGot.zero okay _) t.semsMax
  · have htries : t.slotTries = growTries (t.sems.length + 1) t.semsMax := if_neg hhole
    rw [htries] at hQ hE
    rw [Op.wp_bind, onHeap, Op.wp_zoom]
    refine arrayPreallocate_wp (fun h' hmiss => ?_) fun max hgot => ?_
    · exact hE hcur .enomem h' hmiss.1 (Or.inr hmiss.2)
    · have hend : firstHole t.sems = t.sems.length := le_antisymm (firstHole_le _) (Nat.le_of_not_lt hhole)
      have := hQ hcur hroom hgot max
      rw [← append_eq_setSlot hhole, hend] at this
      exact this

theorem addDent_wp {Q : Option Unit → SemfsFs T → Prop} {E : Errno → SemfsFs T → Prop} {dent : SemDent} {empty : ℕ}
    (hempty : empty = firstHole t.dents)
    (hnone : ∀ h', h'.live = t.heap.live → Q none { t with heap := h' })
    (hsome : ∀ max h', h'.live = t.heap.live → Blocks.Fine okay t.heap h' →
      Q (some ()) { t with
        dents := setSlot t.dents (firstHole t.dents) dent
        dentsMax := max
        heap := h' }) :
    (addDent okay empty dent).wp c Q E t := by
  subst hempty
  unfold addDent
  rw [Op.wp_bind, Op.wp_get, Op.wp_ite]
  refine ⟨fun _ => ?_, fun hhole => ?_⟩
  · exact hsome t.dentsMax t.heap rfl (Blocks.Fine.of_got (Blocks.AllGot.zero okay _) rfl)
  · rw [Op.wp_bind, onHeap, Op.wp_zoom]
    refine arrayPreallocate_wp (fun h' hmiss => hnone h' hmiss.1) fun max hgot => ?_
    have := hsome max { t.heap with tries := t.heap.tries + growTries (t.dents.length + 1) t.dentsMax } rfl
      (Blocks.Fine.of_got hgot rfl)
    rw [← append_eq_setSlot hhole] at this
    exact this

/-- What a `semfs_getvnode` that gives `vn` has done. -/
structure GotVn (okay : ℕ → Bool) (semnum vn : ℕ) (t t' : SemfsFs T) : Prop where
  dirlock : t'.dirlock = t.dirlock
  dents : t'.dents = t.dents
  vnode : ∃ v ∈ t'.vnodes, v.block = vn ∧ v.semnum = semnum ∧ 0 < v.refcount
  fine : Blocks.Fine okay t.heap t'.heap

theorem semfsGetvnode_wp {Q : ℕ → SemfsFs T → Prop} {E : Errno → SemfsFs T → Prop} {semnum : ℕ}
    (hl : t.tablelock.gate = ⟨1, [], []⟩)
    (hsem : (∀ v ∈ t.vnodes, v.semnum ≠ semnum) → ∃ o, slotAt t.sems semnum = some o ∧ o.hasvnode = false)
    (hE : ∀ h', h'.live = t.heap.live → E .enomem { t with heap := h' })
    (hQ : ∀ vn t', GotVn okay semnum vn t t' → Q vn t') :
    (semfsGetvnode okay cur semnum).wp c Q E t := by
  unfold semfsGetvnode
  rw [Op.wp_bind]
  unfold acquireTable
  rw [Op.wp_modify, Op.wp_bind, Op.wp_get]
  cases hfind : t.vnodes.findIdx? fun v => v.semnum = semnum with
  | some i =>
    obtain ⟨hi, hv, -⟩ := List.findIdx?_eq_some_iff_getElem.mp hfind
    simp only [Op.wp_bind, Op.wp_set]
    refine releaseTable_wp hl rfl (hQ _ _ ⟨rfl, rfl, ?_, Blocks.Fine.of_got (Blocks.AllGot.zero okay _) rfl⟩)
    refine ⟨{ t.vnodes[i] with refcount := t.vnodes[i].refcount + 1 }, ?_, ?_, by simpa using hv, Nat.succ_pos _⟩
    · refine List.mem_iff_getElem?.mpr ⟨i, ?_⟩
      rw [List.getElem?_modify_eq, List.getElem?_eq_getElem hi]
      rfl
    · simp [List.getElem?_eq_getElem hi]
  | none =>
    have hno : ∀ v ∈ t.vnodes, v.semnum ≠ semnum := by simpa using hfind
    obtain ⟨o, ho, hhas⟩ := hsem hno
    simp only [Op.wp_bind]
    rw [onHeap, Op.wp_zoom]
    refine Blocks.alloc_wp (fun _ => ?_) fun hgot => ?_
    · dsimp only
      rw [Op.wp_bind]
      exact releaseTable_wp hl rfl (hE _ rfl)
    have hone : Blocks.AllGot okay t.heap.tries 1 := Blocks.allGot_succ.mpr ⟨Blocks.AllGot.zero okay _, hgot⟩
    dsimp only
    rw [Op.wp_bind, onHeap, Op.wp_zoom]
    refine arrayPreallocate_wp (fun h' hmiss => ?_) fun max hgrow => ?_
    · dsimp only
      rw [Op.wp_bind, onHeap, Op.wp_zoom]
      refine Blocks.free_wp hmiss.1 ?_
      rw [Op.wp_bind]
      exact releaseTable_wp hl rfl (hE _ rfl)
    · simp only [Op.wp_bind, Op.wp_modify]
      have hfine : Blocks.Fine okay t.heap ⟨t.heap.next :: t.heap.live, t.heap.next + 1,
          t.heap.tries + 1 + growTries (t.vnodes.length + 1) t.vnodesMax⟩ :=
        Blocks.Fine.of_got (Blocks.allGot_add.mpr ⟨hone, hgrow⟩) (Nat.add_assoc _ _ _)
      have hnew : ∃ v ∈ t.vnodes ++ [(⟨t.heap.next, semnum, 1⟩ : SemVn)],
          v.block = t.heap.next ∧ v.semnum = semnum ∧ 0 < v.refcount :=
        ⟨⟨t.heap.next, semnum, 1⟩, by simp, rfl, rfl, Nat.one_pos⟩
      rw [Op.wp_ite]
      refine ⟨fun _ => ?_, fun _ => ?_⟩
      · rw [Op.wp_bind]
        exact releaseTable_wp hl rfl (hQ _ _ ⟨rfl, rfl, hnew, hfine⟩)
      · rw [ho]
        dsimp only
        rw [Op.wp_bind, Op.wp_kassert_of hhas, Op.wp_bind, Op.wp_modify, Op.wp_bind]
        exact releaseTable_wp hl rfl (hQ _ _ ⟨rfl, rfl, hnew, hfine⟩)

/-! ### The labels -/

/-- How far a call has come since `s`: the blocks that are out, the number that its semaphore
has and the slot of its directory entry. -/
structure Made (cur : T) (s t : SemfsFs T) (blocks : List ℕ) (semnum empty : Option ℕ) : Prop where
  dirlock : t.dirlock = lockAcquire s.dirlock cur
  tablelock : t.tablelock = s.tablelock
  vnodes : t.vnodes = s.vnodes
  dents : ∀ i, empty ≠ some i → slotAt t.dents i = slotAt s.dents i
  empty : ∀ i, empty = some i → slotAt s.dents i = none
  sems : ∀ n, semnum ≠ some n → slotAt t.sems n = slotAt s.sems n
  semnum : ∀ n, semnum = some n → slotAt s.sems n = none
  live : t.heap.live = blocks ++ s.heap.live

section
variable {Q : Option ℕ → SemfsFs T → Prop} {E : Errno → SemfsFs T → Prop} {result : Option Errno} {sem : SemBox}
  {semnum empty : ℕ} {dent : SemDent}

theorem failUnlock_wp (hs : s.Good) (h : Made cur s t [] none none)
    (hnone : result = none → ∀ s', s.Unchanged s' → Q none s')
    (hsome : ∀ e, result = some e → ∀ s', s.Unchanged s' → E e s') : (failUnlock result).wp c Q E t := by
  unfold failUnlock
  rw [Op.wp_bind]
  refine releaseDir_wp hs.dirlock h.dirlock ?_
  have hback : s.Unchanged { t with dirlock := s.dirlock } :=
    ⟨fun i => h.dents i (by simp), fun n => h.sems n (by simp), h.vnodes, h.live⟩
  cases result with
  | none => exact hnone rfl _ hback
  | some e => exact hsome e rfl _ hback

theorem failUncreate_wp (hs : s.Good) (h : Made cur s t sem.blocks none none)
    (hnone : result = none → ∀ s', s.Unchanged s' → Q none s')
    (hsome : ∀ e, result = some e → ∀ s', s.Unchanged s' → E e s') : (failUncreate sem result).wp c Q E t := by
  unfold failUncreate
  rw [Op.wp_bind, onHeap, Op.wp_zoom]
  refine semfsSemDestroy_wp h.live ?_
  exact failUnlock_wp hs ⟨h.dirlock, h.tablelock, h.vnodes, h.dents, h.empty, h.sems, h.semnum, rfl⟩ hnone hsome

theorem failUninsert_wp (hs : s.Good) (h : Made cur s t sem.blocks (some semnum) none)
    (hnone : result = none → ∀ s', s.Unchanged s' → Q none s')
    (hsome : ∀ e, result = some e → ∀ s', s.Unchanged s' → E e s') :
    (failUninsert cur sem semnum result).wp c Q E t := by
  unfold failUninsert
  rw [Op.wp_bind]
  unfold acquireTable
  rw [Op.wp_modify, Op.wp_bind, Op.wp_modify, Op.wp_bind]
  have hfree : t.tablelock.gate = ⟨1, [], []⟩ := h.tablelock ▸ hs.tablelock
  refine releaseTable_wp hfree rfl ?_
  refine failUncreate_wp hs ⟨h.dirlock, h.tablelock, h.vnodes, h.dents, h.empty, fun n _ => ?_, by simp, h.live⟩
    hnone hsome
  -- the slot was a hole before
  rw [slotAt_clearSlot]
  split_ifs with hn
  · exact (h.semnum n (by rw [hn])).symm
  · exact h.sems n fun heq => hn (Option.some.inj heq).symm

theorem failUndent_wp (hs : s.Good)
    (h : Made cur s t (dent.nameBlock :: dent.block :: sem.blocks) (some semnum) none)
    (hnone : result = none → ∀ s', s.Unchanged s' → Q none s')
    (hsome : ∀ e, result = some e → ∀ s', s.Unchanged s' → E e s') :
    (failUndent cur sem semnum dent result).wp c Q E t := by
  unfold failUndent
  rw [Op.wp_bind, onHeap, Op.wp_zoom]
  refine semfsDirentryDestroy_wp h.live ?_
  exact failUninsert_wp hs ⟨h.dirlock, h.tablelock, h.vnodes, h.dents, h.empty, h.sems, h.semnum, rfl⟩ hnone hsome

theorem failUndir_wp (hs : s.Good)
    (h : Made cur s t (dent.nameBlock :: dent.block :: sem.blocks) (some semnum) (some empty))
    (hnone : result = none → ∀ s', s.Unchanged s' → Q none s')
    (hsome : ∀ e, result = some e → ∀ s', s.Unchanged s' → E e s') :
    (failUndir cur sem semnum dent empty result).wp c Q E t := by
  unfold failUndir
  rw [Op.wp_bind, Op.wp_modify]
  refine failUndent_wp hs ⟨h.dirlock, h.tablelock, h.vnodes, fun i _ => ?_, by simp, h.sems, h.semnum, h.live⟩
    hnone hsome
  rw [slotAt_clearSlot]
  split_ifs with hi
  · exact (h.empty i (by rw [hi])).symm
  · exact h.dents i fun heq => hi (Option.some.inj heq).symm

/-! ### `semfs_creat` -/

theorem creatVnode_wp {name : List UInt8} (hs : s.Good)
    (h : Made cur s t (dent.nameBlock :: dent.block :: sem.blocks) (some semnum) (some empty))
    (hsem : slotAt t.sems semnum = some sem) (hhas : sem.hasvnode = false)
    (hdent : some dent ∈ t.dents ∧ dent.name = name ∧ dent.semnum = semnum)
    (hE : ∀ e s', s.Unchanged s' → E e s')
    (hQ : ∀ vn s', s'.Gives name vn → Blocks.Fine okay t.heap s'.heap → Q (some vn) s') :
    (creatVnode okay cur sem semnum dent empty).wp c Q E t := by
  unfold creatVnode
  have hfree : t.tablelock.gate = ⟨1, [], []⟩ := h.tablelock ▸ hs.tablelock
  rw [Op.wp_bind, Op.wp_attempt]
  refine semfsGetvnode_wp hfree (fun _ => ⟨sem, hsem, hhas⟩) (fun h' hlive => ?_) fun vn t' hgot => ?_
  · refine failUndir_wp hs ⟨h.dirlock, h.tablelock, h.vnodes, h.dents, h.empty, h.sems, h.semnum, ?_⟩ (by simp)
      fun e _ => hE e
    exact hlive.trans h.live
  · dsimp only
    rw [Op.wp_bind, Op.wp_modify, Op.wp_bind]
    refine releaseDir_wp hs.dirlock (hgot.dirlock.trans h.dirlock) (hQ vn _ ?_ hgot.fine)
    obtain ⟨v, hv, hblock, hnum, href⟩ := hgot.vnode
    exact ⟨dent, v, by simpa [hgot.dents] using hdent.1, hdent.2.1, hv, hblock, hnum.trans hdent.2.2.symm, href⟩

/-- With the number in the table. `*resultvn` is not set just if the entry is not made. -/
theorem creatDent_wp {name : List UInt8} (hs : s.Good) (h : Made cur s t sem.blocks (some semnum) none)
    (hdents : t.dents = s.dents) (hsem : slotAt t.sems semnum = some sem)
    (hhas : sem.hasvnode = false) (hE : Blocks.AllGot okay t.heap.tries 2 → ∀ e s', s.Unchanged s' → E e s')
    (hnone : ¬ Blocks.AllGot okay t.heap.tries 2 → ∀ s', s.Unchanged s' → Q none s')
    (hQ : Blocks.AllGot okay t.heap.tries 2 →
      ∀ vn s', s'.Gives name vn → Blocks.Fine okay t.heap s'.heap → Q (some vn) s') :
    (creatDent okay cur name sem semnum (firstHole s.dents)).wp c Q E t := by
  unfold creatDent
  rw [Op.wp_bind, onHeap, Op.wp_zoom]
  refine semfsDirentryCreate_wp (fun h' hmiss => ?_) fun dent hname hnum hgot => ?_
  · refine failUninsert_wp hs ⟨h.dirlock, h.tablelock, h.vnodes, h.dents, h.empty, h.sems, h.semnum, ?_⟩
      (fun _ => hnone hmiss.2) (by simp)
    exact hmiss.1.trans h.live
  have hmade : Made cur s { t with heap := ⟨dent.nameBlock :: dent.block :: t.heap.live, t.heap.next + 2,
      t.heap.tries + 2⟩ } (dent.nameBlock :: dent.block :: sem.blocks) (some semnum) none :=
    ⟨h.dirlock, h.tablelock, h.vnodes, h.dents, h.empty, h.sems, h.semnum, by simp [h.live]⟩
  dsimp only
  rw [Op.wp_bind, ← hdents]
  refine addDent_wp rfl (fun h' hlive => ?_) fun max h' hlive hfine => ?_
  · refine failUndent_wp hs ⟨h.dirlock, h.tablelock, h.vnodes, h.dents, h.empty, h.sems, h.semnum, ?_⟩ (by simp)
      fun e _ => hE hgot e
    exact hlive.trans hmade.live
  · have hslot := slotAt_setSlot (firstHole_le t.dents) dent
    refine creatVnode_wp hs ⟨h.dirlock, h.tablelock, h.vnodes, fun i hi => ?_, fun i hi => ?_, h.sems, h.semnum, ?_⟩
      hsem hhas ⟨?_, hname, hnum⟩ (hE hgot) fun vn s' hgives hrest => hQ hgot vn s' hgives ?_
    · dsimp only
      rw [hslot, if_neg fun heq => hi (by rw [heq]), hdents]
    · rw [← Option.some.inj hi, hdents]
      exact slotAt_firstHole s.dents
    · exact hlive.trans hmade.live
    · have := hslot (firstHole t.dents)
      rw [if_pos rfl, slotAt_eq_some] at this
      exact List.mem_of_getElem? this
    · exact ((Blocks.Fine.of_got hgot rfl).trans hfine).trans hrest

/-- A new name. -/
theorem creatSem_wp [DecidableEq T] {name : List UInt8} (hs : s.Good)
    (ht : t = { s with dirlock := lockAcquire s.dirlock cur })
    (hpanic : Blocks.AllGot okay s.heap.tries 6 → cur ≠ s.tablelock.lockThread → c)
    (hE : ¬ (Blocks.AllGot okay s.heap.tries 6 ∧ (cur ≠ s.tablelock.lockThread ∨ s.DentFails okay)) →
      ∀ e s', s.Unchanged s' → E e s')
    (hnone : cur = s.tablelock.lockThread → Blocks.AllGot okay s.heap.tries 6 → s.DentFails okay →
      ∀ s', s.Unchanged s' → Q none s')
    (hQ : ¬ (cur ≠ s.tablelock.lockThread ∨ s.DentFails okay) →
      ∀ vn s', s'.Gives name vn → Blocks.Fine okay s.heap s'.heap → Q (some vn) s') :
    (creatSem okay cur name (firstHole s.dents)).wp c Q E t := by
  subst ht
  unfold creatSem
  rw [Op.wp_bind, onHeap, Op.wp_zoom]
  refine semfsSemCreate_wp (fun h' hmiss => ?_) fun sem hhas hsix => ?_
  · exact failUnlock_wp hs ⟨rfl, rfl, rfl, fun _ _ => rfl, by simp, fun _ _ => rfl, by simp, hmiss.1⟩ (by simp)
      fun e _ => hE (fun h => hmiss.2 h.1) e
  dsimp only
  rw [Op.wp_bind]
  unfold acquireTable
  rw [Op.wp_modify, Op.wp_bind, Op.wp_attempt]
  refine semfsSemInsert_wp hs.tablelock rfl (hpanic hsix) (fun hcur e h' hlive hfail => ?_)
    fun hcur hroom hslots max => ?_
  · rw [Op.wp_bind]
    refine releaseTable_wp hs.tablelock rfl ?_
    refine failUncreate_wp hs ⟨rfl, rfl, rfl, fun _ _ => rfl, by simp, fun _ _ => rfl, by simp, hlive⟩ (by simp)
      fun e _ => hE (fun hbad => ?_) e
    rcases hbad.2 with hne | hdent
    · exact hne hcur
    · rcases hfail with hfull | hslots
      · exact hdent.number hfull
      · exact hslots hdent.got
  · rw [Op.wp_bind]
    refine releaseTable_wp hs.tablelock rfl ?_
    have hslot := slotAt_setSlot (firstHole_le s.sems) sem
    have hdentFails : ¬ Blocks.AllGot okay (s.heap.tries + 6 + s.slotTries) 2 → s.DentFails okay :=
      fun h => ⟨hroom, hslots, h⟩
    have hmade : ∀ t' : SemfsFs T, t'.dirlock = lockAcquire s.dirlock cur → t'.tablelock = s.tablelock →
        t'.vnodes = s.vnodes → t'.dents = s.dents → t'.sems = setSlot s.sems (firstHole s.sems) sem →
        t'.heap.live = sem.blocks ++ s.heap.live → Made cur s t' sem.blocks (some (firstHole s.sems)) none := by
      intro t' hdir htable hvnodes hdents hsems hlive
      refine ⟨hdir, htable, hvnodes, fun i _ => by rw [hdents], by simp, fun n hn => ?_, fun n hn => ?_, hlive⟩
      · rw [hsems, hslot, if_neg fun heq => hn (by rw [heq])]
      · rw [← Option.some.inj hn]
        exact slotAt_firstHole s.sems
    refine creatDent_wp hs (hmade _ rfl rfl rfl rfl rfl rfl) rfl ?_ hhas (fun hgot => ?_) (fun hmiss => ?_) fun hgot => ?_
    · dsimp only
      rw [hslot, if_pos rfl]
    · refine hE fun hbad => ?_
      rcases hbad.2 with hne | hdent
      · exact hne hcur
      · exact hdent.fails hgot
    · exact hnone hcur hsix (hdentFails hmiss)
    · intro vn s' hgives hfine
      refine hQ (fun hbad => ?_) vn s' hgives ?_
      · rcases hbad with hne | hdent
        · exact hne hcur
        · exact hdent.fails hgot
      · exact (Blocks.Fine.of_got (Blocks.allGot_add.mpr ⟨hsix, hslots⟩) (Nat.add_assoc _ _ _)).trans hfine

end

end

/-! ### The result -/

theorem findName_some {dents : List (Option SemDent)} {name : List UInt8} {d : SemDent}
    (h : findName dents name = some d) : some d ∈ dents ∧ d.name = name := by
  obtain ⟨o, ho, hd⟩ := List.exists_of_findSome?_eq_some h
  cases o with
  | none => simp at hd
  | some d' =>
    obtain ⟨hname, rfl⟩ : d'.name = name ∧ d' = d := by simpa using hd
    exact ⟨ho, hname⟩

/-- All ends of `semfs_creat`. -/
theorem semfsCreat_wp {T : Type} [DecidableEq T] (okay : ℕ → Bool) (cur : T) {s : SemfsFs T} (hs : s.Good)
    (name : List UInt8) (excl : Bool) :
    (semfsCreat okay cur name excl).wp (s.Wrong okay cur name)
      (fun vn s' => (vn = none ∧ s.Wrong okay cur name) ∨
        (¬ s.Wrong okay cur name ∧ ∃ p, vn = some p ∧ s'.Gives name p ∧ Blocks.Fine okay s.heap s'.heap))
      (fun _ s' => ¬ s.Wrong okay cur name ∧ s.Unchanged s') s := by
  unfold semfsCreat
  rw [Op.wp_ite]
  refine ⟨fun hdots => ?_, fun hdots => ?_⟩
  · exact ⟨fun hbad => hbad.1.dots hdots, ⟨fun _ => rfl, fun _ => rfl, rfl, rfl⟩⟩
  rw [Op.wp_bind]
  unfold acquireDir
  rw [Op.wp_modify, Op.wp_bind, Op.wp_get]
  dsimp only
  cases hfind : findName s.dents name with
  | some d =>
    have hnot : ¬ s.Wrong okay cur name := fun hbad => by simpa [hfind] using hbad.1.new
    obtain ⟨hd, hname⟩ := findName_some hfind
    dsimp only
    rw [Op.wp_ite]
    refine ⟨fun _ => ?_, fun _ => ?_⟩
    · rw [Op.wp_bind]
      exact releaseDir_wp hs.dirlock rfl ⟨hnot, ⟨fun _ => rfl, fun _ => rfl, rfl, rfl⟩⟩
    · rw [Op.wp_bind, Op.wp_attempt]
      refine semfsGetvnode_wp hs.tablelock (fun hno => ?_) (fun h' hlive => ?_) fun vn t' hgot => ?_
      · obtain ⟨o, ho⟩ := hs.entries d hd
        refine ⟨o, ho, Bool.eq_false_iff.mpr fun hhas => ?_⟩
        obtain ⟨v, hv, hnum⟩ := hs.hasvnode d.semnum o ho hhas
        exact hno v hv hnum
      · rw [Op.wp_bind]
        exact releaseDir_wp hs.dirlock rfl ⟨hnot, ⟨fun _ => rfl, fun _ => rfl, rfl, hlive⟩⟩
      · rw [Op.wp_bind]
        obtain ⟨v, hv, hblock, hnum, href⟩ := hgot.vnode
        refine releaseDir_wp hs.dirlock hgot.dirlock (Or.inr ⟨hnot, vn, rfl, ?_, hgot.fine⟩)
        exact ⟨d, v, by simpa [hgot.dents] using hd, hname, hv, hblock, hnum, href⟩
  | none =>
    have hins : Blocks.AllGot okay s.heap.tries 6 → s.Inserts okay name := fun hgot => ⟨hdots, hfind, hgot⟩
    refine creatSem_wp hs rfl (fun hgot hne => ⟨hins hgot, Or.inl hne⟩) (fun hnot e s' hback => ?_)
      (fun _ hgot hdent s' _ => Or.inl ⟨rfl, hins hgot, Or.inr hdent⟩) fun hnot vn s' hgives hfine => ?_
    · exact ⟨fun hbad => hnot ⟨hbad.1.got, hbad.2⟩, hback⟩
    · exact Or.inr ⟨fun hbad => hnot hbad.2, vn, rfl, hgives, hfine⟩

/-- In every directory, for every name and every choice of failing allocations, `semfs_creat`
gives a vnode or fails and leaves nothing behind, just if it does not get to the assertion on
behalf of another thread, or to a directory entry for which there is no memory. -/
theorem semfs_creat_right_iff {T : Type} [DecidableEq T] (okay : ℕ → Bool) (cur : T) (s : SemfsFs T) (hs : s.Good)
    (name : List UInt8) (excl : Bool) :
    CreatRight okay cur name excl s ↔ ¬ s.Wrong okay cur name := by
  unfold CreatRight
  refine ⟨fun hright hbad => ?_, fun hnot => ?_⟩
  · obtain ⟨vn, s', hrun, ⟨p, hp, -⟩, -⟩ | ⟨e, s', hrun, -⟩ | ⟨-, hno⟩ := hright.cases
    · rcases (Op.wp_of_ok hrun).mp (semfsCreat_wp okay cur hs name excl) with ⟨hnone, -⟩ | ⟨hnot, -⟩
      · exact Option.some_ne_none p (hp.symm.trans hnone)
      · exact hnot hbad
    · exact ((Op.wp_of_err hrun).mp (semfsCreat_wp okay cur hs name excl)).1 hbad
    · exact hno
  · obtain ⟨vn, s', hrun, hend⟩ | ⟨e, s', hrun, hend⟩ | ⟨-, hbad⟩ := (semfsCreat_wp okay cur hs name excl).cases
    · rcases hend with ⟨-, hbad⟩ | ⟨-, p, hp, hgives, hfine⟩
      · exact absurd hbad hnot
      · exact (Op.wp_of_ok hrun).mpr ⟨⟨p, hp, hgives⟩, hfine.2⟩
    · exact (Op.wp_of_err hrun).mpr hend.2
    · exact absurd hbad hnot

theorem semfsFs_fresh_good : SemfsFs.fresh.Good := by
  refine ⟨rfl, rfl, fun d hd => ?_, fun n o ho => ?_⟩
  · simp [SemfsFs.fresh] at hd
  · simp [SemfsFs.fresh] at ho

/-- The eleventh allocation is that of the vnode. -/
theorem semfs_creat_right_iff_novnode :
    SemfsFs.fresh.Good ∧ CreatRight (fun k => k ≠ 10) 0 [97] false SemfsFs.fresh := by
  refine ⟨semfsFs_fresh_good, (semfs_creat_right_iff _ _ _ semfsFs_fresh_good _ _).mpr fun hbad => ?_⟩
  rcases hbad.2 with hne | hdent
  · exact hne rfl
  · exact hdent.fails (by decide)

/-- The eighth is that of the directory entry: the call returns 0 and gives no vnode. And for
a thread other than the one that made the file system the first semaphore is a panic. -/
theorem semfs_creat_nothing :
    (SemfsFs.fresh.Good ∧ ¬ CreatRight (fun k => k ≠ 7) 0 [97] false SemfsFs.fresh ∧
      ∃ s', semfsCreat (fun k => k ≠ 7) 0 [97] false SemfsFs.fresh = .ok none s') ∧
    semfsCreat (fun _ => true) 1 [97] false SemfsFs.fresh = .panic := by
  have hrun : ∃ s', semfsCreat (fun k => k ≠ 7) 0 [97] false SemfsFs.fresh = .ok none s' := ⟨_, rfl⟩
  refine ⟨⟨semfsFs_fresh_good, fun hright => ?_, hrun⟩, rfl⟩
  obtain ⟨s', hs'⟩ := hrun
  obtain ⟨⟨p, hp, -⟩, -⟩ := (Op.wp_of_ok hs').mp hright
  exact Option.some_ne_none p hp.symm

end Os161
