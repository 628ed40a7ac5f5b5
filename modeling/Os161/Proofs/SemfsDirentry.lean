import Os161.Proofs.Uio
import Os161.Spec.SemfsDirentry

/-! The entries of semfs have distinct names, and a program reading the directory gets
each of them once just if the length of every name is the distance from its slot to that of
the next entry. -/

namespace Os161

/-! ### Distinct names -/

def DistinctNames (dents : List (Option SemDirent)) : Prop :=
  ∀ i j d e, slotAt dents i = some d → slotAt dents j = some e → d.name = e.name → i = j

/-- The name that the call is about to put into the directory. -/
def SemDirPc.adds : SemDirPc → Option (List UInt8)
  | .insert name _ | .dent name _ _ => some name
  | _ => none

namespace Semfs

variable {s s' : Semfs}

/-- Names are distinct, also with the one to come. -/
structure NamesInv (s : Semfs) : Prop where
  distinct : DistinctNames s.dents
  new : ∀ name, s.dir.bind SemDirPc.adds = some name → ∀ i d, slotAt s.dents i = some d → d.name ≠ name

theorem findDent_none {name : List UInt8} (h : s.findDent name = none) {i : ℕ} {d : SemDirent}
    (hd : slotAt s.dents i = some d) : d.name ≠ name := by
  intro hname
  have hi : i < s.dents.length := (List.getElem?_eq_some_iff.mp (slotAt_eq_some.mp hd)).1
  have := List.findSome?_eq_none_iff.mp h i (List.mem_range.mpr hi)
  simp [hd, hname] at this

/-- What a step does to the directory: nothing, and then it may have looked for a name to be
added; or it adds that name, or takes an entry out. -/
inductive NamesStep (s s' : Semfs) : Prop
  | same (hdents : s'.dents = s.dents)
      (hadds : ∀ name, s'.dir.bind SemDirPc.adds = some name →
        s.dir.bind SemDirPc.adds = some name ∨ s.findDent name = none)
  | add (d : SemDirent) (hnew : s.dir.bind SemDirPc.adds = some d.name)
      (hdents : s'.dents = setSlot s.dents (firstHole s.dents) d) (hadds : s'.dir.bind SemDirPc.adds = none)
  | clear (i : ℕ) (hdents : s'.dents = clearSlot s.dents i) (hadds : s'.dir.bind SemDirPc.adds = none)

theorem NamesStep.quiet (hdents : s'.dents = s.dents) (hadds : s'.dir.bind SemDirPc.adds = none) : NamesStep s s' :=
  .same hdents fun name hname => by simp [hadds] at hname

theorem NamesInv.step (h : s.NamesInv) (hstep : NamesStep s s') : s'.NamesInv := by
  cases hstep with
  | same hdents hadds =>
    refine ⟨by rw [hdents]; exact h.distinct, fun name hname i d hd => ?_⟩
    rw [hdents] at hd
    rcases hadds name hname with hold | hnone
    · exact h.new name hold i d hd
    · exact findDent_none hnone hd
  | add d hnew hdents hadds =>
    refine ⟨fun i j a b ha hb hab => ?_, fun name hname => by simp [hadds] at hname⟩
    rw [hdents, slotAt_setSlot (firstHole_le s.dents)] at ha hb
    split_ifs at ha hb with hi hj hj
    · rw [hi, hj]
    · cases ha
      exact absurd hab.symm (h.new d.name hnew j b hb)
    · cases hb
      exact absurd hab (h.new d.name hnew i a ha)
    · exact h.distinct i j a b ha hb hab
  | clear k hdents hadds =>
    refine ⟨fun i j a b ha hb hab => ?_, fun name hname => by simp [hadds] at hname⟩
    rw [hdents, slotAt_clearSlot] at ha hb
    split_ifs at ha hb
    exact h.distinct i j a b ha hb hab

theorem getvnode_names {n : ℕ} {okay : Bool} {next : ℕ → SemDirPc} {fail : SemDirPc}
    (h : s.getvnode n okay next fail = some s') (hnext : ∀ v, (next v).adds = none) (hfail : fail.adds = none) :
    NamesStep s s' := by
  unfold getvnode at h
  split at h
  · cases h
    exact .quiet rfl (hnext _)
  · split at h
    · split at h
      · cases h
      · split at h
        · cases h
        · cases h
          exact .quiet rfl (hnext _)
    · cases h
      exact .quiet rfl hfail

theorem dirStep_names {okay : Bool} {pc : SemDirPc} (hdir : s.dir = some pc) (h : s.dirStep okay pc = some s') :
    NamesStep s s' := by
  cases pc with
  | creat name excl =>
    simp only [dirStep] at h
    cases hfind : s.findDent name with
    | some p =>
      rw [hfind] at h
      cases h
      cases excl <;> exact .quiet rfl rfl
    | none =>
      rw [hfind] at h
      dsimp only at h
      split_ifs at h <;> cases h
      · refine .same rfl fun new hnew => Or.inr ?_
        obtain rfl : name = new := by simpa [goDir, SemDirPc.adds] using hnew
        exact hfind
      · exact .quiet rfl rfl
  | insert name o =>
    simp only [dirStep] at h
    split_ifs at h <;> cases h
    · exact .quiet rfl rfl
    · refine .same rfl fun new hnew => Or.inl ?_
      rw [hdir]
      exact hnew
  | dent name o n =>
    simp only [dirStep] at h
    split_ifs at h <;> cases h
    · exact .add ⟨name, n⟩ (by rewrite [hdir]; rfl) rfl rfl
    · exact .quiet rfl rfl
  | vnode i o n =>
    simp only [dirStep] at h
    split_ifs at h
    exact getvnode_names h (fun _ => rfl) rfl
  | getvnode n =>
    simp only [dirStep] at h
    split_ifs at h
    exact getvnode_names h (fun _ => rfl) rfl
  | undir i o n =>
    cases h
    exact .clear i rfl rfl
  | undent i n =>
    cases h
    exact .clear i rfl rfl
  | lookup name =>
    simp only [dirStep] at h
    split at h <;> cases h <;> exact .quiet rfl rfl
  | remove name =>
    simp only [dirStep] at h
    split at h <;> cases h <;> exact .quiet rfl rfl
  | getsem i n =>
    simp only [dirStep] at h
    split_ifs at h
    split at h <;> cases h
    exact .quiet rfl rfl
  | test i n o =>
    cases h
    refine .quiet rfl ?_
    by_cases hhas : (s.obj o).hasvnode = false <;> simp [goDir, SemDirPc.adds, hhas]
  | link i o n v =>
    cases h
    exact .quiet rfl rfl
  | uncreate o =>
    cases h
    exact .quiet rfl rfl
  | destroy i n o =>
    cases h
    exact .quiet rfl rfl
  | release v =>
    cases h
    exact .quiet rfl rfl
  | uninsert o n =>
    simp only [dirStep] at h
    split_ifs at h
    cases h
    exact .quiet rfl rfl
  | unlink i n o =>
    simp only [dirStep] at h
    split_ifs at h
    cases h
    exact .quiet rfl rfl
  | clear i n o =>
    simp only [dirStep] at h
    split_ifs at h
    cases h
    exact .quiet rfl rfl

theorem tableStep_names {pc : SemTablePc} (h : s.tableStep pc = some s') : NamesStep s s' := by
  have hsame : s'.dents = s.dents ∧ s'.dir = s.dir := by
    cases pc with
    | unhas v n =>
      simp only [tableStep] at h
      split at h
      · cases h
      · split_ifs at h
        cases h
        exact ⟨rfl, rfl⟩
    | check v n =>
      simp only [tableStep] at h
      split_ifs at h <;> cases h <;> exact ⟨rfl, rfl⟩
    | linked v n o =>
      cases h
      exact ⟨rfl, rfl⟩
    | clear v n o =>
      cases h
      exact ⟨rfl, rfl⟩
    | release v =>
      cases h
      exact ⟨rfl, rfl⟩
  exact .same hsame.1 fun name hname => Or.inl (by rwa [hsame.2] at hname)

theorem call_names {name : List UInt8} {pc : SemDirPc} (hpc : pc.adds = none) (h : s.call name pc = some s') :
    NamesStep s s' := by
  unfold call at h
  split_ifs at h <;> cases h
  · exact .same rfl fun name hname => Or.inl hname
  · exact .quiet rfl hpc

theorem semTableStep_names {e : SemTableEv} (h : semTableStep s e = some s') : NamesStep s s' := by
  cases e with
  | creat name excl => exact call_names rfl h
  | lookup name => exact call_names rfl h
  | remove name => exact call_names rfl h
  | dir okay =>
    obtain ⟨pc, hdir, hstep⟩ := Option.bind_eq_some_iff.mp h
    exact dirStep_names hdir hstep
  | table =>
    obtain ⟨pc, -, hstep⟩ := Option.bind_eq_some_iff.mp h
    exact tableStep_names hstep
  | _ =>
    simp only [semTableStep] at h
    split_ifs at h
    cases h
    exact .same rfl fun name hname => Or.inl hname

theorem distinctNames_of_exec {evs : List SemTableEv} (h : exec semTableStep Semfs.create evs = some s) :
    DistinctNames s.dents := by
  have hcreate : Semfs.create.NamesInv :=
    ⟨fun i j d e hd => by simp [create] at hd, fun name hname => by simp [create] at hname⟩
  have hrun : AllStates semTableStep NamesInv Semfs.create evs :=
    allStates_of_step (fun _ e _ hs ht => hs.step (semTableStep_names (e := e) ht)) hcreate evs
  exact (hrun.exec h).distinct

end Semfs

/-! ### One call -/

section
variable {dents : List (Option SemDirent)} {uio : ℤ → Uio} {p calls : ℕ}

theorem readDir_end (huio : ReadsNames dents uio) (hword : p < 4294967296) (hp : dents.length ≤ p) :
    readDir dents uio (calls + 1) p = some [] := by
  have hrun : semfsGetdirentry dents (uio p) = .ok () (uio p) := by
    refine Op.eq_ok_of_wp ?_
    unfold semfsGetdirentry
    rw [Op.wp_bind, Op.wp_get, huio.offset, Op.wp_bind, Op.wp_kassert_of (Int.natCast_nonneg p), u32_natCast hword,
      if_pos hp]
    exact ⟨rfl, rfl⟩
  simp [readDir, hrun, huio.passed]

theorem readDir_hole (huio : ReadsNames dents uio) (hword : p < 4294967296) (hp : p < dents.length)
    (hslot : slotAt dents p = none) : readDir dents uio (calls + 1) p = none := by
  have hrun : (semfsGetdirentry dents).wp True (fun _ _ => False) (fun _ _ => False) (uio p) := by
    unfold semfsGetdirentry
    rw [Op.wp_bind, Op.wp_get, huio.offset, Op.wp_bind, Op.wp_kassert_of (Int.natCast_nonneg p), u32_natCast hword,
      if_neg (Nat.not_le.mpr hp), hslot]
    exact trivial
  obtain ⟨_, _, _, hno⟩ | ⟨_, _, _, hno⟩ | ⟨hpanic, -⟩ := hrun.cases
  · exact hno.elim
  · exact hno.elim
  · simp [readDir, hpanic]

/-- The position moves on by the length of the name. -/
theorem readDir_entry (huio : ReadsNames dents uio) (hword : p < 4294967296) {d : SemDirent}
    (hslot : slotAt dents p = some d) :
    readDir dents uio (calls + 1) p =
      if d.name = [] then some [] else (readDir dents uio calls (p + d.name.length : ℕ)).map (d.name :: ·) := by
  have hp : p < dents.length := (List.getElem?_eq_some_iff.mp (slotAt_eq_some.mp hslot)).1
  have hrun : (semfsGetdirentry dents).wp False (fun _ u => u.passed = d.name ∧ u.offset = (p + d.name.length : ℕ))
      (fun _ _ => False) (uio p) := by
    unfold semfsGetdirentry
    rw [Op.wp_bind, Op.wp_get, huio.offset, Op.wp_bind, Op.wp_kassert_of (Int.natCast_nonneg p), u32_natCast hword,
      if_neg (Nat.not_le.mpr hp), hslot]
    dsimp only
    rw [Op.wp_bind]
    refine uiomove_wp (huio.ready p) (huio.room p p d hslot) fun u hu => ?_
    rw [huio.rw, UioRw.traffic_read] at hu
    refine ⟨by rw [hu.passed, huio.passed, List.nil_append], ?_⟩
    rw [hu.offset, huio.offset, Nat.cast_add]
  obtain ⟨_, u, hok, hpassed, hoffset⟩ | ⟨_, _, _, hno⟩ | ⟨_, hno⟩ := hrun.cases
  · simp [readDir, hok, hpassed, hoffset]
  · exact hno.elim
  · exact hno.elim

/-! ### The whole directory -/

/-- The names of the directory from slot `p` on. -/
def namesFrom (dents : List (Option SemDirent)) (p : ℕ) : List (List UInt8) :=
  (dents.drop p).filterMap fun d => d.map SemDirent.name

theorem namesFrom_end (hp : dents.length ≤ p) : namesFrom dents p = [] := by
  simp [namesFrom, List.drop_eq_nil_of_le hp]

theorem namesFrom_entry {d : SemDirent} (hslot : slotAt dents p = some d) :
    namesFrom dents p = d.name :: namesFrom dents (p + 1) := by
  obtain ⟨hp, hd⟩ := List.getElem?_eq_some_iff.mp (slotAt_eq_some.mp hslot)
  simp [namesFrom, List.drop_eq_getElem_cons hp, hd]

theorem namesFrom_hole (hslot : slotAt dents p = none) : namesFrom dents p = namesFrom dents (p + 1) := by
  rcases Nat.lt_or_ge p dents.length with hp | hp
  · have hd : dents[p] = none := by simpa [slotAt, List.getElem?_eq_getElem hp] using hslot
    simp [namesFrom, List.drop_eq_getElem_cons hp, hd]
  · rw [namesFrom_end hp, namesFrom_end (by omega)]

theorem namesFrom_holes {n : ℕ} (h : ∀ j, p ≤ j → j < p + n → slotAt dents j = none) :
    namesFrom dents p = namesFrom dents (p + n) := by
  induction n with
  | zero => rfl
  | succ n ih =>
    rw [ih fun j hge hlt => h j hge (by omega), namesFrom_hole (h (p + n) (by omega) (by omega)), Nat.add_assoc]

theorem mem_namesFrom {name : List UInt8} :
    name ∈ namesFrom dents p ↔ ∃ i d, p ≤ i ∧ slotAt dents i = some d ∧ d.name = name := by
  unfold namesFrom
  rw [List.mem_filterMap]
  constructor
  · rintro ⟨o, ho, hname⟩
    obtain ⟨d, rfl, hd⟩ := Option.map_eq_some_iff.mp hname
    obtain ⟨k, hk⟩ := List.mem_iff_getElem?.mp ho
    rw [List.getElem?_drop] at hk
    exact ⟨p + k, d, by omega, slotAt_eq_some.mpr hk, hd⟩
  · rintro ⟨i, d, hi, hd, hname⟩
    refine ⟨some d, List.mem_iff_getElem?.mpr ⟨i - p, ?_⟩, by simp [hname]⟩
    rw [List.getElem?_drop, Nat.add_sub_cancel' hi]
    exact slotAt_eq_some.mp hd

theorem namesFrom_nodup (hdist : DistinctNames dents) (p : ℕ) : (namesFrom dents p).Nodup := by
  -- from the end of the array backwards
  induction hn : dents.length - p generalizing p with
  | zero =>
    rw [namesFrom_end (by omega)]
    exact List.nodup_nil
  | succ n ih =>
    have hrest := ih (p + 1) (by omega)
    cases hslot : slotAt dents p with
    | none => rwa [namesFrom_hole hslot]
    | some d =>
      rw [namesFrom_entry hslot, List.nodup_cons]
      refine ⟨fun hmem => ?_, hrest⟩
      obtain ⟨i, e, hi, he, hname⟩ := mem_namesFrom.mp hmem
      have := hdist i p e d he hslot hname
      omega

theorem InStep.next {p : ℕ} (h : InStep dents p) {d : SemDirent} (hslot : slotAt dents p = some d) :
    InStep dents (p + d.name.length) :=
  ⟨(h.2 p d le_rfl hslot).2.1, fun i e hi => h.2 i e (by omega)⟩

/-- In step, the calls give all names from there on. -/
theorem InStep.readDir (huio : ReadsNames dents uio) (hfits : FitsMemory dents) {p : ℕ} (hp : p < 4294967296)
    (h : InStep dents p) : ∃ calls, readDir dents uio calls p = some (namesFrom dents p) := by
  induction hn : dents.length - p using Nat.strong_induction_on generalizing p with
  | _ n ih =>
    rcases Nat.lt_or_ge p dents.length with hlt | hge
    · obtain ⟨d, hslot⟩ := h.1 hlt
      obtain ⟨hne, -, hholes⟩ := h.2 p d le_rfl hslot
      have hlen : 0 < d.name.length := List.length_pos_of_ne_nil hne
      have hbound := hfits.2 p d hslot
      obtain ⟨calls, hcalls⟩ := ih (dents.length - (p + d.name.length)) (by omega) (by omega) (h.next hslot) rfl
      have hskip : namesFrom dents (p + 1) = namesFrom dents (p + d.name.length) := by
        have hend : p + 1 + (d.name.length - 1) = p + d.name.length := by omega
        rw [← hend]
        exact namesFrom_holes fun j hj hj' => hholes j (by omega) (by omega)
      refine ⟨calls + 1, ?_⟩
      rw [readDir_entry huio hp hslot, if_neg hne, hcalls, namesFrom_entry hslot, hskip]
      rfl
    · exact ⟨1, by rw [readDir_end huio hp hge, namesFrom_end hge]⟩

/-- What the calls give are names from there on. -/
theorem readDir_subset (huio : ReadsNames dents uio) (hfits : FitsMemory dents) {calls p : ℕ} (hp : p < 4294967296)
    {names : List (List UInt8)} (h : readDir dents uio calls p = some names) {name : List UInt8} (hname : name ∈ names) :
    ∃ i d, p ≤ i ∧ slotAt dents i = some d ∧ d.name = name := by
  induction calls generalizing p names with
  | zero => cases h
  | succ calls ih =>
    rcases Nat.lt_or_ge p dents.length with hlt | hge
    · cases hslot : slotAt dents p with
      | none =>
        rw [readDir_hole huio hp hlt hslot] at h
        cases h
      | some d =>
        have hbound := hfits.2 p d hslot
        rw [readDir_entry huio hp hslot] at h
        split_ifs at h
        · cases h
          cases hname
        · obtain ⟨rest, hrest, rfl⟩ := Option.map_eq_some_iff.mp h
          rcases List.mem_cons.mp hname with rfl | hname
          · exact ⟨p, d, le_rfl, hslot, rfl⟩
          · obtain ⟨i, e, hi, he, hen⟩ := ih (by omega) hrest hname
            exact ⟨i, e, by omega, he, hen⟩
    · rw [readDir_end huio hp hge] at h
      cases h
      cases hname

/-- Calls that leave out no name are in step. -/
theorem inStep_of_readDir (huio : ReadsNames dents uio) (hfits : FitsMemory dents) (hdist : DistinctNames dents)
    {calls p : ℕ} (hp : p < 4294967296) {names : List (List UInt8)} (h : readDir dents uio calls p = some names)
    (hall : ∀ i d, p ≤ i → slotAt dents i = some d → d.name ∈ names) : InStep dents p := by
  induction calls generalizing p names with
  | zero => cases h
  | succ calls ih =>
    rcases Nat.lt_or_ge p dents.length with hlt | hge
    · cases hslot : slotAt dents p with
      | none =>
        rw [readDir_hole huio hp hlt hslot] at h
        cases h
      | some d =>
        have hbound := hfits.2 p d hslot
        rw [readDir_entry huio hp hslot] at h
        split_ifs at h with hempty
        · cases h
          exact absurd (hall p d le_rfl hslot) List.not_mem_nil
        · obtain ⟨rest, hrest, rfl⟩ := Option.map_eq_some_iff.mp h
          -- an entry behind this one is among the rest, so it is as far away as the rest begins
          have hlater : ∀ j e, p < j → slotAt dents j = some e → e.name ∈ rest ∧ p + d.name.length ≤ j := by
            intro j e hj he
            rcases List.mem_cons.mp (hall j e (by omega) he) with heq | hmem
            · have := hdist j p e d he hslot heq
              omega
            · obtain ⟨i, f, hi, hf, hname⟩ := readDir_subset huio hfits (by omega) hrest hmem
              have := hdist i j f e hf he hname
              exact ⟨hmem, by omega⟩
          have hlen : 0 < d.name.length := List.length_pos_of_ne_nil hempty
          have hnext : InStep dents (p + d.name.length) :=
            ih (by omega) hrest fun i e hi he => (hlater i e (by omega) he).1
          refine ⟨fun _ => ⟨d, hslot⟩, fun i e hi he => ?_⟩
          rcases Nat.eq_or_lt_of_le hi with rfl | hi
          · obtain rfl : d = e := Option.some.inj (hslot.symm.trans he)
            refine ⟨hempty, hnext.1, fun j hj hj' => ?_⟩
            cases hfree : slotAt dents j with
            | none => rfl
            | some f =>
              have := (hlater j f hj hfree).2
              omega
          · exact hnext.2 i e (hlater i e hi he).2 he
    · have hnone : ∀ i, p ≤ i → slotAt dents i = none := fun i hi => by
        simp [slotAt, List.getElem?_eq_none (Nat.le_trans hge hi)]
      exact ⟨fun hlt => absurd hlt (Nat.not_lt.mpr hge), fun i d hi hd => by simp [hnone i hi] at hd⟩

end

/-- Whatever creations and removals made the directory, reading it to the end gives every
name once just if the lengths of the names are in step with the slots. -/
theorem semfs_enumerates_iff (evs : List SemTableEv) (s : Semfs) (hrun : exec semTableStep Semfs.create evs = some s)
    (uio : ℤ → Uio) (huio : ReadsNames s.dents uio) (hfits : FitsMemory s.dents) :
    Enumerates s.dents uio ↔ InStep s.dents 0 := by
  have hdist := Semfs.distinctNames_of_exec hrun
  constructor
  · rintro ⟨calls, names, hread, -, hnames⟩
    exact inStep_of_readDir huio hfits hdist (by decide) hread fun i d _ hd => (hnames d.name).mpr ⟨i, d, hd, rfl⟩
  · intro hstep
    obtain ⟨calls, hcalls⟩ := hstep.readDir huio hfits (by decide)
    refine ⟨calls, _, hcalls, namesFrom_nodup hdist 0, fun name => ?_⟩
    rw [mem_namesFrom]
    simp only [Nat.zero_le, true_and]

/-- A semaphore is created, and every allocation succeeds. -/
def createsSem (name : List UInt8) : List SemTableEv := .creat name true :: List.replicate 6 (.dir true)

/-- Reads with a buffer of eight bytes. -/
def reads8 (offset : ℤ) : Uio := uioKinit (List.replicate 8 0) offset .read

theorem mem_of_slotAt {dents : List (Option SemDirent)} {i : ℕ} {d : SemDirent} (h : slotAt dents i = some d) :
    some d ∈ dents := List.mem_of_getElem? (slotAt_eq_some.mp h)

theorem reads8_readsNames {dents : List (Option SemDirent)} (h : ∀ d, some d ∈ dents → d.name.length ≤ 8) :
    ReadsNames dents reads8 where
  offset _ := rfl
  passed _ := rfl
  rw _ := rfl
  ready _ := ⟨by simp [reads8, uioKinit], by simp [reads8, uioKinit], trivial⟩
  room _ _ d hd := h d (mem_of_slotAt hd)

theorem fitsMemory_of_short {dents : List (Option SemDirent)} (hlength : dents.length ≤ 2)
    (h : ∀ d, some d ∈ dents → d.name.length ≤ 8) : FitsMemory dents := by
  refine ⟨by omega, fun i d hd => ?_⟩
  have := h d (mem_of_slotAt hd)
  omega

/-- Two names of one letter. -/
theorem semfs_enumerates_iff_letters :
    ∃ s, exec semTableStep Semfs.create (createsSem [97] ++ createsSem [98]) = some s ∧
      ReadsNames s.dents reads8 ∧ FitsMemory s.dents ∧ Enumerates s.dents reads8 := by
  obtain ⟨s, hrun, hdents⟩ : ∃ s, exec semTableStep Semfs.create (createsSem [97] ++ createsSem [98]) = some s ∧
      s.dents = [some ⟨[97], 0⟩, some ⟨[98], 1⟩] := ⟨_, rfl, rfl⟩
  have hlength : s.dents.length = 2 := by rewrite [hdents]; rfl
  have hname : ∀ d, some d ∈ s.dents → d.name.length = 1 := by
    simp [hdents]
  have hshort : ∀ d, some d ∈ s.dents → d.name.length ≤ 8 := fun d hd => by
    have := hname d hd
    omega
  have hentry : ∀ i, AtEntry s.dents i := by
    intro i hi
    rw [hlength] at hi
    rw [hdents]
    interval_cases i <;> exact ⟨_, rfl⟩
  have hstep : InStep s.dents 0 := by
    refine ⟨hentry 0, fun i d _ hd => ?_⟩
    have hone := hname d (mem_of_slotAt hd)
    exact ⟨fun hempty => by simp [hempty] at hone, hentry _, fun j hj hj' => by omega⟩
  have huio := reads8_readsNames hshort
  have hfits := fitsMemory_of_short hlength.le hshort
  exact ⟨s, hrun, huio, hfits, (semfs_enumerates_iff _ s hrun reads8 huio hfits).mpr hstep⟩

/-- Two names of two letters: the calls give the first one, and then nothing. -/
theorem semfs_name_skipped :
    ∃ s, exec semTableStep Semfs.create (createsSem [97, 98] ++ createsSem [99, 100]) = some s ∧
      ReadsNames s.dents reads8 ∧ FitsMemory s.dents ∧ readDir s.dents reads8 2 0 = some [[97, 98]] ∧
      ¬ Enumerates s.dents reads8 := by
  obtain ⟨s, hrun, hdents⟩ : ∃ s, exec semTableStep Semfs.create (createsSem [97, 98] ++ createsSem [99, 100]) = some s ∧
      s.dents = [some ⟨[97, 98], 0⟩, some ⟨[99, 100], 1⟩] := ⟨_, rfl, rfl⟩
  have hlength : s.dents.length = 2 := by rewrite [hdents]; rfl
  have hshort : ∀ d, some d ∈ s.dents → d.name.length ≤ 8 := by
    simp [hdents]
  have hfirst : slotAt s.dents 0 = some ⟨[97, 98], 0⟩ := by rewrite [hdents]; rfl
  have hsecond : slotAt s.dents 1 = some ⟨[99, 100], 1⟩ := by rewrite [hdents]; rfl
  have huio := reads8_readsNames hshort
  have hfits := fitsMemory_of_short hlength.le hshort
  refine ⟨s, hrun, huio, hfits, by rewrite [hdents]; rfl, ?_⟩
  rintro ⟨calls, names, hread, -, hnames⟩
  have hstep := inStep_of_readDir huio hfits (Semfs.distinctNames_of_exec hrun) (by decide) hread fun i d _ hd =>
    (hnames d.name).mpr ⟨i, d, hd, rfl⟩
  have hhole := (hstep.2 0 _ le_rfl hfirst).2.2 1 (by decide) (by decide)
  exact Option.some_ne_none _ (hsecond.symm.trans hhole)

end Os161
