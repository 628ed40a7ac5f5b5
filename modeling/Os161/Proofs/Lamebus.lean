import Os161.Spec.Lamebus

/-! Both loops over the mask number the same list: the processors but the boot processor,
in the order of their hardware numbers. -/

namespace Os161

open Op

variable {regs : CtlRegs} {boot : ℕ}

/-- The processors below `n` in the mask. -/
def CtlRegs.below (regs : CtlRegs) (n : ℕ) : List ℕ := (List.range n).filter fun i => regs.cpus.testBit i

/-- Those that are not the boot processor. -/
def CtlRegs.othersBelow (regs : CtlRegs) (boot n : ℕ) : List ℕ := (regs.below n).filter fun i => i ≠ boot

namespace CtlRegs

theorem below_succ (regs : CtlRegs) (n : ℕ) : regs.below (n + 1) = regs.below n ++ if regs.cpus.testBit n then [n] else [] := by
  rw [below, List.range_succ, List.filter_append, ← below]
  congr 1
  by_cases hbit : regs.cpus.testBit n = true
  · simp [hbit]
  · simp [hbit]

theorem mem_below {n i : ℕ} : i ∈ regs.below n ↔ i < n ∧ regs.cpus.testBit i = true := by
  simp [below]

theorem nodup_below (n : ℕ) : (regs.below n).Nodup := List.nodup_range.filter _

theorem mem_othersBelow {n i : ℕ} : i ∈ regs.othersBelow boot n ↔ i < n ∧ regs.cpus.testBit i = true ∧ i ≠ boot := by
  rw [othersBelow, List.mem_filter, mem_below, decide_eq_true_eq, and_assoc]

theorem nodup_othersBelow (n : ℕ) : (regs.othersBelow boot n).Nodup := (nodup_below n).filter _

theorem length_othersBelow_lt (hboot : boot < 32) : (regs.othersBelow boot 32).length < 32 := by
  have hsub : (regs.othersBelow boot 32).Subperm ((List.range 32).erase boot) := by
    apply (nodup_othersBelow 32).subperm
    intro i hi
    obtain ⟨hlt, -, hne⟩ := mem_othersBelow.mp hi
    exact (List.mem_erase_of_ne hne).mpr (List.mem_range.mpr hlt)
  have hle := hsub.length_le
  rw [List.length_erase_of_mem (List.mem_range.mpr hboot), List.length_range] at hle
  omega

theorem card_secondaries : (regs.secondaries boot).card = (regs.othersBelow boot 32).length := by
  rw [← List.toFinset_card_of_nodup (nodup_othersBelow 32)]
  congr 1
  ext i
  rw [List.mem_toFinset, mem_othersBelow, secondaries, Finset.mem_filter, Finset.mem_range]

theorem testBit_self (hself : regs.self = 2 ^ boot) (i : ℕ) : regs.self.testBit i = true ↔ i = boot := by
  rw [hself, Nat.testBit_two_pow, decide_eq_true_eq]
  exact eq_comm

end CtlRegs

/-! ### `lamebus_find_cpus` -/

/-- The scan up to `i`, and the state it leaves. -/
structure Scanned (regs : CtlRegs) (boot : ℕ) (s : Lamebus) (i : ℕ) (f : CpuScan) (t : Lamebus) : Prop where
  hwnum : f.hwnum = regs.below i
  state : ∃ hw, t = { s with allcpus := [⟨0, hw⟩] } ∧ (boot < i → hw = boot)
  bootcpu : boot < i → f.hwnum[f.bootcpu]? = some boot

theorem findCpu_wp {s t : Lamebus} {c : Prop} (hself : regs.self = 2 ^ boot) (hmask : regs.cpus.testBit boot = true)
    {i : ℕ} {f : CpuScan} (h : Scanned regs boot s i f t) {E : Errno → Lamebus → Prop} :
    (findCpu regs f i).wp c (Scanned regs boot s (i + 1)) E t := by
  obtain ⟨hhw, ⟨hw, rfl, hwboot⟩, hbootcpu⟩ := h
  have hsucc := CtlRegs.below_succ regs i
  unfold findCpu
  rw [wp_ite]
  refine ⟨fun hbit => ?_, fun hbit => ?_⟩
  · rw [wp_ite, CtlRegs.testBit_self hself]
    rw [if_pos hbit] at hsucc
    refine ⟨fun hi => ?_, fun hi => ?_⟩
    · subst hi
      unfold setHardwareNumber
      rw [wp_bind, wp_modify, wp_pure]
      refine ⟨by rw [hsucc, hhw], ⟨i, rfl, fun _ => rfl⟩, fun _ => ?_⟩
      simp
    · rw [wp_pure]
      refine ⟨by rw [hsucc, ← hhw], ⟨hw, rfl, fun hlt => hwboot (by omega)⟩, fun hlt => ?_⟩
      have hold := hbootcpu (by omega)
      rw [List.getElem?_append_left (List.getElem?_eq_some_iff.mp hold).1]
      exact hold
  · rw [wp_pure]
    have hne : i ≠ boot := fun he => hbit (he ▸ hmask)
    rw [if_neg hbit, List.append_nil] at hsucc
    exact ⟨by rw [hsucc, hhw], ⟨hw, rfl, fun hlt => hwboot (by omega)⟩, fun hlt => hbootcpu (by omega)⟩

/-- The structures: the boot processor, and after it those of `l`, each at its number. -/
structure Lamebus.Has (s : Lamebus) (boot : ℕ) (l : List ℕ) : Prop where
  hardware : s.allcpus.map BusCpu.hardwareNumber = boot :: l
  index : ∀ k (c : BusCpu), s.allcpus[k]? = some c → c.number = k

/-- What the loops over the structures leave alone. -/
structure Lamebus.SameCtl (s t : Lamebus) : Prop where
  uniprocessor : t.uniprocessor = s.uniprocessor
  cram : t.cram = s.cram
  kmem : ∀ okay ∈ t.kmem, okay ∈ s.kmem

theorem cpuCreate_wp {s : Lamebus} {l : List ℕ} {h : ℕ} {c : Prop} (hs : s.Has boot l) (hlt : l.length < 31)
    (hc : false ∈ s.kmem → c) {Q : Unit → Lamebus → Prop} {E : Errno → Lamebus → Prop}
    (hQ : ∀ t, t.Has boot (l ++ [h]) → s.SameCtl t → Q () t) : (cpuCreate h).wp c Q E s := by
  have hlen : s.allcpus.length = l.length + 1 := by
    have := congrArg List.length hs.hardware
    simpa using this
  have hnew (kmem : List Bool) (hsub : ∀ okay ∈ kmem.tail, okay ∈ s.kmem) :
      (do
        Op.set { s with kmem := kmem.tail, allcpus := s.allcpus ++ [⟨s.allcpus.length, h⟩] }
        Op.kassert (s.allcpus.length < maxcpus) : LamebusM Unit).wp c Q E s := by
    have hroom : s.allcpus.length < maxcpus := by
      rw [hlen]
      unfold maxcpus
      omega
    rw [wp_bind, wp_set, wp_kassert_of hroom]
    refine hQ _ ⟨?_, fun k c hc => ?_⟩ ⟨rfl, rfl, hsub⟩
    · simp [hs.hardware]
    · rcases lt_or_ge k s.allcpus.length with hk | hk
      · exact hs.index k c (by rwa [List.getElem?_append_left hk] at hc)
      · obtain ⟨hkl, hc⟩ := List.getElem?_eq_some_iff.mp hc
        have hke : k = s.allcpus.length := by
          simp only [List.length_append, List.length_singleton] at hkl
          omega
        subst hke
        simp at hc
        rw [← hc]
  unfold cpuCreate
  rw [wp_bind, wp_get]
  rcases hkmem : s.kmem with _ | ⟨_ | _, rest⟩
  · exact hnew [] (by simp)
  · exact hc (hkmem ▸ List.mem_cons_self)
  · exact hnew (true :: rest) fun okay hok => hkmem ▸ List.mem_cons_of_mem _ hok

theorem createCpus_wp {s : Lamebus} {f : CpuScan} (hs : s.Has boot []) (hhw : f.hwnum = regs.below 32)
    (hbootcpu : f.hwnum[f.bootcpu]? = some boot) (hlt : (regs.othersBelow boot 32).length < 32)
    {Q : Unit → Lamebus → Prop} {E : Errno → Lamebus → Prop}
    (hQ : ∀ t, t.Has boot (regs.othersBelow boot 32) → s.SameCtl t → Q () t) :
    ((List.range f.hwnum.length).foldlM
      (fun _ i => if i ≠ f.bootcpu then cpuCreate (f.get i) else pure ()) ()).wp (false ∈ s.kmem) Q E s := by
  have hnodup : f.hwnum.Nodup := hhw ▸ CtlRegs.nodup_below 32
  apply wp_foldlM_range (fun j _ t => t.Has boot ((f.hwnum.take j).filter fun i => i ≠ boot) ∧ s.SameCtl t)
  · rintro j hj _ t ⟨ht, hsame⟩
    have hget : f.hwnum[j]? = some (f.get j) := by
      simp [CpuScan.get, List.getD, hj]
    -- an index is that of the boot processor exactly if its number is
    have hboot : j = f.bootcpu ↔ f.get j = boot := by
      constructor
      · intro he
        rw [← he, hget] at hbootcpu
        exact Option.some.inj hbootcpu
      · intro he
        rw [he, ← hbootcpu] at hget
        exact (List.getElem?_inj hj hnodup).mp hget
    rw [List.take_add_one, hget, Option.toList_some, List.filter_append, wp_ite]
    refine ⟨fun hne => ?_, fun heq => ?_⟩
    · have hnot : f.get j ≠ boot := fun he => hne (hboot.mpr he)
      have hone : [f.get j].filter (fun i => i ≠ boot) = [f.get j] := by simp [hnot]
      have hshort : ((f.hwnum.take j).filter fun i => i ≠ boot).length < 31 := by
        have hsub : ((f.hwnum.take (j + 1)).filter fun i => i ≠ boot).length ≤ (regs.othersBelow boot 32).length := by
          rw [CtlRegs.othersBelow, ← hhw]
          exact ((List.take_sublist _ _).filter _).length_le
        rw [List.take_add_one, hget, Option.toList_some, List.filter_append, hone, List.length_append,
          List.length_singleton] at hsub
        omega
      rw [hone]
      refine cpuCreate_wp ht hshort (hsame.kmem _) fun u hu hsame' => ⟨hu, ?_⟩
      exact ⟨hsame'.uniprocessor.trans hsame.uniprocessor, hsame'.cram.trans hsame.cram,
        fun okay hok => hsame.kmem okay (hsame'.kmem okay hok)⟩
    · have hboot' : f.get j = boot := hboot.mp (not_not.mp heq)
      rw [wp_pure, hboot', show [boot].filter (fun i => i ≠ boot) = [] by simp, List.append_nil]
      exact ⟨ht, hsame⟩
  · rintro _ t ⟨ht, hsame⟩
    rw [List.take_length, hhw] at ht
    exact hQ t ht hsame
  · exact ⟨by simpa using hs, rfl, rfl, fun _ hok => hok⟩

theorem routeIrqs_wp {s : Lamebus} {f : CpuScan} {l : List ℕ} {n : ℕ} {c : Prop} (hs : s.Has boot l)
    {Q : Unit → Lamebus → Prop} {E : Errno → Lamebus → Prop}
    (hQ : ∀ t, t.Has boot l → s.SameCtl t → Q () t) :
    ((List.range n).foldlM (fun _ i => routeIrqs f i) ()).wp c Q E s := by
  apply wp_foldlM_range (fun _ _ t => t.Has boot l ∧ s.SameCtl t)
  · rintro j _ _ t ⟨ht, hsame⟩
    unfold routeIrqs
    rw [wp_modify]
    exact ⟨⟨ht.hardware, ht.index⟩, hsame.uniprocessor, hsame.cram, hsame.kmem⟩
  · rintro _ t ⟨ht, hsame⟩
    exact hQ t ht hsame
  · exact ⟨hs, rfl, rfl, fun _ hok => hok⟩

/-- After `lamebus_find_cpus` the structures are those of the boot processor and of the
others in the order of the mask. -/
theorem lamebusFindCpus_wp {s : Lamebus} {hw : ℕ} (hs : s.allcpus = [⟨0, hw⟩])
    (hbus : ¬ (regs.vid = lbVendorCs161 ∧ regs.did = upbusctl)) (hboot : boot < 32)
    (hself : regs.self = 2 ^ boot) (hmask : regs.cpus.testBit boot = true)
    {Q : Unit → Lamebus → Prop} {E : Errno → Lamebus → Prop}
    (hQ : ∀ t, t.Has boot (regs.othersBelow boot 32) → s.SameCtl t → Q () t) :
    (lamebusFindCpus regs).wp (false ∈ s.kmem) Q E s := by
  unfold lamebusFindCpus
  rw [if_neg hbus, wp_bind]
  apply wp_foldlM_range (Scanned regs boot s)
  · intro i _ f t hi
    exact findCpu_wp hself hmask hi
  · rintro f t ⟨hhw, ⟨hw', rfl, hwboot⟩, hbootcpu⟩
    obtain rfl := hwboot hboot
    rw [wp_bind]
    have hhas : ({ s with allcpus := [⟨0, hw'⟩] } : Lamebus).Has hw' [] := by
      refine ⟨rfl, fun k c hc => ?_⟩
      obtain ⟨hk, hc⟩ := List.getElem?_eq_some_iff.mp hc
      obtain rfl : k = 0 := by simpa using hk
      rw [← hc]
      rfl
    refine createCpus_wp hhas hhw (hbootcpu hboot) (CtlRegs.length_othersBelow_lt hboot) fun t ht hsame => ?_
    refine routeIrqs_wp ht fun u hu hsame' => hQ u hu ?_
    exact ⟨hsame'.uniprocessor.trans hsame.uniprocessor, hsame'.cram.trans hsame.cram,
      fun okay hok => hsame.kmem okay (hsame'.kmem okay hok)⟩
  · exact ⟨by simp [CtlRegs.below], ⟨hw, by rw [← hs], fun hlt => absurd hlt (Nat.not_lt_zero _)⟩,
      fun hlt => absurd hlt (Nat.not_lt_zero _)⟩

/-! ### `lamebus_start_cpus` -/

/-- The numbers handed out are those of the list `l`, from 1 on. -/
def Lamebus.Numbered (s : Lamebus) (l : List ℕ) : Prop :=
  ∀ h k, s.cram h = some k ↔ ∃ j, k = j + 1 ∧ l[j]? = some h

theorem Lamebus.Numbered.snoc {s : Lamebus} {l : List ℕ} {h : ℕ} (hs : s.Numbered l) (hnew : h ∉ l) :
    ({ s with cram := Function.update s.cram h (some (l.length + 1)) } : Lamebus).Numbered (l ++ [h]) := by
  intro h' k
  dsimp only
  rw [Function.update_apply]
  by_cases hh : h' = h
  · subst hh
    rw [if_pos rfl, Option.some.injEq]
    constructor
    · intro hk
      exact ⟨l.length, hk.symm, by simp⟩
    · rintro ⟨j, rfl, hj⟩
      rcases lt_or_ge j l.length with hlt | hge
      · rw [List.getElem?_append_left hlt] at hj
        exact absurd (List.mem_of_getElem? hj) hnew
      · obtain ⟨hj', -⟩ := List.getElem?_eq_some_iff.mp hj
        simp only [List.length_append, List.length_singleton] at hj'
        omega
  · rw [if_neg hh, hs h' k]
    refine exists_congr fun j => and_congr_right fun _ => ?_
    rcases lt_or_ge j l.length with hlt | hge
    · rw [List.getElem?_append_left hlt]
    · rw [List.getElem?_append_right hge, List.getElem?_eq_none hge]
      simp only [reduceCtorEq, false_iff]
      intro hj
      exact hh (List.mem_singleton.mp (List.mem_of_getElem? hj))

theorem othersBelow_succ (regs : CtlRegs) (boot i : ℕ) : regs.othersBelow boot (i + 1) =
    regs.othersBelow boot i ++ if regs.cpus.testBit i = true ∧ i ≠ boot then [i] else [] := by
  rw [CtlRegs.othersBelow, CtlRegs.below_succ, List.filter_append, ← CtlRegs.othersBelow]
  congr 1
  by_cases hbit : regs.cpus.testBit i = true
  · by_cases hi : i = boot
    · simp [hi]
    · simp [hbit, hi]
  · simp [hbit]

theorem startCpu_wp {s t : Lamebus} {c : Prop} (hself : regs.self = 2 ^ boot) {i cpunum : ℕ}
    (hnum : cpunum = (regs.othersBelow boot i).length + 1) (ht : t.Numbered (regs.othersBelow boot i))
    (hsame : ∃ cram, t = { s with cram := cram }) {E : Errno → Lamebus → Prop} :
    (startCpu regs cpunum i).wp c (fun n u => n = (regs.othersBelow boot (i + 1)).length + 1 ∧
      u.Numbered (regs.othersBelow boot (i + 1)) ∧ ∃ cram, u = { s with cram := cram }) E t := by
  have hsucc := othersBelow_succ regs boot i
  unfold startCpu
  rw [wp_ite]
  refine ⟨fun hbit => ?_, fun hbit => ?_⟩
  · rw [wp_ite, CtlRegs.testBit_self hself]
    refine ⟨fun hi => ?_, fun hi => ?_⟩
    · rw [if_neg fun h => h.2 hi, List.append_nil] at hsucc
      rw [wp_pure, hsucc]
      exact ⟨hnum, ht, hsame⟩
    · rw [if_pos ⟨hbit, hi⟩] at hsucc
      rw [wp_bind, wp_modify, wp_pure, hsucc]
      have hnew : i ∉ regs.othersBelow boot i := fun hmem => lt_irrefl i (CtlRegs.mem_othersBelow.mp hmem).1
      obtain ⟨cram, rfl⟩ := hsame
      refine ⟨by rw [hnum, List.length_append, List.length_singleton], ?_, _, rfl⟩
      rw [hnum]
      exact ht.snoc hnew
  · rw [if_neg fun h => hbit h.1, List.append_nil] at hsucc
    rw [wp_pure, hsucc]
    exact ⟨hnum, ht, hsame⟩

theorem lamebusStartCpus_wp {s : Lamebus} {c : Prop} (hself : regs.self = 2 ^ boot) (huni : s.uniprocessor = false)
    (hcram : ∀ h, s.cram h = none) {Q : Unit → Lamebus → Prop} {E : Errno → Lamebus → Prop}
    (hQ : ∀ t, t.Numbered (regs.othersBelow boot 32) → t.allcpus = s.allcpus → t.cpue = some regs.cpus → Q () t) :
    (lamebusStartCpus regs).wp c Q E s := by
  unfold lamebusStartCpus
  rw [wp_bind, wp_get, if_neg (by simp [huni]), wp_bind]
  apply wp_foldlM_range (fun i n t => n = (regs.othersBelow boot i).length + 1 ∧
    t.Numbered (regs.othersBelow boot i) ∧ ∃ cram, t = { s with cram := cram })
  · rintro i _ n t ⟨hnum, ht, hsame⟩
    exact startCpu_wp hself hnum ht hsame
  · rintro n t ⟨-, ht, cram, rfl⟩
    rw [wp_modify]
    exact hQ _ ht rfl rfl
  · refine ⟨by simp [CtlRegs.othersBelow, CtlRegs.below], fun h k => ?_, s.cram, rfl⟩
    simp [CtlRegs.othersBelow, CtlRegs.below, hcram]

/-! ### The numbers agree -/

theorem Lamebus.Has.mem_iff {s : Lamebus} {l : List ℕ} (hs : s.Has boot l) {h k : ℕ} (hne : h ≠ boot) :
    (⟨k, h⟩ : BusCpu) ∈ s.allcpus ↔ ∃ j, k = j + 1 ∧ l[j]? = some h := by
  have hat : (⟨k, h⟩ : BusCpu) ∈ s.allcpus ↔ (boot :: l)[k]? = some h := by
    rw [← hs.hardware, List.getElem?_map, Option.map_eq_some_iff, List.mem_iff_getElem?]
    constructor
    · rintro ⟨j, hj⟩
      obtain rfl : k = j := hs.index j _ hj
      exact ⟨_, hj, rfl⟩
    · rintro ⟨c, hc, rfl⟩
      obtain rfl := hs.index k c hc
      exact ⟨_, hc⟩
  rw [hat]
  cases k with
  | zero => simp [Ne.symm hne]
  | succ k => simp

theorem Lamebus.Numbered.numbersAgree {t : Lamebus} (hnum : t.Numbered (regs.othersBelow boot 32))
    (hhas : t.Has boot (regs.othersBelow boot 32)) (hcpue : t.cpue = some regs.cpus) :
    t.NumbersAgree (regs.secondaries boot) := by
  have hstarted (h k : ℕ) : t.Started h k ↔ ∃ j, k = j + 1 ∧ (regs.othersBelow boot 32)[j]? = some h := by
    unfold Lamebus.Started
    rw [← hnum h k, and_iff_right_iff_imp]
    intro hk
    obtain ⟨j, -, hj⟩ := (hnum h k).mp hk
    exact ⟨_, hcpue, (CtlRegs.mem_othersBelow.mp (List.mem_of_getElem? hj)).2.1⟩
  have hmem (h : ℕ) : h ∈ regs.secondaries boot ↔ h ∈ regs.othersBelow boot 32 := by
    rw [CtlRegs.secondaries, Finset.mem_filter, Finset.mem_range, CtlRegs.mem_othersBelow]
  refine ⟨fun h => ?_, fun h hh k => ?_, hhas.index, fun h h' k hk hk' => ?_, fun k => ?_⟩
  · rw [hmem, List.mem_iff_getElem?]
    constructor
    · rintro ⟨j, hj⟩
      exact ⟨j + 1, (hstarted h _).mpr ⟨j, rfl, hj⟩⟩
    · rintro ⟨k, hk⟩
      obtain ⟨j, -, hj⟩ := (hstarted h k).mp hk
      exact ⟨j, hj⟩
  · rw [hstarted, hhas.mem_iff (CtlRegs.mem_othersBelow.mp ((hmem h).mp hh)).2.2]
  · obtain ⟨j, rfl, hj⟩ := (hstarted h k).mp hk
    obtain ⟨j', hjj, hj'⟩ := (hstarted h' _).mp hk'
    obtain rfl : j = j' := by omega
    exact Option.some.inj (hj.symm.trans hj')
  · rw [CtlRegs.card_secondaries]
    constructor
    · rintro ⟨h, hk⟩
      obtain ⟨j, rfl, hj⟩ := (hstarted h k).mp hk
      have := (List.getElem?_eq_some_iff.mp hj).1
      omega
    · rintro ⟨h1, hle⟩
      obtain ⟨j, rfl⟩ : ∃ j, k = j + 1 := ⟨k - 1, by omega⟩
      exact ⟨_, (hstarted _ _).mpr ⟨j, rfl, List.getElem?_eq_getElem (by omega)⟩⟩

/-- On a bus that reports its processors, the numbers that the others are started with
are those of their structures. Only `cpu_create` can panic, for want of memory. -/
theorem cpu_numbers_agree (regs : CtlRegs) (boot : ℕ) (hbus : ¬ (regs.vid = lbVendorCs161 ∧ regs.did = upbusctl))
    (hboot : boot < 32) (hself : regs.self = 2 ^ boot) (hmask : regs.cpus.testBit boot = true) (hw : ℕ)
    (cirqe : ℕ → ℕ) (kmem : List Bool) :
    (bringUpCpus regs).wp (false ∈ kmem) (fun _ t => t.NumbersAgree (regs.secondaries boot)) (fun _ _ => False)
      (Lamebus.booted hw cirqe kmem) := by
  unfold bringUpCpus
  rw [wp_bind]
  refine lamebusFindCpus_wp (s := Lamebus.booted hw cirqe kmem) rfl hbus hboot hself hmask fun t ht hsame => ?_
  refine lamebusStartCpus_wp hself hsame.uniprocessor (fun h => by rw [hsame.cram]; rfl) fun u hu hcpus hcpue => ?_
  refine hu.numbersAgree ⟨by rw [hcpus]; exact ht.hardware, fun k c hc => ht.index k c (hcpus ▸ hc)⟩ hcpue

/-- Processors 0, 2, 3 and 31, booted on 2. -/
theorem cpu_numbers_agree_four : (⟨1, 10, 2147483661, 4⟩ : CtlRegs).self = 2 ^ 2 ∧
    (bringUpCpus ⟨1, 10, 2147483661, 4⟩).wp False
      (fun _ t => t.NumbersAgree ((⟨1, 10, 2147483661, 4⟩ : CtlRegs).secondaries 2)) (fun _ _ => False)
      (Lamebus.booted 0 (fun _ => 0) []) := by
  have h := cpu_numbers_agree ⟨1, 10, 2147483661, 4⟩ 2 (by decide) (by decide) rfl (by decide) 0 (fun _ => 0) []
  rw [show (false ∈ ([] : List Bool)) = False by simp] at h
  exact ⟨rfl, h⟩

end Os161
