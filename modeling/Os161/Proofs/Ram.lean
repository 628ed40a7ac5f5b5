import Os161.Spec.Dumbvm

/-! What `ram_stealmem` hands out. The end of a range is computed modulo `2 ^ 32`,
so a large enough request moves `firstpaddr` backwards. -/

namespace Os161

/-- A call either fails and changes nothing, or moves `firstpaddr` to the end of
what it returns, modulo `2 ^ 32`. -/
theorem ramStealmem_cases (npages : ℕ) (ram : Ram) :
    (ram.lastpaddr < (ram.firstpaddr + npages * pageSize) % 4294967296 ∧
      ramStealmem npages ram = (0, ram)) ∨
    ((ram.firstpaddr + npages * pageSize) % 4294967296 ≤ ram.lastpaddr ∧
      (ramStealmem npages ram).1 = ram.firstpaddr ∧
      (ramStealmem npages ram).2.firstpaddr = (ram.firstpaddr + npages * pageSize) % 4294967296 ∧
      (ramStealmem npages ram).2.lastpaddr = ram.lastpaddr) := by
  have htop : (ram.firstpaddr + npages * pageSize % 4294967296) % 4294967296 =
      (ram.firstpaddr + npages * pageSize) % 4294967296 := Nat.add_mod_mod ..
  unfold ramStealmem
  simp only [htop]
  split_ifs with h
  · exact .inl ⟨h, rfl⟩
  · exact .inr ⟨Nat.le_of_not_lt h, rfl, rfl, rfl⟩

theorem stealStep_eq (s : StealLog) (npages : UInt32) :
    stealStep s npages = some
      { ram := (ramStealmem npages.toNat s.ram).2
        stolen := if (ramStealmem npages.toNat s.ram).1 = 0 then s.stolen
          else ⟨(ramStealmem npages.toNat s.ram).1, npages.toNat⟩ :: s.stolen } := rfl

/-- What the calls so far leave: their ranges are below `firstpaddr`. -/
structure StealLog.Below (ram : Ram) (s : StealLog) : Prop where
  last : s.ram.lastpaddr = ram.lastpaddr
  first : ram.firstpaddr ≤ s.ram.firstpaddr
  room : s.stolen ≠ [] → s.ram.firstpaddr ≤ ram.lastpaddr
  below : ∀ r ∈ s.stolen, ram.firstpaddr ≤ r.paddr ∧ r.paddr ≠ 0 ∧ r.top ≤ s.ram.firstpaddr
  disjoint : s.stolen.Pairwise fun r q => r.top ≤ q.paddr ∨ q.top ≤ r.paddr

variable {ram : Ram} {s t : StealLog} {npages : UInt32}

theorem StealLog.Below.right (h : s.Below ram) : s.Right ram := by
  refine ⟨?_, h.disjoint⟩
  intro r hr
  have hroom := h.room (List.ne_nil_of_mem hr)
  obtain ⟨hfirst, -, htop⟩ := h.below r hr
  exact ⟨hfirst, htop.trans hroom⟩

theorem StealLog.Below.start : (StealLog.mk ram []).Below ram :=
  ⟨rfl, le_rfl, by simp, by simp, List.Pairwise.nil⟩

/-- With `firstpaddr` at 0 nothing has been handed out yet. -/
theorem StealLog.Below.nil (h : s.Below ram) (h0 : s.ram.firstpaddr = 0) : s.stolen = [] := by
  rw [List.eq_nil_iff_forall_not_mem]
  intro r hr
  obtain ⟨-, hne, htop⟩ := h.below r hr
  unfold Stolen.top at htop
  omega

theorem StealLog.Below.step (h : s.Below ram) (hfits : s.Fits npages)
    (hst : stealStep s npages = some t) : t.Below ram := by
  rw [stealStep_eq, Option.some_inj] at hst
  subst hst
  obtain ⟨-, heq⟩ | ⟨hle, haddr, htop, hlast⟩ := ramStealmem_cases npages.toNat s.ram
  · simpa [heq] using h
  simp only [haddr]
  by_cases h0 : s.ram.firstpaddr = 0
  · have hnil := h.nil h0
    have hfirst := h.first
    refine ⟨hlast.trans h.last, by omega, ?_, ?_, ?_⟩ <;> simp [h0, hnil]
  have hwrap : s.ram.firstpaddr + npages.toNat * pageSize < 4294967296 := by
    rcases hfits with h' | h' | h'
    · exact absurd h' h0
    · exact h'
    · omega
  rw [Nat.mod_eq_of_lt hwrap] at hle htop
  rw [if_neg h0]
  refine ⟨hlast.trans h.last, ?_, ?_, ?_, ?_⟩
  · have hfirst := h.first
    show ram.firstpaddr ≤ (ramStealmem npages.toNat s.ram).2.firstpaddr
    omega
  · intro _
    show (ramStealmem npages.toNat s.ram).2.firstpaddr ≤ ram.lastpaddr
    rw [htop, ← h.last]
    exact hle
  · intro r hr
    show _ ∧ _ ∧ r.top ≤ (ramStealmem npages.toNat s.ram).2.firstpaddr
    rw [htop]
    rcases List.mem_cons.mp hr with rfl | hr
    · exact ⟨h.first, h0, le_rfl⟩
    · obtain ⟨hfirst, hne, hbelow⟩ := h.below r hr
      exact ⟨hfirst, hne, by omega⟩
  · rw [List.pairwise_cons]
    refine ⟨?_, h.disjoint⟩
    intro q hq
    exact .inr (h.below q hq).2.2

/-- A call whose range would end past the last address is not right. -/
theorem StealLog.Right.fits (h : t.Right ram)
    (hst : stealStep s npages = some t) : s.Fits npages := by
  rw [stealStep_eq, Option.some_inj] at hst
  subst hst
  obtain ⟨hlt, -⟩ | ⟨-, haddr, -, -⟩ := ramStealmem_cases npages.toNat s.ram
  · exact .inr (.inr hlt)
  by_cases h0 : s.ram.firstpaddr = 0
  · exact .inl h0
  have htop := (h.inside ⟨s.ram.firstpaddr, npages.toNat⟩ (by simp [haddr, h0])).2
  have hword := ram.last_word
  unfold Stolen.top at htop
  exact .inr (.inl (lt_of_le_of_lt htop hword))

theorem allSteps_fits {calls : List UInt32}
    (h : AllStates stealStep (StealLog.Right ram) ⟨ram, []⟩ calls) :
    AllSteps stealStep StealLog.Fits ⟨ram, []⟩ calls := by
  apply allSteps_of_states (I := StealLog.Below ram) _ .start allSteps_true h
  intro s n t hs _ hst ht
  have hfits := ht.fits hst
  exact ⟨hfits, hs.step hfits hst⟩

/-- The ranges handed out are disjoint and inside the memory exactly in the runs
in which no range asked for wraps around the end of the address space unnoticed. -/
theorem ram_stealmem_run (ram : Ram) (calls : List UInt32) :
    AllStates stealStep (StealLog.Right ram) ⟨ram, []⟩ calls ↔
      AllSteps stealStep StealLog.Fits ⟨ram, []⟩ calls := by
  constructor
  · exact allSteps_fits
  · intro h
    apply AllStates.mono (P := StealLog.Below ram)
    · intro s hs
      exact hs.right
    · apply allStates_of_inv _ .start h
      intro s n t hs hfits hst
      exact hs.step hfits hst

/-- A machine with 4 MB, of which the kernel and its first allocations take `0x50000` bytes. -/
def ram4M : Ram := ⟨0x50000, 0x400000, by decide, by decide⟩

/-- A request for `2 ^ 20 - 1` pages, as a segment of nearly 4 GB makes it, succeeds. -/
theorem ram_stealmem_wraps :
    ¬ AllStates stealStep (StealLog.Right ram4M) ⟨ram4M, []⟩ [1048575] := by
  intro h
  exact absurd (allSteps_fits h) (by decide +kernel)

end Os161
