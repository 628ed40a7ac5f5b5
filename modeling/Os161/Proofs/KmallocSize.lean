import Os161.Proofs.KheapRun
import Os161.Spec.Dumbvm

/-! How much `kmalloc` gives. A request near the end of the 32-bit range is rounded up
past it, to no pages at all. -/

namespace Os161

variable {s s' : KmallocSys} {sz : UInt32} {npages : UInt32}

/-- The number of pages is rounded up as it should be, unless the sum wraps. -/
theorem kmallocWay_pages (h : kmallocWay sz = .pages npages) :
    npages.toNat = (sz.toNat + 4095) % 4294967296 / 4096 ∧ 2048 ≤ sz.toNat := by
  unfold kmallocWay at h
  simp only [UInt32.add_zero] at h
  split_ifs at h with hle
  have hn := KmallocWay.pages.inj h
  rw [UInt32.le_iff_toNat_le] at hle
  refine ⟨?_, hle⟩
  have hlt := sz.toNat_lt
  rw [← hn, UInt32.toNat_div, UInt32.toNat_sub, UInt32.toNat_add]
  simp only [UInt32.reduceToNat]
  omega

theorem npages_enough (h : kmallocWay sz = .pages npages) (hsz : sz.toNat ≤ 4294963200) :
    sz.toNat ≤ npages.toNat * 4096 ∧ (0 < sz → 1 ≤ npages) := by
  obtain ⟨hn, hle⟩ := kmallocWay_pages h
  refine ⟨by omega, fun _ => ?_⟩
  rw [UInt32.le_iff_toNat_le]
  change 1 ≤ npages.toNat
  omega

theorem npages_zero (h : kmallocWay sz = .pages npages) (hsz : 4294963200 < sz.toNat) : npages.toNat = 0 := by
  have hlt := sz.toNat_lt
  rw [(kmallocWay_pages h).1]
  omega

/-- The subpage allocator agrees with itself, and large blocks have the pages that they
were counted for. -/
structure KmallocSys.Inv (s : KmallocSys) : Prop where
  sub : s.sub.Inv False False
  large : ∀ b ∈ s.large, kmallocWay b.sz = .pages b.npages

theorem kheapStep_map {e : KheapEv} (h : s.Inv)
    (hs : (kheapStep s.sub e).map (fun sub => { s with sub := sub }) = some s') : s'.Inv := by
  obtain ⟨sub, hsub, rfl⟩ := Option.map_eq_some_iff.mp hs
  exact ⟨kheapStep_inv h.sub False.elim False.elim hsub, h.large⟩

theorem kmallocStep_inv {e : KmallocEv} (h : s.Inv) (hs : kmallocStep s e = some s') : s'.Inv := by
  cases e with
  | kmalloc t sz va =>
    simp only [kmallocStep] at hs
    cases hway : kmallocWay sz with
    | subpage =>
      simp only [hway] at hs
      exact kheapStep_map h hs
    | pages npages =>
      simp only [hway] at hs
      split_ifs at hs with hva hal
      · obtain rfl := Option.some.inj hs
        exact h
      · obtain rfl := Option.some.inj hs
        refine ⟨h.sub, ?_⟩
        intro b hb
        rcases List.mem_cons.mp hb with rfl | hb
        · exact hway
        · exact h.large b hb
  | sub e =>
    cases e with
    | kmalloc t sz => exact absurd hs (by simp [kmallocStep])
    | _ => exact kheapStep_map h hs

theorem KmallocSys.Inv.enough (h : s.Inv) (hsz : sz.toNat ≤ 4294963200) : s.Enough sz := by
  obtain ⟨pages, hpages⟩ := h.sub
  refine ⟨⟨_, hpages.agree, fun b hb heq => ?_⟩, fun b hb heq => ?_⟩
  · rw [← heq]
    exact (hpages.agree.live b hb).1
  · have hway := h.large b hb
    rw [heq] at hway
    exact npages_enough hway hsz

/-- Whatever `kmalloc` returns for `sz` bytes is large enough, in every run, exactly if
`sz` can be rounded up to whole pages in 32 bits. -/
theorem kmalloc_size (refs : ℕ → Pageref) (mem : ℕ → ℕ) (sz : UInt32) :
    (∀ evs, AllStates kmallocStep (KmallocSys.Enough sz) (KmallocSys.init refs mem) evs) ↔ sz.toNat ≤ 4294963200 := by
  constructor
  · intro hall
    by_contra hgt
    have hway : ∃ npages, kmallocWay sz = .pages npages := by
      refine ⟨_, if_pos ?_⟩
      rw [UInt32.add_zero, UInt32.add_zero, UInt32.le_iff_toNat_le]
      change 2048 ≤ sz.toNat
      omega
    obtain ⟨npages, hway⟩ := hway
    -- `alloc_kpages` is asked for no page, and returns an address
    have hstep : kmallocStep (KmallocSys.init refs mem) (.kmalloc 0 sz 4096) =
        some { KmallocSys.init refs mem with large := [⟨4096, sz, npages⟩] } := by
      simp only [kmallocStep, hway]
      rfl
    have hbad := ((hall [.kmalloc 0 sz 4096]).2 _ hstep).large ⟨4096, sz, npages⟩ List.mem_cons_self rfl
    have hzero := npages_zero hway (by omega)
    rw [hzero] at hbad
    omega
  · intro hsz evs
    have hinit : (KmallocSys.init refs mem).Inv := by
      refine ⟨KheapSys.init_inv refs mem, ?_⟩
      intro b hb
      exact absurd hb List.not_mem_nil
    exact (allStates_of_step (fun _ _ _ => kmallocStep_inv) hinit evs).mono fun s hs => hs.enough hsz

/-- All 32-bit sizes but the last 4095 are fine; for the largest one `kmalloc` asks for
no page, and `ram_stealmem` gives the address where free memory starts. -/
theorem kmalloc_no_pages : kmallocWay 4294967295 = .pages 0 ∧
    (ramStealmem 0 ⟨4096, 8388608, by decide, by decide⟩).1 = 4096 ∧
    ∃ s, exec kmallocStep (KmallocSys.init (fun _ => ⟨0, 0, 0, 0, 0⟩) fun _ => 0)
      [.kmalloc 0 4294967295 2147487744] = some s ∧ ¬ s.Enough 4294967295 := by
  refine ⟨by decide, by decide, _, rfl, ?_⟩
  intro h
  have hbad := (h.large _ List.mem_cons_self rfl).1
  exact absurd hbad (by decide)

end Os161
