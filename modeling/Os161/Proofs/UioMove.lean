import Os161.Proofs.Uio

/-! A residue that ends inside an iovec is overshot by a longer request. So `uiomove` does what
it is to do just if the request is no longer than `uio_resid`, or the residue ends with an
iovec. -/

namespace Os161

theorem movesRight_of_fit {u : Uio} {ptr : List UInt8} (hmem : u.resid ≤ u.iov.flatten.length)
    (hword : u.resid < 4294967296) (hfit : ptr.length ≤ u.resid ∨ EndsAt u.iov u.resid) : u.MovesRight ptr := by
  have hend := uiomove_end hmem hword hfit
  unfold Uio.MovesRight Op.wp
  cases hr : uiomove ptr u with
  | ok ptr' u' =>
    rw [hr] at hend
    exact ⟨hend.1, hend.2.1⟩
  | err e u' =>
    rw [hr] at hend
    exact hend
  | panic =>
    rw [hr] at hend
    exact hend

theorem zerosRight_of_fit {u : Uio} {n : ℕ} (hrw : u.rw = .read) (hmem : u.resid ≤ u.iov.flatten.length)
    (hword : u.resid < 4294967296) (hfit : n ≤ u.resid ∨ EndsAt u.iov u.resid) : u.ZerosRight n := by
  unfold Uio.ZerosRight uiomovezeros
  rw [Op.wp_bind, Op.wp_get, Op.wp_bind, Op.wp_kassert_of hrw]
  exact (uiomovezerosLoop_end le_rfl hrw hmem hword hfit).mono (fun _ _ h => h.1) fun _ _ h => h

theorem ok_of_movedBefore {moved ptr : List UInt8} {r : Res Uio Errno (List UInt8)} {u : Uio}
    (h : movedBefore moved r = .ok ptr u) : ∃ l, r = .ok l u := by
  cases r with
  | ok l v =>
    cases h
    exact ⟨l, rfl⟩
  | err e v => cases h
  | panic => cases h

/-- The iovec in which the residue ends is copied as far as the buffer goes. -/
theorem uiomoveLoop_overshoots (iov : List (List UInt8)) (ptr : List UInt8) (u : Uio) : ∀ ptr' u',
    uiomoveLoop iov ptr u = .ok ptr' u' → u.passed.length ≤ u'.passed.length ∧
      (u.seg = .sys → u.resid < 4294967296 → u.resid < ptr.length → ¬ EndsAt iov u.resid →
        u.passed.length + u.resid < u'.passed.length) := by
  refine uiomoveLoop_rule (P := fun iov ptr u r => ∀ ptr' u', r = .ok ptr' u' → u.passed.length ≤ u'.passed.length ∧
    (u.seg = .sys → u.resid < 4294967296 → u.resid < ptr.length → ¬ EndsAt iov u.resid →
      u.passed.length + u.resid < u'.passed.length)) ?stop ?out ?skip ?fault ?last ?full ?next iov ptr u
  case stop =>
    intro iov ptr u hdone ptr' u' h
    cases h
    refine ⟨le_rfl, fun _ _ hlong hends => ?_⟩
    rcases hdone with rfl | hzero
    · exact absurd hlong (Nat.not_lt_zero _)
    · exact absurd ⟨0, hzero.symm⟩ hends
  case out =>
    intro ptr u _ ptr' u' h
    cases h
  case skip =>
    intro rest ptr u r hgo ih ptr' u' h
    refine ⟨(ih ptr' u' h).1, fun hseg hword hlong hends => (ih ptr' u' h).2 hseg hword hlong fun hat => hends ?_⟩
    exact endsAt_cons.mpr (Or.inr ⟨Nat.zero_le _, hat⟩)
  case fault =>
    intro buf rest ptr u seg _ _ _ ptr' u' h
    cases h
  case last =>
    intro buf rest ptr u seg moved _ _ hle _ hlen ptr' u' h
    cases h
    have hpassed : (u.advance moved seg).passed.length = u.passed.length + ptr.length := by simp [Uio.advance, hlen]
    dsimp only
    exact ⟨by omega, fun _ _ hlong _ => by omega⟩
  case full =>
    intro buf rest ptr u seg moved hgo _ hlt _ hlen hzero ptr' u' h
    cases h
    have hpassed : (u.advance moved seg).passed.length = u.passed.length + buf.length := by simp [Uio.advance, hlen]
    dsimp only
    refine ⟨by omega, fun _ hword _ hends => ?_⟩
    by_contra hover
    have hfits : buf.length ≤ u.resid := by omega
    simp only [Uio.advance, hlen, u32_sub hfits hword] at hzero
    exact hends (endsAt_cons.mpr (Or.inr ⟨hfits, 0, hzero.symm⟩))
  case next =>
    intro buf rest ptr u seg moved r hgo hcopy hlt _ hlen _ ih ptr' u' h
    obtain ⟨l, hr⟩ := ok_of_movedBefore h
    obtain ⟨hle, hrest⟩ := ih l u' hr
    have hpassed : (u.advance moved seg).passed.length = u.passed.length + buf.length := by simp [Uio.advance, hlen]
    refine ⟨by omega, fun hseg hword hlong hends => ?_⟩
    rcases Nat.lt_or_ge u.resid buf.length with hover | hunder
    · omega
    · -- the residue reaches behind this iovec
      have hleft : (u.advance moved seg).resid = u.resid - buf.length := by
        simp only [Uio.advance, hlen, u32_sub hunder hword]
      rw [hseg] at hcopy
      have := hrest (Prod.mk.inj hcopy).2.symm (by omega) (by rw [hleft, List.length_drop]; omega)
        (fun hat => hends (endsAt_cons.mpr (Or.inr ⟨hunder, hleft ▸ hat⟩)))
      omega

/-- Two iovecs, the first of which is empty, and a residue of two bytes of three. -/
def twoOfThree : Uio := ⟨[[], [1, 2, 3]], [], 0, 2, .sys, .read⟩

end Os161
