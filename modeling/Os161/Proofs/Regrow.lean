import Os161.Proofs.Offsets
import Os161.Spec.Regrow

/-! What was cut off a file by a truncation comes back when the file grows again, where
the truncation left the block in the file: `sfs_itrunc` clears no bytes, and behind the
indirect block it leaves one block too many. -/

namespace Os161

variable {s t : Sfs} {i a start : ℕ}

theorem not_truncGone_iff {n fb : ℕ} : ¬ TruncGone n fb ↔ fb < n ∨ (15 ≤ fb ∧ (fb = n ∨ 142 ≤ n)) := by
  unfold TruncGone
  split_ifs <;> omega

theorem Vol.Trunc.fbyte_gone {V V' : Vol} {blocklen size : ℕ} (h : V.Trunc V' i blocklen size) {k : ℕ}
    (hgone : TruncGone blocklen (k / 512)) : V'.fbyte i k = 0 := by
  by_cases hk : k / 512 < 143
  · rw [Vol.fbyte, Vol.data, if_pos (h.gone _ hk hgone), Bytes.byte_zero]
  · exact Vol.fbyte_big (by omega)

/-- What is kept from call to call. -/
structure Sfs.Cleared (i a start : ℕ) (s : Sfs) : Prop where
  inv : s.Inv False [] 0
  small : s.nblocks ≤ 8388608
  loaded : s.vol.loaded i
  file : i ≠ 1
  zeros : ∀ k, a ≤ k → k < start → s.vol.fbyte i k = 0

/-- A patch of another file, or behind `start`. -/
theorem Sfs.Cleared.patched (h : s.Cleared i a start) (hst : s.Stays False t) {j off : ℕ} {l : List UInt8}
    (hp : s.vol.Patched t.vol j off l) (hoff : j = i → l ≠ [] → start ≤ off) : t.Cleared i a start where
  inv := hst.inv
  small := hst.nblocks.trans_le h.small
  loaded := hst.loaded h.loaded
  file := h.file
  zeros k hk hlt := by
    rw [hp.fbyte i (Sfs.inode_of_loaded h.loaded), if_neg ?_]
    · exact h.zeros k hk hlt
    · rintro ⟨hji, hge, hin⟩
      have hne : l ≠ [] := by
        rw [← List.length_pos_iff]
        omega
      have := hoff hji.symm hne
      omega

theorem Sfs.Cleared.extended (h : t.Cleared i a start) {j : ℕ} (hl : t.vol.loaded j) (hj1 : j ≠ 1) (n : ℕ) (u : Uio) :
    (t.extended j n u).Cleared i a start where
  inv := (Sfs.extended_stays (.refl h.inv) hl hj1 n u).inv
  small := (Sfs.extended_stays (.refl h.inv) hl hj1 n u).nblocks.trans_le h.small
  loaded := (Sfs.extended_stays (.refl h.inv) hl hj1 n u).loaded h.loaded
  file := h.file
  zeros k hk hlt := by
    rw [Sfs.extended_fbyte h.inv hl hj1 n u (Sfs.inode_of_loaded h.loaded)]
    exact h.zeros k hk hlt

/-- Where a write puts bytes into file `i`, it is behind `start`. -/
theorem writesBehind_pos {off pos : ℕ} (hpos : pos = off % 2199023255552) (hbehind : start ≤ off ∧ ¬ WrapsLow off)
    (hfb : pos / 512 < 143) : start ≤ pos := by
  obtain ⟨hstart, hlow⟩ := hbehind
  have hsmall : off < 2199023255552 := by
    by_contra hge
    exact hlow ⟨by omega, by omega⟩
  omega

theorem Sfs.Cleared.write (h : s.Cleared i a start) {r : FileReq} {off : ℕ} (hr : r.IsWrite s off)
    (hbehind : r.ino = i → start ≤ off ∧ ¬ WrapsLow off) (hst : growStep s (.write r) = some t) : t.Cleared i a start := by
  have hgo := hr.pouring h.inv
  have henough := hr.enough
  have hwp : (sfsIo r.ino).wp False (fun _ q => q.1.Cleared i a start) (fun _ q => q.1.Cleared i a start) (s, r.uio) := by
    apply (hr.io_wp h.inv).mono
    · intro _ q hq
      obtain ⟨t₀, hparts, ht⟩ := hq
      rw [ht]
      apply Sfs.Cleared.extended _ (hparts.stays.loaded hr.loaded) hgo.file
      apply h.patched hparts.stays hparts.patched
      intro hji hne
      refine writesBehind_pos rfl (hbehind hji) (hparts.low.resolve_left ?_).1
      intro hnil
      rw [hnil, List.sum_nil, List.take_zero] at hne
      exact hne rfl
    · intro e q hq
      obtain ⟨t₀, d, m, hgiven, ht⟩ := hq
      rw [ht]
      apply Sfs.Cleared.extended _ (hgiven.stays.loaded hr.loaded) hgo.file
      apply h.patched hgiven.stays hgiven.patched
      intro hji hne
      refine writesBehind_pos rfl (hbehind hji) (hgiven.low.resolve_left ?_).1
      intro hzero
      rw [show d = 0 by omega, List.take_zero] at hne
      exact hne rfl
  obtain ⟨q, hq, hqt⟩ := Option.map_eq_some_iff.mp hst
  rw [← hqt]
  exact hwp.after hq

theorem Sfs.Cleared.truncate (h : s.Cleared i a start) {j len : ℕ} (hl : s.vol.loaded j)
    (hfile : (s.vol.block j).sfiType = sfsTypeFile) (hst : growStep s (.truncate j len) = some t) : t.Cleared i a start := by
  have hj1 : j ≠ 1 := by
    intro h1
    rw [h1, h.inv.dir.rootType] at hfile
    exact absurd hfile (by decide)
  have hwp : (sfsItrunc j len).wp False (fun _ t => t.Cleared i a start) (fun _ t => t.Cleared i a start) s := by
    apply (sfsItrunc_inv h.inv hl hj1 len).mono
    · intro _ t ht
      refine ⟨ht.1.inv, ht.1.nblocks.trans_le h.small, ht.1.loaded h.loaded, h.file, ?_⟩
      intro k hk hlt
      by_cases hgone : i = j ∧ TruncGone (u32 (((len + 511) / 512 : ℕ) : ℤ)) (k / 512)
      · obtain ⟨rfl, hgone⟩ := hgone
        exact ht.2.fbyte_gone hgone
      · rw [ht.2.fbyte (Sfs.inode_of_loaded h.loaded) k hgone]
        exact h.zeros k hk hlt
    · intro e t ht
      exact ht.elim
  exact hwp.after hst

theorem Sfs.Cleared.step (h : s.Cleared i a start) {e : GrowEv} (he : e.WritesBehind i start s)
    (hst : growStep s e = some t) : t.Cleared i a start := by
  cases e with
  | write r =>
    obtain ⟨off, hr, hbehind⟩ := he
    exact h.write hr hbehind hst
  | truncate ino len => exact h.truncate he.1 he.2 hst

/-- What a truncation leaves of a byte. -/
theorem itrunc_fbyte (hs : s.Inv False [] 0) (hl : s.vol.loaded i) (hi1 : i ≠ 1) (ha : a ≤ 143 * 512)
    (ht : sfsItrunc i a s = .ok () t) (k : ℕ) : t.vol.fbyte i k = 0 ∨
      (¬ TruncGone ((a + 511) / 512) (k / 512) ∧ t.vol.fbyte i k = s.vol.fbyte i k) := by
  have hwp := sfsItrunc_inv hs hl hi1 a
  rw [Op.wp_of_ok ht, u32_natCast (by omega)] at hwp
  by_cases hgone : TruncGone ((a + 511) / 512) (k / 512)
  · exact .inl (hwp.2.fbyte_gone hgone)
  · refine .inr ⟨hgone, ?_⟩
    apply hwp.2.fbyte (Sfs.inode_of_loaded hl)
    exact fun h => hgone h.2

end Os161
