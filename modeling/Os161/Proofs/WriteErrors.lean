import Os161.Proofs.FileWrite

/-! Writes that end in an error: what `uio_resid` says about what is in the file. -/

namespace Os161

variable {s t : Sfs} {r : FileReq} {off d m : ℕ} {e : Errno} {u : Uio}

theorem headParts_congr {off off' : ℕ} (h : off % 512 = off' % 512) (n : ℕ) : headParts off n = headParts off' n := by
  unfold headParts
  rw [h]

theorem parts_congr {off off' : ℕ} (h : off % 512 = off' % 512) (n : ℕ) : parts off n = parts off' n := by
  unfold parts
  rw [headParts_congr h]

/-- An offset is a multiple of 2^41, which the numbers of file blocks do not show, and a rest. -/
theorem FileReq.IsWrite.pouring (hs : s.Inv False [] 0) (hr : r.IsWrite s off) :
    Pouring r.ino (off / 2199023255552 * 2199023255552) (off % 2199023255552) (s, r.uio) where
  inv := hs
  small := hr.small
  loaded := hr.loaded
  file := by
    intro h1
    have hfile := hr.file
    rw [h1, hs.dir.rootType] at hfile
    exact absurd hfile (by decide)
  write := hr.write
  enough := hr.enough
  word := hr.word
  offset := by
    rw [hr.offset]
    congr 1
    omega
  whole := Nat.mul_mod_left ..
  low := Nat.mod_lt _ (by decide)

theorem FileReq.IsWrite.io_wp (hs : s.Inv False [] 0) (hr : r.IsWrite s off) :
    (sfsIo r.ino).wp False
      (fun _ q => ∃ t, Parts r.ino (off % 2199023255552) (parts off r.uio.resid) (s, r.uio) (t, q.2) ∧
        q.1 = t.extended r.ino r.uio.resid q.2)
      (fun e q => ∃ t d m, GivenUp r.ino (off % 2199023255552) (parts off r.uio.resid) (s, r.uio) d m e (t, q.2) ∧
        q.1 = t.extended r.ino r.uio.resid q.2) (s, r.uio) := by
  rw [parts_congr (show off % 512 = off % 2199023255552 % 512 by omega)]
  exact sfsIo_pour (hr.pouring hs)

/-- When nothing was moved, nothing has changed. -/
theorem GivenUp.accounted_none {lens : List ℕ} (h : GivenUp r.ino (off % 2199023255552) lens (s, r.uio) d m e (t, u))
    (hs : s.Inv False [] 0) (hr : r.IsWrite s off) (hzero : d + m = 0) :
    r.Accounted s off (t.extended r.ino r.uio.resid u) u := by
  have hi := Sfs.inode_of_loaded hr.loaded
  have hit := Sfs.inode_of_loaded (h.stays.loaded hr.loaded)
  have hi1 := (hr.pouring hs).file
  have hresid := h.advanced.resid
  rw [hzero, List.take_zero, List.length_nil, Nat.add_zero] at hresid
  have hpatched := h.patched
  obtain rfl : d = 0 := by omega
  rw [List.take_zero] at hpatched
  simp only at hresid
  refine ⟨hresid.le, ?_, ?_, ?_⟩
  · intro k hk
    omega
  · intro k _
    rw [Sfs.extended_fbyte h.stays.inv (h.stays.loaded hr.loaded) hi1 _ _ hit, hpatched.fbyte _ hi,
      if_neg (by rw [List.length_nil]; omega)]
  · rw [Sfs.extended_size h.stays.inv (h.stays.loaded hr.loaded) hi1, if_neg (by simp [hresid]), if_pos hresid,
      (hpatched.head _ hi).size]

/-- When something was moved, what is in doubt is the part that was given up. -/
theorem GivenUp.accounted_iff {lens : List ℕ} (h : GivenUp r.ino off lens (s, r.uio) d m e (t, u)) (hs : s.Inv False [] 0)
    (hr : r.IsWrite s off) (hpos : 0 < d + m) :
    r.Accounted s off (t.extended r.ino r.uio.resid u) u ↔
      ∀ k < m, s.vol.fbyte r.ino (off + d + k) = r.uio.iov.flatten.getD (d + k) 0 := by
  have hi := Sfs.inode_of_loaded hr.loaded
  have hit := Sfs.inode_of_loaded (h.stays.loaded hr.loaded)
  have hi1 := (hr.pouring hs).file
  have hwithin : d + m ≤ r.uio.resid := h.within
  have henough := hr.enough
  have hl (k : ℕ) (hk : k ≤ r.uio.resid) : (r.uio.iov.flatten.take k).length = k :=
    List.length_take_of_le (hk.trans henough)
  have hlow := h.low.resolve_left (by omega)
  have hresid : u.resid + (d + m) = r.uio.resid := by
    have hresid := h.advanced.resid
    rw [hl _ hwithin] at hresid
    exact hresid
  have hoffset : u.offset = (off + d + m : ℕ) := by
    have hoffset := h.advanced.offset
    rw [hl _ hwithin] at hoffset
    simp only at hoffset
    rw [hoffset, hr.offset]
    push_cast
    ring
  have hamount : r.uio.resid - u.resid = d + m := by omega
  -- the bytes of the file afterwards
  have hbyte (k : ℕ) : (t.extended r.ino r.uio.resid u).vol.fbyte r.ino k =
      if off ≤ k ∧ k < off + d then r.uio.iov.flatten.getD (k - off) 0 else s.vol.fbyte r.ino k := by
    rw [Sfs.extended_fbyte h.stays.inv (h.stays.loaded hr.loaded) hi1 _ _ hit, h.patched.fbyte _ hi, hl d (by omega)]
    simp only [true_and]
    split_ifs with hin
    · simp only [List.getD_eq_getElem?_getD]
      rw [List.getElem?_take_of_lt (by omega)]
    · rfl
  have hsize : ((t.extended r.ino r.uio.resid u).vol.block r.ino).sfiSize =
      max (s.vol.block r.ino).sfiSize (off + (d + m)) := by
    rw [Sfs.extended_size h.stays.inv (h.stays.loaded hr.loaded) hi1, (h.patched.head _ hi).size, hoffset]
    split_ifs with hgrow
    · rw [u32_natCast (by omega)]
      have hlt := hgrow.2.2
      simp only at hlt
      omega
    · have hge : ¬ ((s.vol.block r.ino).sfiSize < off + d + m) := by
        intro hlt
        exact hgrow ⟨by omega, h.write, by exact_mod_cast hlt⟩
      simp only
      omega
  constructor
  · intro hacc k hk
    have hstored := hacc.stored (d + k) (by omega)
    rw [hbyte, if_neg (by omega), ← Nat.add_assoc] at hstored
    exact hstored
  · intro hclean
    refine ⟨by omega, ?_, ?_, ?_⟩
    · intro k hk
      rw [hbyte]
      split_ifs with hin
      · rw [Nat.add_sub_cancel_left]
      · have hk' := hclean (k - d) (by omega)
        rw [show off + d + (k - d) = off + k by omega, show d + (k - d) = k by omega] at hk'
        exact hk'
    · intro k hk
      rw [hbyte, if_neg (by omega)]
    · rw [if_neg (by omega), hamount]
      exact hsize

/-- What is left out of account are the bytes of a part that were copied before one of
its copies met a fault. -/
theorem GivenUp.accounted (h : GivenUp r.ino (off % 2199023255552) (parts off r.uio.resid) (s, r.uio) d m e (t, u))
    (hs : s.Inv False [] 0) (hr : r.IsWrite s off) (hlow : ¬ WrapsLow off) :
    r.Accounted s off (t.extended r.ino r.uio.resid u) u ↔ (e = .efault → r.FaultsClean s off) := by
  -- with a fault the place is known
  have hfault : (e = .efault → r.FaultsClean s off) ↔
      ∀ k < m, s.vol.fbyte r.ino (off + d + k) = r.uio.iov.flatten.getD (d + k) 0 := by
    rcases h.cause with ⟨rfl, rfl, -⟩ | ⟨rfl, rfl, -⟩ | ⟨rfl, hat⟩
    · simp
    · simp
    · constructor
      · intro hclean
        exact hclean rfl d m hat
      · intro hclean _ d' m' hat'
        rw [hat, Option.some_inj, Prod.mk.injEq] at hat'
        obtain ⟨rfl, rfl⟩ := hat'
        exact hclean
  rw [hfault]
  by_cases hzero : d + m = 0
  · constructor
    · intro _ k hk
      omega
    · intro _
      exact h.accounted_none hs hr hzero
  · have hfb := (h.low.resolve_left hzero).1
    have hsmall : off < 2199023255552 := by
      by_contra hge
      exact hlow ⟨by omega, by omega⟩
    rw [Nat.mod_eq_of_lt hsmall] at h
    exact h.accounted_iff hs hr (by omega)

/-- A write of two bytes to the file in inode 3, whose second copy faults. -/
def splitWrite (iov : List (List UInt8)) (copies : List Bool) : FileReq :=
  ⟨3, ⟨iov, [], 0, 2, .user copies, .write⟩⟩

/-- What is to be seen of an error: its number, `uio_resid`, and the size and the first byte of file 3. -/
def errorView : Res (Sfs × Uio) Errno Unit → Option (Errno × ℕ × ℕ × UInt8)
  | .err e (t, u) => some (e, u.resid, (t.vol.block 3).sfiSize, t.vol.fbyte 3 0)
  | _ => none

theorem splitWrite_isWrite (iov : List (List UInt8)) (copies : List Bool) (hiov : 2 ≤ iov.flatten.length) :
    (splitWrite iov copies).IsWrite (Sfs.oneFile 16 3 0 (by decide)) 0 where
  small := by decide
  loaded := (Sfs.oneFile.loaded_iff 3).mpr rfl
  file := by
    change ((Sfs.oneFile 16 3 0 _).vol.block 3).sfiType = sfsTypeFile
    rw [Sfs.oneFile.block_self]
    decide +kernel
  write := rfl
  enough := hiov
  word := (by decide : 2 < 4294967296)
  offset := rfl

end Os161
