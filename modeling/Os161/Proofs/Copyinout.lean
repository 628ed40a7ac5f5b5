import Os161.Spec.Copyinout

/-! Copies to and from user space. While a copy is under way it has read the first `r`
bytes of its source and written the first `n` of its destination; each access moves one
of the two on. -/

namespace Os161

variable {m t u : CopyMem} {dst src p : CopyPtr} {c : Prop} {r n i : ℕ}

/-- `r` bytes were read and `n` of them written. -/
structure CopyMem.Moved (m : CopyMem) (dst src : CopyPtr) (r n : ℕ) (t : CopyMem) : Prop where
  mem : t.mem = m.copied dst src n
  faults : t.faults = m.faults
  touched : ∀ x, x ∈ t.touched ↔ x ∈ m.touched ∨ src.Covers r x ∨ dst.Covers n x

/-- The first `n` bytes at `p` can be accessed. -/
def CopyPtr.Clear (p : CopyPtr) (n : ℕ) (m : CopyMem) : Prop :=
  p.side = .user → p.addr + n ≤ userspacetop ∧ m.Resident

theorem CopyPtr.Clear.mono (h : p.Clear n m) (hr : r ≤ n) : p.Clear r m := by
  intro hside
  exact ⟨by have := (h hside).1; omega, (h hside).2⟩

theorem CopyPtr.Clear.of_faults (h : p.Clear n m) (ht : t.faults = m.faults) : p.Clear n t := by
  intro hside
  refine ⟨(h hside).1, ?_⟩
  intro a ha
  rw [ht]
  exact (h hside).2 a ha

theorem CopyPtr.Clear.at_eq (h : p.Clear n m) (hi : i < n) : p.at i = p.addr + i := by
  unfold CopyPtr.at
  cases hside : p.side with
  | user =>
    have := (h hside).1
    unfold userspacetop at this
    exact Nat.mod_eq_of_lt (by omega)
  | kernel => rfl

theorem CopyPtr.covers_succ {x : CopySide × ℕ} : p.Covers (n + 1) x ↔ p.Covers n x ∨ x = (p.side, p.addr + n) := by
  obtain ⟨side, a⟩ := x
  simp only [CopyPtr.Covers, Prod.mk.injEq]
  constructor
  · intro h
    rcases Nat.lt_or_ge a (p.addr + n) with ha | ha
    · exact Or.inl ⟨h.1, h.2.1, ha⟩
    · exact Or.inr ⟨h.1, by omega⟩
  · intro h
    rcases h with h | h
    · exact ⟨h.1, h.2.1, by omega⟩
    · exact ⟨h.1, by omega, by omega⟩

theorem access_wp {Q : Unit → CopyMem → Prop} {E : Jump → CopyMem → Prop} (h : p.Clear n m) (hi : i < n)
    (hQ : Q () { m with touched := (p.side, p.addr + i) :: m.touched }) : (access p i).wp c Q E m := by
  unfold access
  simp only [Op.wp_bind, Op.wp_modify, Op.wp_get, h.at_eq hi]
  rw [if_neg]
  · exact hQ
  · intro hfault
    have hlt : p.addr + i < userspacetop := by have := (h hfault.1).1; omega
    rw [(h hfault.1).2 _ hlt] at hfault
    exact absurd hfault.2 (by simp)

theorem loadAt_wp {Q : UInt8 → CopyMem → Prop} {E : Jump → CopyMem → Prop} (h : p.Clear n m) (hi : i < n)
    (hQ : Q (m.mem p.side (p.addr + i)) { m with touched := (p.side, p.addr + i) :: m.touched }) :
    (loadAt p i).wp c Q E m := by
  unfold loadAt
  rw [Op.wp_bind]
  apply access_wp h hi
  simp only [Op.wp_bind, Op.wp_get, Op.wp_pure, h.at_eq hi]
  exact hQ

theorem storeAt_wp {Q : Unit → CopyMem → Prop} {E : Jump → CopyMem → Prop} {v : UInt8} (h : p.Clear n m) (hi : i < n)
    (hQ : Q () { m with
      touched := (p.side, p.addr + i) :: m.touched
      mem := Function.update m.mem p.side (Function.update (m.mem p.side) (p.addr + i) v) }) :
    (storeAt p i v).wp c Q E m := by
  unfold storeAt
  rw [Op.wp_bind]
  apply access_wp h hi
  simp only [Op.wp_modify, h.at_eq hi]
  exact hQ

theorem CopyMem.Moved.start : m.Moved dst src 0 0 m := by
  refine ⟨?_, rfl, ?_⟩
  · funext side a
    rw [CopyMem.copied, if_neg]
    omega
  · intro x
    simp only [CopyPtr.Covers]
    constructor
    · exact Or.inl
    · intro hx
      rcases hx with hx | hx | hx
      · exact hx
      · omega
      · omega

theorem CopyMem.copied_succ : Function.update (m.copied dst src n) dst.side
    (Function.update (m.copied dst src n dst.side) (dst.addr + n) (m.mem src.side (src.addr + n))) =
    m.copied dst src (n + 1) := by
  funext side a
  by_cases hd : side = dst.side
  · subst hd
    rw [Function.update_self]
    by_cases ha : a = dst.addr + n
    · rw [ha, Function.update_self, CopyMem.copied, if_pos ⟨rfl, by omega, by omega⟩, Nat.add_sub_cancel_left]
    · have hiff : (a < dst.addr + n) ↔ a < dst.addr + (n + 1) := by omega
      rw [Function.update_of_ne ha]
      simp only [CopyMem.copied, hiff]
  · rw [Function.update_of_ne hd, CopyMem.copied, CopyMem.copied, if_neg (fun hcov => hd hcov.1),
      if_neg (fun hcov => hd hcov.1)]

theorem CopyMem.Moved.store_wp {Q : Unit → CopyMem → Prop} {E : Jump → CopyMem → Prop} (h : m.Moved dst src r n t)
    (hc : dst.Clear (n + 1) m) (hQ : ∀ u, m.Moved dst src r (n + 1) u → Q () u) :
    (storeAt dst n (m.mem src.side (src.addr + n))).wp c Q E t := by
  apply storeAt_wp (hc.of_faults h.faults) (Nat.lt_succ_self n)
  apply hQ
  refine ⟨?_, h.faults, ?_⟩
  · simp only [h.mem]
    exact CopyMem.copied_succ
  · intro x
    rw [List.mem_cons, h.touched, CopyPtr.covers_succ (p := dst)]
    tauto

section
variable (hside : src.side ≠ dst.side)
include hside

/-- The source is not written to. -/
theorem CopyMem.Moved.source (h : m.Moved dst src r n t) (a : ℕ) : t.mem src.side a = m.mem src.side a := by
  rw [h.mem, CopyMem.copied, if_neg]
  intro hcov
  exact hside hcov.1

theorem CopyMem.Moved.load_wp {Q : UInt8 → CopyMem → Prop} {E : Jump → CopyMem → Prop} (h : m.Moved dst src r n t)
    (hc : src.Clear (r + 1) m) (hQ : ∀ u, m.Moved dst src (r + 1) n u → Q (m.mem src.side (src.addr + r)) u) :
    (loadAt src r).wp c Q E t := by
  apply loadAt_wp (hc.of_faults h.faults) (Nat.lt_succ_self r)
  rw [h.source hside]
  apply hQ
  refine ⟨h.mem, h.faults, ?_⟩
  intro x
  rw [List.mem_cons, h.touched, CopyPtr.covers_succ]
  tauto

/-- Reading a byte again changes nothing. -/
theorem CopyMem.Moved.reload_wp {Q : UInt8 → CopyMem → Prop} {E : Jump → CopyMem → Prop} (h : m.Moved dst src r n t)
    (hc : src.Clear r m) (hi : i < r) (hQ : ∀ u, m.Moved dst src r n u → Q (m.mem src.side (src.addr + i)) u) :
    (loadAt src i).wp c Q E t := by
  apply loadAt_wp (hc.of_faults h.faults) hi
  rw [h.source hside]
  apply hQ
  refine ⟨h.mem, h.faults, ?_⟩
  intro x
  have hcov : src.Covers r (src.side, src.addr + i) := ⟨rfl, by omega, by omega⟩
  rw [List.mem_cons, h.touched]
  constructor
  · intro hx
    rcases hx with hx | hx
    · exact Or.inr (Or.inl (hx ▸ hcov))
    · exact hx
  · exact Or.inr

theorem copyElement_wp {width : ℕ} {Q : Unit → CopyMem → Prop} {E : Jump → CopyMem → Prop}
    (h : m.Moved dst src (i * width) (i * width) t) (hs : src.Clear ((i + 1) * width) m)
    (hd : dst.Clear ((i + 1) * width) m)
    (hQ : ∀ u, m.Moved dst src ((i + 1) * width) ((i + 1) * width) u → Q () u) :
    (copyElement dst src width i).wp c Q E t := by
  have hend : (i + 1) * width = i * width + width := Nat.succ_mul i width
  rw [hend] at hs hd hQ
  unfold copyElement
  rw [Op.wp_bind]
  -- first the bytes that were read, then one write for each of them
  apply Op.wp_foldlM_range (fun k bytes u => m.Moved dst src (i * width + k) (i * width) u ∧
    bytes = (List.range k).map fun j => m.mem src.side (src.addr + (i * width + j)))
  · intro k hk bytes u hu
    rw [Op.wp_bind]
    apply hu.1.load_wp hside (hs.mono (by omega))
    intro v hv
    rw [Op.wp_pure]
    refine ⟨hv, ?_⟩
    rw [hu.2, List.range_succ, List.map_append]
    rfl
  · intro bytes u hu
    apply Op.wp_foldlM_range (fun k _ v => m.Moved dst src (i * width + width) (i * width + k) v)
    · intro k hk _ v hv
      have hbyte : bytes.getD k 0 = m.mem src.side (src.addr + (i * width + k)) := by
        rw [hu.2, List.getD_eq_getElem?_getD, List.getElem?_map, List.getElem?_range hk]
        rfl
      rw [hbyte]
      exact hv.store_wp (hd.mono (by omega)) fun w hw => hw
    · intro _ v hv
      exact hQ v hv
    · exact hu.1
  · exact ⟨h, rfl⟩

theorem memcpy_wp {Q : Unit → CopyMem → Prop} {E : Jump → CopyMem → Prop} {len : ℕ} (hs : src.Clear len m)
    (hd : dst.Clear len m) (hQ : ∀ u, m.Moved dst src len len u → Q () u) : (memcpy dst src len).wp c Q E m := by
  -- whichever way it goes, whole elements make up the block
  obtain ⟨width, hwidth, hdiv⟩ : ∃ width, (if dst.addr % 4 = 0 ∧ src.addr % 4 = 0 ∧ len % 4 = 0 then 4 else 1) = width ∧
      len / width * width = len := by
    by_cases hal : dst.addr % 4 = 0 ∧ src.addr % 4 = 0 ∧ len % 4 = 0
    · exact ⟨4, if_pos hal, by omega⟩
    · exact ⟨1, if_neg hal, by omega⟩
  unfold memcpy
  simp only [hwidth]
  apply Op.wp_foldlM_range (fun k _ u => m.Moved dst src (k * width) (k * width) u)
  · intro k hk _ u hu
    have hle : (k + 1) * width ≤ len := by
      rw [← hdiv]
      exact Nat.mul_le_mul_right width hk
    exact copyElement_wp hside hu (hs.mono hle) (hd.mono hle) fun v hv => hv
  · intro _ u hu
    rw [hdiv] at hu
    exact hQ u hu
  · rw [Nat.zero_mul]
    exact CopyMem.Moved.start

/-- The loop of `copystr` stops behind the first terminator, or at the limit. -/
theorem copystrLoop_wp {E : Jump → CopyMem → Prop} (hs : src.Clear (i + n) m) (hd : dst.Clear (i + n) m)
    (h : m.Moved dst src i i t) :
    (copystrLoop dst src i n).wp c (fun res u =>
      (∃ k, i ≤ k ∧ k < i + n ∧ m.mem src.side (src.addr + k) = 0 ∧ (∀ j, i ≤ j → j < k → m.mem src.side (src.addr + j) ≠ 0) ∧
        res = some (k + 1) ∧ m.Moved dst src (k + 1) (k + 1) u) ∨
      ((∀ j, i ≤ j → j < i + n → m.mem src.side (src.addr + j) ≠ 0) ∧ res = none ∧
        m.Moved dst src (i + n) (i + n) u)) E t := by
  induction n generalizing i t with
  | zero =>
    rw [copystrLoop, Op.wp_pure]
    refine Or.inr ⟨fun j hj hlt => ?_, rfl, h⟩
    omega
  | succ n ih =>
    rw [copystrLoop, Op.wp_bind]
    apply h.load_wp hside (hs.mono (by omega))
    intro u hu
    rw [Op.wp_bind]
    apply hu.store_wp (hd.mono (by omega))
    intro v hv
    rw [Op.wp_bind]
    apply hv.reload_wp hside (hs.mono (by omega)) (Nat.lt_succ_self i)
    intro w hw
    by_cases hnul : m.mem src.side (src.addr + i) = 0
    · rw [if_pos hnul, Op.wp_pure]
      refine Or.inl ⟨i, le_refl i, by omega, hnul, fun j hj hlt => ?_, rfl, hw⟩
      omega
    · rw [if_neg hnul]
      have hlen : i + 1 + n = i + (n + 1) := by omega
      apply (ih (i := i + 1) (hlen ▸ hs) (hlen ▸ hd) hw).mono
      · intro res z hz
        have hhere (j : ℕ) (hj : i ≤ j) : j = i ∨ i + 1 ≤ j := by omega
        rcases hz with ⟨k, hk, hkn, hzero, hbefore, hres, hmoved⟩ | ⟨hall, hres, hmoved⟩
        · refine Or.inl ⟨k, by omega, by omega, hzero, fun j hj hlt => ?_, hres, hmoved⟩
          rcases hhere j hj with rfl | hj
          · exact hnul
          · exact hbefore j hj hlt
        · rw [hlen] at hall hmoved
          refine Or.inr ⟨fun j hj hlt => ?_, hres, hmoved⟩
          rcases hhere j hj with rfl | hj
          · exact hnul
          · exact hall j hj hlt
      · exact fun _ _ he => he

end

theorem CopyMem.Moved.copied (h : { m with badfault := true }.Moved dst src n n t) :
    m.Copied dst src n { t with badfault := false } := ⟨h.mem, h.faults, h.touched⟩

theorem guarded_wp {α : Type} {Q : α → CopyMem → Prop} {E : Errno → CopyMem → Prop} {x : CopyM α}
    (h : x.wp c (fun a t => Q a { t with badfault := false }) (fun _ t => E .efault { t with badfault := false })
      { m with badfault := true }) : (guarded x).wp c Q E m := by
  unfold Op.wp guarded at *
  cases hx : x { m with badfault := true } with
  | ok a t =>
    rw [hx] at h
    exact h
  | err e t =>
    cases e
    rw [hx] at h
    exact h
  | panic =>
    rw [hx] at h
    exact h

theorem toNat_pos {len : UInt32} (hlen : len ≠ 0) : 0 < len.toNat := by
  rcases Nat.eq_zero_or_pos len.toNat with h0 | h0
  · exact absurd (UInt32.toNat_inj.mp h0) hlen
  · exact h0

theorem copycheck_toNat (addr len : UInt32) (hlen : len ≠ 0) :
    (addr + len - 1).toNat = (addr.toNat + len.toNat - 1) % 4294967296 := by
  have hpos := toNat_pos hlen
  have ha := addr.toNat_lt
  have hl := len.toNat_lt
  rw [UInt32.toNat_sub, UInt32.toNat_add]
  simp only [UInt32.reduceToNat]
  omega

/-- The check of a region that is not empty, in integers. -/
theorem copycheck_eq (addr len : UInt32) (hlen : len ≠ 0) : copycheck addr len =
    if userspacetop ≤ addr.toNat ∨ 4294967296 < addr.toNat + len.toNat then .error .efault
    else if userspacetop < addr.toNat + len.toNat then .ok (UInt32.ofNat userspacetop - addr) else .ok len := by
  have htop := copycheck_toNat addr len hlen
  have hpos := toNat_pos hlen
  have ha := addr.toNat_lt
  have hl := len.toNat_lt
  have hU : userspacetop = 2147483648 := rfl
  unfold copycheck
  simp only [UInt32.lt_iff_toNat_lt, htop]
  by_cases hbot : userspacetop ≤ addr.toNat
  · rw [if_pos (Or.inl hbot), if_pos hbot, ite_self]
  · by_cases hwrap : 4294967296 < addr.toNat + len.toNat
    · rw [if_pos (Or.inr hwrap), if_pos (by omega)]
    · have hmod : (addr.toNat + len.toNat - 1) % 4294967296 = addr.toNat + len.toNat - 1 := Nat.mod_eq_of_lt (by omega)
      have hin : ¬ (userspacetop ≤ addr.toNat ∨ 4294967296 < addr.toNat + len.toNat) := by omega
      rw [hmod, if_neg (by omega), if_neg hbot, if_neg hin]
      by_cases hover : userspacetop < addr.toNat + len.toNat
      · rw [if_pos hover, if_pos (by omega)]
      · rw [if_neg hover, if_neg (by omega)]

theorem inUserspace_iff (addr len : UInt32) (hlen : len ≠ 0) :
    InUserspace addr len ↔ addr.toNat + len.toNat ≤ userspacetop := by
  have hpos := toNat_pos hlen
  constructor
  · intro h
    have := h (addr.toNat + len.toNat - 1) (by omega) (by omega)
    omega
  · intro h a _ ha
    omega

theorem inUserspace_zero (addr : UInt32) : InUserspace addr 0 := by
  intro a ha hlt
  have h0 : (0 : UInt32).toNat = 0 := rfl
  omega

theorem toNat_userspacetop_sub {addr : UInt32} (h : addr.toNat ≤ userspacetop) :
    (UInt32.ofNat userspacetop - addr).toNat = userspacetop - addr.toNat := by
  have hU : (UInt32.ofNat userspacetop).toNat = userspacetop := rfl
  rw [UInt32.toNat_sub_of_le _ _ (by rw [UInt32.le_iff_toNat_le, hU]; exact h), hU]

theorem copycheck_error {addr len : UInt32} {e : Errno} (h : copycheck addr len = .error e) : e = .efault := by
  unfold copycheck at h
  simp only at h
  split_ifs at h with hwrap hbot
  · exact (Except.error.inj h).symm
  · exact (Except.error.inj h).symm

/-- An empty region is taken for one that wraps around, or for one that runs into the
kernel. -/
theorem copycheck_zero {addr stoplen : UInt32} (h : copycheck addr 0 = .ok stoplen) :
    addr = 0 ∧ stoplen = UInt32.ofNat userspacetop := by
  by_cases haddr : addr = 0
  · subst haddr
    have hcheck : copycheck 0 0 = .ok (UInt32.ofNat userspacetop) := by decide
    rw [hcheck] at h
    exact ⟨rfl, (Except.ok.inj h).symm⟩
  · have hpos := toNat_pos haddr
    have hwrap : addr + 0 - 1 < addr := by
      rw [UInt32.lt_iff_toNat_lt, UInt32.add_zero, UInt32.toNat_sub_of_le _ _ (by rw [UInt32.le_iff_toNat_le]; exact hpos)]
      exact Nat.sub_lt hpos Nat.one_pos
    unfold copycheck at h
    simp only [if_pos hwrap] at h
    cases h

theorem copycheck_outside {addr len stoplen : UInt32} (hlen : len ≠ 0) (hout : ¬ InUserspace addr len)
    (h : copycheck addr len = .ok stoplen) : stoplen < len := by
  rw [inUserspace_iff addr len hlen] at hout
  rw [copycheck_eq addr len hlen, if_pos (show userspacetop < addr.toNat + len.toNat by omega)] at h
  split_ifs at h with hin
  have hstop := Except.ok.inj h
  rw [← hstop, UInt32.lt_iff_toNat_lt, toNat_userspacetop_sub (by omega)]
  omega

theorem copycheck_inside {addr len : UInt32} (hlen : len ≠ 0) (hin : InUserspace addr len) :
    copycheck addr len = .ok len := by
  rw [inUserspace_iff addr len hlen] at hin
  have hpos := toNat_pos hlen
  have hU : userspacetop = 2147483648 := rfl
  rw [copycheck_eq addr len hlen, if_neg (by omega), if_neg (by omega)]

theorem copyBlock_refused {addr len : UInt32} (h : ∀ stoplen, copycheck addr len = .ok stoplen → stoplen ≠ len) :
    copyBlock addr len dst src m = .err .efault m := by
  unfold copyBlock
  cases hcheck : copycheck addr len with
  | error e =>
    rw [copycheck_error hcheck]
    rfl
  | ok stoplen =>
    simp only [if_pos (h stoplen hcheck)]
    rfl

/-- A block in user space is copied as a whole; another is refused before it is touched. -/
theorem copiesBlock_iff (addr len : UInt32) (dst src : CopyPtr) (hside : src.side ≠ dst.side) (hm : m.Resident)
    (hdst : dst.side = .user → dst.addr = addr.toNat) (hsrc : src.side = .user → src.addr = addr.toNat) :
    CopiesBlock addr len dst src (copyBlock addr len dst src) m ↔ len ≠ 0 := by
  constructor
  · intro h hlen
    subst hlen
    obtain ⟨t, ht, -⟩ := h.1 (inUserspace_zero addr)
    have herr : copyBlock addr 0 dst src m = .err .efault m := by
      apply copyBlock_refused
      intro stoplen hcheck
      rw [(copycheck_zero hcheck).2]
      decide
    rw [herr] at ht
    cases ht
  · intro hlen
    refine ⟨fun hin => ?_, fun hout => ?_⟩
    · have hcheck := copycheck_inside hlen hin
      rw [inUserspace_iff addr len hlen] at hin
      have hclear (p : CopyPtr) (hp : p.side = .user → p.addr = addr.toNat) :
          p.Clear len.toNat { m with badfault := true } := by
        intro huser
        rw [hp huser]
        exact ⟨hin, hm⟩
      have hwp : (copyBlock addr len dst src).wp False (fun _ t => m.Copied dst src len.toNat t) (fun _ _ => False) m := by
        unfold copyBlock
        simp only [hcheck]
        rw [if_neg (fun hne => hne rfl)]
        apply guarded_wp
        exact memcpy_wp hside (hclear src hsrc) (hclear dst hdst) fun u hu => hu.copied
      rcases hwp.cases with ⟨a, t, ht, hQ⟩ | ⟨e, t, ht, hE⟩ | ⟨-, hF⟩
      · exact ⟨t, ht, hQ⟩
      · exact hE.elim
      · exact hF.elim
    · apply copyBlock_refused
      intro stoplen hcheck heq
      exact absurd (copycheck_outside hlen hout hcheck) (by rw [heq]; exact UInt32.lt_irrefl len)

/-- A copy does exactly what was asked for unless the region is empty: that is refused. -/
theorem copy_exact (addr len : UInt32) (buf : ℕ) (m : CopyMem) (hm : m.Resident) :
    CopyExact addr len buf m ↔ len ≠ 0 := by
  have hin := copiesBlock_iff addr len ⟨.kernel, buf⟩ ⟨.user, addr.toNat⟩ (by simp) hm
    (fun h => absurd h (by simp)) (fun _ => rfl)
  have hout := copiesBlock_iff addr len ⟨.user, addr.toNat⟩ ⟨.kernel, buf⟩ (by simp) hm
    (fun _ => rfl) (fun h => absurd h (by simp))
  constructor
  · intro h
    exact hin.mp h.copyin
  · intro hlen
    refine ⟨hin.mpr hlen, hout.mpr hlen, fun stoplen hcheck => ?_⟩
    by_cases hu : InUserspace addr len
    · rw [copycheck_inside hlen hu] at hcheck
      have heq := Except.ok.inj hcheck
      exact ⟨by rw [heq]; exact UInt32.le_refl stoplen, fun hne => absurd heq.symm hne, fun hno => absurd hu hno⟩
    · have hlt := copycheck_outside hlen hu hcheck
      exact ⟨UInt32.le_of_lt hlt, fun _ => hu, fun _ heq => absurd hlt (by rw [heq]; exact UInt32.lt_irrefl len)⟩

/-- A memory where nothing faults. -/
def blankMem : CopyMem := ⟨fun _ _ => 0, fun _ => false, false, []⟩

theorem blankMem_resident : blankMem.Resident := by
  intro a _
  rfl

theorem copy_exact_page : CopyExact 4096 4096 0 blankMem :=
  (copy_exact 4096 4096 0 blankMem blankMem_resident).mpr (by decide)

/-- Nothing to copy, at a user address: `EFAULT`. At address 0 the check even gives a
longer region than it was asked about. -/
theorem copyin_empty_refused : blankMem.Resident ∧ InUserspace 4096 0 ∧ copyin 4096 0 0 blankMem = .err .efault blankMem ∧
    copyout 0 4096 0 blankMem = .err .efault blankMem ∧ copycheck 0 0 = .ok 2147483648 :=
  ⟨blankMem_resident, inUserspace_zero 4096, rfl, rfl, by decide⟩

/-- How far a string can be copied. -/
theorem copycheck_string {addr len : UInt32} (hlen : len ≠ 0) (hwrap : addr.toNat + len.toNat ≤ 4294967296)
    (hbot : addr.toNat < userspacetop) :
    ∃ stoplen, copycheck addr len = .ok stoplen ∧ stoplen.toNat = min len.toNat (userspacetop - addr.toNat) := by
  have hU : userspacetop = 2147483648 := rfl
  rw [copycheck_eq addr len hlen, if_neg (by omega)]
  by_cases hover : userspacetop < addr.toNat + len.toNat
  · rw [if_pos hover]
    refine ⟨_, rfl, ?_⟩
    rw [toNat_userspacetop_sub (by omega)]
    omega
  · rw [if_neg hover]
    exact ⟨len, rfl, by omega⟩

/-- The error of a string without a terminator. -/
def strError (addr len : UInt32) : Errno :=
  if userspacetop ≤ addr.toNat ∨ userspacetop - addr.toNat < len.toNat then .efault else .enametoolong

theorem copyString_wp {addr len : UInt32} (hside : src.side ≠ dst.side) (hm : m.Resident) (hlen : len ≠ 0)
    (hwrap : addr.toNat + len.toNat ≤ 4294967296) (hdst : dst.side = .user → dst.addr = addr.toNat)
    (hsrc : src.side = .user → src.addr = addr.toNat) :
    (copyString addr len dst src).wp False
      (fun res t => ∃ i < len.toNat, addr.toNat + i < userspacetop ∧ m.mem src.side (src.addr + i) = 0 ∧
        (∀ j < i, m.mem src.side (src.addr + j) ≠ 0) ∧ res = i + 1 ∧ m.Copied dst src (i + 1) t)
      (fun e t => (∀ i < len.toNat, addr.toNat + i < userspacetop → m.mem src.side (src.addr + i) ≠ 0) ∧
        e = strError addr len ∧ m.Copied dst src (min len.toNat (userspacetop - addr.toNat)) t) m := by
  unfold copyString
  by_cases hbot : userspacetop ≤ addr.toNat
  · have hcheck : copycheck addr len = .error .efault := by
      rw [copycheck_eq addr len hlen, if_pos (Or.inl hbot)]
    simp only [hcheck]
    rw [Op.wp_fail]
    refine ⟨fun i _ hi => ?_, ?_, ?_⟩
    · omega
    · rw [strError, if_pos (Or.inl hbot)]
    · rw [Nat.sub_eq_zero_of_le hbot, Nat.min_zero]
      have hstart : m.Moved dst src 0 0 m := CopyMem.Moved.start
      exact ⟨hstart.mem, hstart.faults, hstart.touched⟩
  · obtain ⟨stoplen, hcheck, hstop⟩ := copycheck_string hlen hwrap (by omega)
    simp only [hcheck]
    rw [Op.wp_bind]
    apply guarded_wp
    unfold copystr
    rw [Op.wp_bind, hstop]
    have hmin : min len.toNat (min len.toNat (userspacetop - addr.toNat)) = min len.toNat (userspacetop - addr.toNat) := by
      omega
    rw [hmin]
    have hclear (p : CopyPtr) (hp : p.side = .user → p.addr = addr.toNat) :
        p.Clear (0 + min len.toNat (userspacetop - addr.toNat)) { m with badfault := true } := by
      intro huser
      rw [hp huser]
      exact ⟨by omega, hm⟩
    apply (copystrLoop_wp hside (hclear src hsrc) (hclear dst hdst) CopyMem.Moved.start).mono
    · intro res u hu
      rcases hu with ⟨k, -, hk, hnul, hbefore, hres, hmoved⟩ | ⟨hall, hres, hmoved⟩
      · subst hres
        simp only [Op.wp_pure]
        exact ⟨k, by omega, by omega, hnul, fun j hj => hbefore j (Nat.zero_le j) hj, rfl, hmoved.copied⟩
      · subst hres
        rw [Nat.zero_add] at hmoved
        have hnone (i : ℕ) (hi : i < len.toNat) (hU : addr.toNat + i < userspacetop) :
            m.mem src.side (src.addr + i) ≠ 0 := hall i (Nat.zero_le i) (by omega)
        have herr : strError addr len =
            if min len.toNat (userspacetop - addr.toNat) < len.toNat then .efault else .enametoolong := by
          unfold strError
          have hiff : (userspacetop ≤ addr.toNat ∨ userspacetop - addr.toNat < len.toNat) ↔
              min len.toNat (userspacetop - addr.toNat) < len.toNat := by omega
          simp only [hiff]
        simp only
        by_cases hlt : min len.toNat (userspacetop - addr.toNat) < len.toNat
        · rw [if_pos hlt] at herr ⊢
          exact ⟨hnone, herr.symm, hmoved.copied⟩
        · rw [if_neg hlt] at herr ⊢
          exact ⟨hnone, herr.symm, hmoved.copied⟩
    · intro e u he
      exact he

theorem copiesString {addr len : UInt32} (hside : src.side ≠ dst.side) (hm : m.Resident) (hlen : len ≠ 0)
    (hwrap : addr.toNat + len.toNat ≤ 4294967296) (hdst : dst.side = .user → dst.addr = addr.toNat)
    (hsrc : src.side = .user → src.addr = addr.toNat) :
    CopiesString addr len dst src (copyString addr len dst src) m := by
  have hwp := copyString_wp hside hm hlen hwrap hdst hsrc
  -- what was touched lies in the first bytes of both sides
  have hbound (n : ℕ) (hn : n ≤ len.toNat) (hU : n ≤ userspacetop - addr.toNat) (t : CopyMem) (ht : m.Copied dst src n t) :
      ∀ y ∈ t.touched, y ∈ m.touched ∨ (src.Covers len.toNat y ∨ dst.Covers len.toNat y) ∧
        (y.1 = .user → y.2 < userspacetop) := by
    have hcov (p : CopyPtr) (hp : p.side = .user → p.addr = addr.toNat) (y : CopySide × ℕ) (hy : p.Covers n y) :
        p.Covers len.toNat y ∧ (y.1 = .user → y.2 < userspacetop) := by
      refine ⟨⟨hy.1, hy.2.1, by have := hy.2.2; omega⟩, fun huser => ?_⟩
      have haddr := hp (hy.1 ▸ huser)
      have := hy.2
      omega
    intro y hy
    rcases (ht.touched y).mp hy with hy | hy | hy
    · exact Or.inl hy
    · exact Or.inr ⟨Or.inl (hcov src hsrc y hy).1, (hcov src hsrc y hy).2⟩
    · exact Or.inr ⟨Or.inr (hcov dst hdst y hy).1, (hcov dst hdst y hy).2⟩
  rcases hwp.cases with ⟨res, t, ht, i, hi, hU, hnul, hbefore, hres, hcopied⟩ | ⟨e, t, ht, hnone, herr, hcopied⟩ | ⟨-, hF⟩
  · refine ⟨fun k hk hkU hknul hkbefore => ?_, fun hnone => absurd hnul (hnone i hi hU), fun u hu => ?_⟩
    · have hik : i = k := by
        rcases Nat.lt_trichotomy i k with hlt | heq | hlt
        · exact absurd hnul (hkbefore i hlt)
        · exact heq
        · exact absurd hknul (hbefore k hlt)
      rw [← hik]
      exact ⟨t, by rw [ht, hres], hcopied⟩
    · rw [Op.after, ht, Option.some.injEq] at hu
      exact hbound (i + 1) (by omega) (by omega) u (hu ▸ hcopied)
  · refine ⟨fun k hk hkU hknul _ => absurd hknul (hnone k hk hkU), fun _ => ⟨t, by rw [ht, herr]; rfl⟩, fun u hu => ?_⟩
    rw [Op.after, ht, Option.some.injEq] at hu
    exact hbound _ (by omega) (by omega) u (hu ▸ hcopied)
  · exact hF.elim

/-- Strings are copied up to the terminator; without one the nearer of the two limits
gives the error. -/
theorem copyinstr_copyoutstr (addr len : UInt32) (buf : ℕ) (m : CopyMem) (hm : m.Resident) (hlen : 1 ≤ len.toNat)
    (hwrap : addr.toNat + len.toNat - 1 < 4294967296) :
    CopiesString addr len ⟨.kernel, buf⟩ ⟨.user, addr.toNat⟩ (copyinstr addr buf len) m ∧
    CopiesString addr len ⟨.user, addr.toNat⟩ ⟨.kernel, buf⟩ (copyoutstr buf addr len) m := by
  have hne : len ≠ 0 := by
    intro h0
    rw [h0] at hlen
    exact absurd hlen (by decide)
  constructor
  · exact copiesString (by simp) hm hne (by omega) (fun h => absurd h (by simp)) (fun _ => rfl)
  · exact copiesString (by simp) hm hne (by omega) (fun _ => rfl) (fun h => absurd h (by simp))

/-- A string of two bytes below the end of user space. -/
theorem copyinstr_copyoutstr_top :
    CopiesString 2147483646 4096 ⟨.kernel, 0⟩ ⟨.user, 2147483646⟩ (copyinstr 2147483646 0 4096) blankMem ∧
    CopiesString 2147483646 4096 ⟨.user, 2147483646⟩ ⟨.kernel, 0⟩ (copyoutstr 0 2147483646 4096) blankMem :=
  copyinstr_copyoutstr 2147483646 4096 0 blankMem blankMem_resident (by decide) (by decide)

end Os161
