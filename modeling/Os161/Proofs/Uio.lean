import Os161.Spec.UioMove

/-! What `uiomove` does to a uio that describes enough memory. The loop cuts a piece at the
end of an iovec or of the buffer, and does not look at `uio_resid` before the copy. It moves
the bytes through the iovecs in order, whatever their lengths, if the request is no longer
than `uio_resid` or the residue ends with an iovec. -/

namespace Os161

theorem u32_natCast {k : ℕ} (h : k < 4294967296) : u32 k = k := by
  unfold u32
  omega

theorem u32_sub {a b : ℕ} (h : b ≤ a) (ha : a < 4294967296) : u32 ((a : ℤ) - b) = a - b := by
  unfold u32
  omega

theorem UioSeg.Good.copy {seg seg' : UioSeg} {c : Bool} (hgood : seg.Good) (h : seg.copy = (c, seg')) :
    c = true ∧ seg'.Good := by
  rcases seg with _ | copies
  · cases h
    exact ⟨rfl, trivial⟩
  · cases copies with
    | nil =>
      cases h
      exact ⟨rfl, hgood⟩
    | cons c cs =>
      cases h
      exact ⟨hgood _ List.mem_cons_self, fun x hx => hgood x (List.mem_cons_of_mem _ hx)⟩

/-! ### The turns of the loop -/

/-- The outcome of a loop whose first piece was `moved`. -/
def movedBefore (moved : List UInt8) : Res Uio Errno (List UInt8) → Res Uio Errno (List UInt8)
  | .ok ptr u => .ok (moved ++ ptr) u
  | .err e u => .err e u
  | .panic => .panic

theorem movedBefore_nil (r : Res Uio Errno (List UInt8)) : movedBefore [] r = r := by
  cases r <;> rfl

theorem UioRw.length_source {rw : UioRw} {ptr mem : List UInt8} (h : ptr.length = mem.length) :
    (rw.source ptr mem).length = mem.length := by
  cases rw
  · exact h
  · rfl

/-- Induction over the turns: the loop stops, runs out of iovecs, goes on behind an empty
iovec, meets a fault, comes to the end of the buffer or of the residue, or goes on behind an
iovec that is used up. -/
theorem uiomoveLoop_rule {P : List (List UInt8) → List UInt8 → Uio → Res Uio Errno (List UInt8) → Prop}
    (stop : ∀ iov ptr (u : Uio), ptr = [] ∨ u.resid = 0 → P iov ptr u (.ok ptr { u with iov := iov }))
    (out : ∀ ptr (u : Uio), ¬ (ptr = [] ∨ u.resid = 0) → P [] ptr u .panic)
    (skip : ∀ rest ptr (u : Uio) r, ¬ (ptr = [] ∨ u.resid = 0) → P rest ptr u r → P ([] :: rest) ptr u r)
    (fault : ∀ buf rest ptr (u : Uio) seg, ¬ (ptr = [] ∨ u.resid = 0) → buf ≠ [] → u.seg.copy = (false, seg) →
      P (buf :: rest) ptr u (.err .efault { u with iov := buf :: rest, seg := seg }))
    (last : ∀ buf rest ptr (u : Uio) seg moved, ¬ (ptr = [] ∨ u.resid = 0) → u.seg.copy = (true, seg) →
      ptr.length ≤ buf.length → moved = u.rw.source ptr (buf.take ptr.length) → moved.length = ptr.length →
      P (buf :: rest) ptr u (.ok moved { u.advance moved seg with iov := buf.drop ptr.length :: rest }))
    (full : ∀ buf rest ptr (u : Uio) seg moved, ¬ (ptr = [] ∨ u.resid = 0) → u.seg.copy = (true, seg) → buf.length < ptr.length →
      moved = u.rw.source (ptr.take buf.length) buf → moved.length = buf.length → (u.advance moved seg).resid = 0 →
      P (buf :: rest) ptr u (.ok (moved ++ ptr.drop buf.length) { u.advance moved seg with iov := [] :: rest }))
    (next : ∀ buf rest ptr (u : Uio) seg moved r, ¬ (ptr = [] ∨ u.resid = 0) → u.seg.copy = (true, seg) → buf.length < ptr.length →
      moved = u.rw.source (ptr.take buf.length) buf → moved.length = buf.length → (u.advance moved seg).resid ≠ 0 →
      P rest (ptr.drop buf.length) (u.advance moved seg) r → P (buf :: rest) ptr u (movedBefore moved r))
    (iov : List (List UInt8)) (ptr : List UInt8) (u : Uio) : P iov ptr u (uiomoveLoop iov ptr u) := by
  induction iov generalizing ptr u with
  | nil =>
    unfold uiomoveLoop
    split_ifs with hdone
    · exact stop [] ptr u hdone
    · exact out ptr u hdone
  | cons buf rest ih =>
    unfold uiomoveLoop
    by_cases hdone : ptr = [] ∨ u.resid = 0
    · rw [if_pos hdone]
      exact stop (buf :: rest) ptr u hdone
    rw [if_neg hdone]
    by_cases hempty : buf = []
    · subst hempty
      exact skip rest ptr u _ hdone (ih ptr u)
    rw [if_neg hempty]
    rcases hcopy : u.seg.copy with ⟨c, seg⟩
    cases c with
    | false => exact fault buf rest ptr u seg hdone hempty hcopy
    | true =>
      dsimp only
      by_cases hle : ptr.length ≤ buf.length
      · have hlen : ptr.length = (buf.take ptr.length).length := (List.length_take_of_le hle).symm
        rw [if_pos hle, min_eq_right hle, List.take_length, List.drop_length, List.append_nil]
        exact last buf rest ptr u seg _ hdone hcopy hle rfl ((UioRw.length_source hlen).trans hlen.symm)
      · have hlt : buf.length < ptr.length := Nat.lt_of_not_le hle
        have hlen : (u.rw.source _ buf).length = buf.length := UioRw.length_source (List.length_take_of_le hlt.le)
        rw [if_neg hle, min_eq_left hlt.le, List.take_length]
        by_cases hzero : (u.advance (u.rw.source (ptr.take buf.length) buf) seg).resid = 0
        · rw [if_pos hzero]
          exact full buf rest ptr u seg _ hdone hcopy hlt rfl hlen hzero
        · rw [if_neg hzero]
          exact next buf rest ptr u seg _ _ hdone hcopy hlt rfl hlen hzero (ih _ _)

/-! ### What a call moves -/

namespace Uio

variable {u u' u'' : Uio} {l l' ptr : List UInt8}

theorem Carried.refl (hiov : u'.iov.flatten = u.iov.flatten) (hpassed : u'.passed = u.passed)
    (hoffset : u'.offset = u.offset) (hresid : u'.resid = u.resid) (hrw : u'.rw = u.rw) : u.Carried u' [] :=
  ⟨by simp [hpassed], by simp [hiov], by simp [hoffset], by simp [hresid], hrw⟩

theorem Carried.trans (h : u.Carried u' l) (h' : u'.Carried u'' l') : u.Carried u'' (l ++ l') where
  passed := by rw [h'.passed, h.passed, List.append_assoc]
  rest := by rw [h'.rest, h.rest, List.drop_drop, List.length_append]
  offset := by
    rw [h'.offset, h.offset, List.length_append]
    push_cast
    ring
  resid := by
    have := h.resid
    have := h'.resid
    rw [List.length_append]
    omega
  rw := h'.rw.trans h.rw

/-- One copy. -/
theorem carried_advance {seg : UioSeg} {iov : List (List UInt8)} (hword : u.resid < 4294967296) (hl : l.length ≤ u.resid)
    (hiov : iov.flatten = u.iov.flatten.drop l.length) : u.Carried { u.advance l seg with iov := iov } l where
  passed := rfl
  rest := hiov
  offset := rfl
  resid := by
    simp only [advance]
    rw [u32_sub hl hword]
    omega
  rw := rfl

theorem length_carries {m : ℕ} (hptr : m ≤ ptr.length) (hmem : m ≤ u.iov.flatten.length) :
    (u.carries ptr m).length = m := by
  unfold carries
  cases u.rw
  · exact List.length_take_of_le hptr
  · exact List.length_take_of_le hmem

theorem carries_zero : u.carries ptr 0 = [] := by
  unfold carries
  cases u.rw <;> rfl

/-- The bytes through the first iovec, and those through the others. -/
theorem carries_add {buf : List UInt8} {rest : List (List UInt8)} {m : ℕ} (hiov : u.iov = buf :: rest)
    (hiov' : u'.iov = rest) (hrw : u'.rw = u.rw) :
    u.carries ptr (buf.length + m) =
      u.rw.source (ptr.take buf.length) buf ++ u'.carries (ptr.drop buf.length) m := by
  unfold carries
  rw [hiov, hiov', hrw]
  cases u.rw
  · exact List.take_add
  · simp [UioRw.source, List.take_append]

end Uio

/-- `r` bytes end where one of the iovecs does. -/
def EndsAt (iov : List (List UInt8)) (r : ℕ) : Prop := ∃ k, (iov.take k).flatten.length = r

theorem endsAt_cons {buf : List UInt8} {rest : List (List UInt8)} {r : ℕ} :
    EndsAt (buf :: rest) r ↔ r = 0 ∨ (buf.length ≤ r ∧ EndsAt rest (r - buf.length)) := by
  constructor
  · rintro ⟨k, hk⟩
    cases k with
    | zero => exact Or.inl (by simpa using hk.symm)
    | succ k =>
      rw [List.take_succ_cons, List.flatten_cons, List.length_append] at hk
      exact Or.inr ⟨by omega, k, by omega⟩
  · rintro (rfl | ⟨hle, k, hk⟩)
    · exact ⟨0, rfl⟩
    · refine ⟨k + 1, ?_⟩
      rw [List.take_succ_cons, List.flatten_cons, List.length_append]
      omega

/-- The ways in which a call on `v` that fits may end. -/
def MoveEnd (v : Uio) (ptr : List UInt8) : Res Uio Errno (List UInt8) → Prop
  | .ok ptr' u' => v.Carried u' (v.carries ptr (min ptr.length v.resid)) ∧
      ptr' = v.carries ptr (min ptr.length v.resid) ++ ptr.drop (min ptr.length v.resid) ∧
      (EndsAt v.iov v.resid → EndsAt u'.iov u'.resid) ∧ (v.seg.Good → u'.seg.Good)
  | .err e u' => e = .efault ∧ ¬ v.seg.Good ∧ ∃ k, u'.iov = v.iov.drop k ∧
      (v.iov.take k).flatten.length < min ptr.length v.resid ∧
      v.Carried u' (v.carries ptr (v.iov.take k).flatten.length)
  | .panic => False

section
variable {v w : Uio} {buf ptr : List UInt8} {rest : List (List UInt8)} {seg : UioSeg}

/-- What is left behind an iovec that was used up. -/
theorem MoveEnd.cons (hv : v.iov = buf :: rest) (hw : w.iov = rest) (hlt : buf.length < ptr.length)
    (hle : buf.length ≤ v.resid) (hc : v.Carried w (v.rw.source (ptr.take buf.length) buf))
    (hgood : v.seg.Good → w.seg.Good) {r : Res Uio Errno (List UInt8)} (h : MoveEnd w (ptr.drop buf.length) r) :
    MoveEnd v ptr (movedBefore (v.rw.source (ptr.take buf.length) buf) r) := by
  have hres := hc.resid
  rw [UioRw.length_source (List.length_take_of_le hlt.le)] at hres
  have hmin : min ptr.length v.resid = buf.length + min (ptr.drop buf.length).length w.resid := by
    rw [List.length_drop]
    omega
  cases r with
  | panic => exact h
  | ok ptr' u =>
    obtain ⟨hcarried, hptr, hends, hgoods⟩ := h
    have hall := hc.trans hcarried
    rw [← Uio.carries_add hv hw hc.rw, ← hmin] at hall
    refine ⟨hall, ?_, fun hends' => ?_, fun hg => hgoods (hgood hg)⟩
    · rw [hptr, ← List.append_assoc, ← Uio.carries_add hv hw hc.rw, List.drop_drop, ← hmin]
    · rw [hv, endsAt_cons] at hends'
      refine hends ?_
      rw [hw]
      rcases hends' with hzero | ⟨-, hends'⟩
      · exact ⟨0, by simp; omega⟩
      · rwa [show w.resid = v.resid - buf.length by omega]
  | err e u =>
    obtain ⟨rfl, hbad, k, hiov, hk, hcarried⟩ := h
    have hall := hc.trans hcarried
    rw [← Uio.carries_add hv hw hc.rw] at hall
    have hsum : (v.iov.take (k + 1)).flatten.length = buf.length + (w.iov.take k).flatten.length := by
      rw [hv, hw, List.take_succ_cons, List.flatten_cons, List.length_append]
    refine ⟨rfl, fun hg => hbad (hgood hg), k + 1, ?_, ?_, ?_⟩
    · rw [hiov, hv, hw, List.drop_succ_cons]
    · rw [hsum, hmin]
      omega
    · rwa [hsum]

theorem MoveEnd.stop (hdone : ptr = [] ∨ v.resid = 0) : MoveEnd v ptr (.ok ptr v) := by
  have hmin : min ptr.length v.resid = 0 := by
    rcases hdone with rfl | hzero
    · exact Nat.zero_min _
    · rw [hzero, Nat.min_zero]
  refine ⟨?_, ?_, fun h => h, fun h => h⟩
  · rw [hmin, Uio.carries_zero]
    exact Uio.Carried.refl rfl rfl rfl rfl rfl
  · rw [hmin, Uio.carries_zero]
    rfl

end

theorem uiomoveLoop_end (iov : List (List UInt8)) (ptr : List UInt8) (u : Uio) : u.resid ≤ iov.flatten.length →
    u.resid < 4294967296 → ptr.length ≤ u.resid ∨ EndsAt iov u.resid →
    MoveEnd { u with iov := iov } ptr (uiomoveLoop iov ptr u) := by
  refine uiomoveLoop_rule (P := fun iov ptr u r => u.resid ≤ iov.flatten.length → u.resid < 4294967296 →
    ptr.length ≤ u.resid ∨ EndsAt iov u.resid → MoveEnd { u with iov := iov } ptr r) ?stop ?out ?skip ?fault ?last ?full
    ?next iov ptr u
  case stop =>
    intro iov ptr u hdone _ _ _
    exact MoveEnd.stop (v := { u with iov := iov }) hdone
  case out =>
    intro ptr u hgo hmem _ _
    exact absurd (Or.inr (Nat.le_zero.mp hmem)) hgo
  case skip =>
    intro rest ptr u r hgo ih hmem hword hfit
    obtain ⟨hptr, hresid⟩ := not_or.mp hgo
    have hrest := ih hmem hword (hfit.imp_right fun h => by simpa [endsAt_cons, hresid] using h)
    have hempty : u.rw.source (ptr.take 0) [] = [] := by cases u.rw <;> rfl
    have hcons := MoveEnd.cons (v := { u with iov := [] :: rest }) (w := { u with iov := rest }) rfl rfl
      (List.length_pos_iff.mpr hptr) (Nat.zero_le _) (by
        rw [List.length_nil, hempty]
        exact Uio.Carried.refl rfl rfl rfl rfl rfl) (fun h => h) hrest
    rw [List.length_nil, hempty, movedBefore_nil] at hcons
    exact hcons
  case fault =>
    intro buf rest ptr u seg hgo hb hcopy _ _ _
    obtain ⟨hptr, hresid⟩ := not_or.mp hgo
    have hlen := List.length_pos_iff.mpr hptr
    refine ⟨rfl, fun hgood => Bool.false_ne_true (hgood.copy hcopy).1, 0, rfl, ?_, ?_⟩
    · exact lt_min hlen (Nat.pos_of_ne_zero hresid)
    · simp only [List.take_zero, List.flatten_nil, List.length_nil, Uio.carries_zero]
      exact Uio.Carried.refl rfl rfl rfl rfl rfl
  case last =>
    intro buf rest ptr u seg moved hgo hcopy hle hmoved hlen _ hword hfit
    have hpos : 0 < ptr.length := List.length_pos_iff.mpr (not_or.mp hgo).1
    rw [endsAt_cons] at hfit
    have hfits : ptr.length ≤ u.resid := by
      rcases hfit with hle | hzero | ⟨hle, -⟩ <;> omega
    have hcarries : Uio.carries { u with iov := buf :: rest } ptr (min ptr.length u.resid) = moved := by
      rw [min_eq_left hfits, hmoved]
      unfold Uio.carries
      rw [List.flatten_cons, List.take_length, List.take_append_of_le_length hle]
    refine ⟨?_, ?_, fun hends => ?_, fun hgood => (hgood.copy hcopy).2⟩
    · rw [hcarries]
      refine Uio.carried_advance (u := { u with iov := buf :: rest }) hword (hlen.trans_le hfits) ?_
      rw [hlen, List.flatten_cons, List.flatten_cons, List.drop_append_of_le_length hle]
    · rw [hcarries, min_eq_left hfits, List.drop_length, List.append_nil]
    · rw [endsAt_cons] at hends
      rcases hends with hzero | ⟨hbuf, hends⟩
      · exact absurd hzero (not_or.mp hgo).2
      · simp only [Uio.advance] at hbuf hends ⊢
        rw [endsAt_cons, hlen, u32_sub hfits hword, List.length_drop]
        refine Or.inr ⟨by omega, ?_⟩
        rwa [show u.resid - ptr.length - (buf.length - ptr.length) = u.resid - buf.length by omega]
  case full =>
    intro buf rest ptr u seg moved hgo hcopy hlt hmoved hlen hzero _ hword hfit
    rw [endsAt_cons] at hfit
    have hfits : buf.length ≤ u.resid := by
      rcases hfit with hle | hno | ⟨hle, -⟩ <;> omega
    have hresid : u.resid = buf.length := by
      simp only [Uio.advance, hlen] at hzero
      rw [u32_sub hfits hword] at hzero
      omega
    have hmin : min ptr.length u.resid = buf.length := by omega
    have hcarries : Uio.carries { u with iov := buf :: rest } ptr (min ptr.length u.resid) = moved := by
      rw [hmin, hmoved]
      unfold Uio.carries
      rw [List.flatten_cons, List.take_left]
    refine ⟨?_, ?_, fun _ => ⟨0, hzero.symm⟩, fun hgood => (hgood.copy hcopy).2⟩
    · rw [hcarries]
      refine Uio.carried_advance (u := { u with iov := buf :: rest }) hword (hlen.trans_le hfits) ?_
      rw [hlen, List.flatten_cons, List.flatten_cons, List.drop_left]
      rfl
    · rw [hcarries, hmin]
  case next =>
    intro buf rest ptr u seg moved r hgo hcopy hlt hmoved hlen hzero ih hmem hword hfit
    rw [endsAt_cons] at hfit
    have hfits : buf.length ≤ u.resid := by
      rcases hfit with hle | hno | ⟨hle, -⟩ <;> omega
    have hcarried : Uio.Carried { u with iov := buf :: rest } { u.advance moved seg with iov := rest } moved :=
      Uio.carried_advance (u := { u with iov := buf :: rest }) hword (hlen.trans_le hfits)
        (by rw [hlen, List.flatten_cons, List.drop_left])
    have hres : (u.advance moved seg).resid + buf.length = u.resid := hlen ▸ hcarried.resid
    rw [List.flatten_cons, List.length_append] at hmem
    subst hmoved
    refine MoveEnd.cons (v := { u with iov := buf :: rest }) rfl rfl hlt hfits hcarried (fun hgood => (hgood.copy hcopy).2)
      (ih (by omega) (by omega) ?_)
    rw [List.length_drop, show (u.advance (u.rw.source (ptr.take buf.length) buf) seg).resid = u.resid - buf.length by omega]
    rcases hfit with hle | hno | ⟨-, hends⟩
    · exact Or.inl (by omega)
    · exact absurd (Or.inr hno) hgo
    · exact Or.inr hends

theorem uiomove_end {u : Uio} {ptr : List UInt8} (hmem : u.resid ≤ u.iov.flatten.length) (hword : u.resid < 4294967296)
    (hfit : ptr.length ≤ u.resid ∨ EndsAt u.iov u.resid) : MoveEnd u ptr (uiomove ptr u) :=
  uiomoveLoop_end u.iov ptr u hmem hword hfit

/-! ### `uiomovezeros` -/

theorem carries_zeros {u : Uio} (hrw : u.rw = .read) {n m : ℕ} (hm : m ≤ n) :
    u.carries (List.replicate n 0) m = List.replicate m 0 := by
  unfold Uio.carries
  rw [hrw]
  simp [UioRw.source, List.take_replicate, hm]

theorem uiomovezerosLoop_end {fuel n : ℕ} {u : Uio} (hfuel : n ≤ fuel) (hrw : u.rw = .read)
    (hmem : u.resid ≤ u.iov.flatten.length) (hword : u.resid < 4294967296) (hfit : n ≤ u.resid ∨ EndsAt u.iov u.resid) :
    (uiomovezerosLoop fuel n).wp False
      (fun _ u' => u.Carried u' (List.replicate (min n u.resid) 0) ∧ (u.seg.Good → u'.seg.Good))
      (fun e u' => e = .efault ∧ ¬ u.seg.Good ∧ ∃ m < min n u.resid, u.Carried u' (List.replicate m 0)) u := by
  induction fuel generalizing n u with
  | zero =>
    obtain rfl : n = 0 := by omega
    rw [Nat.zero_min]
    exact ⟨Uio.Carried.refl rfl rfl rfl rfl rfl, fun h => h⟩
  | succ fuel ih =>
    cases n with
    | zero =>
      rw [Nat.zero_min]
      exact ⟨Uio.Carried.refl rfl rfl rfl rfl rfl, fun h => h⟩
    | succ n =>
      rw [uiomovezerosLoop]
      have hamt : min 16 (n + 1) ≤ n + 1 := Nat.min_le_right _ _
      have hpos : 1 ≤ min 16 (n + 1) := by omega
      generalize min 16 (n + 1) = amt at hamt hpos ⊢
      have hend : MoveEnd u (List.replicate amt 0) (uiomove (List.replicate amt 0) u) := by
        refine uiomove_end hmem hword ?_
        rw [List.length_replicate]
        exact hfit.imp_left fun h => by omega
      rw [Op.wp_bind]
      unfold Op.wp
      cases hr : uiomove (List.replicate amt 0) u with
      | panic =>
        rw [hr] at hend
        exact hend
      | err e u' =>
        rw [hr] at hend
        obtain ⟨rfl, hbad, k, -, hk, hcarried⟩ := hend
        rw [List.length_replicate] at hk
        rw [carries_zeros hrw (by omega)] at hcarried
        exact ⟨rfl, hbad, _, by omega, hcarried⟩
      | ok ptr' u' =>
        rw [hr] at hend
        obtain ⟨hcarried, -, hends, hgood⟩ := hend
        rw [List.length_replicate, carries_zeros hrw (by omega)] at hcarried
        have hresid := hcarried.resid
        have hrest := hcarried.rest
        rw [List.length_replicate] at hresid hrest
        have hmem' : u'.resid ≤ u'.iov.flatten.length := by
          rw [hrest, List.length_drop]
          omega
        have hfit' : n + 1 - amt ≤ u'.resid ∨ EndsAt u'.iov u'.resid := by
          rcases hfit with hle | hat
          · exact Or.inl (by omega)
          · exact Or.inr (hends hat)
        have hsum : min (n + 1) u.resid = min amt u.resid + min (n + 1 - amt) u'.resid := by omega
        have hnext := ih (n := n + 1 - amt) (u := u') (by omega) (hcarried.rw.trans hrw) hmem' (by omega) hfit'
        refine hnext.mono (fun _ u'' hdone => ?_) fun e u'' hfail => ?_
        · rw [hsum, List.replicate_add]
          exact ⟨hcarried.trans hdone.1, fun hg => hdone.2 (hgood hg)⟩
        · obtain ⟨rfl, hbad, m, hm, hpart⟩ := hfail
          refine ⟨rfl, fun hg => hbad (hgood hg), min amt u.resid + m, by omega, ?_⟩
          rw [List.replicate_add]
          exact hcarried.trans hpart

/-! ### A request that fits, all of whose copies succeed -/

/-- What passes between the buffer at `ptr` and the memory `mem` ahead of it. -/
def UioRw.traffic (mem ptr : List UInt8) (rw : UioRw) : List UInt8 := rw.source ptr (mem.take ptr.length)

theorem UioRw.traffic_read (mem ptr : List UInt8) : UioRw.read.traffic mem ptr = ptr := rfl

theorem UioRw.length_traffic (rw : UioRw) {mem ptr : List UInt8} (h : ptr.length ≤ mem.length) :
    (rw.traffic mem ptr).length = ptr.length := by
  have hlen : ptr.length = (mem.take ptr.length).length := (List.length_take_of_le h).symm
  exact (length_source hlen).trans hlen.symm

/-- From `u`, with the memory `mem` ahead, to `u'` the bytes `l` were moved, and
that part of the memory contains them. -/
structure Uio.Moved (u u' : Uio) (mem l : List UInt8) : Prop where
  passed : u'.passed = u.passed ++ l
  rest : u'.iov.flatten = mem.drop l.length
  offset : u'.offset = u.offset + l.length
  resid : u'.resid + l.length = u.resid
  rw : u'.rw = u.rw
  good : u'.seg.Good

theorem Uio.Carried.moved {u u' : Uio} {l : List UInt8} (h : u.Carried u' l) (hgood : u'.seg.Good) :
    u.Moved u' u.iov.flatten l := ⟨h.passed, h.rest, h.offset, h.resid, h.rw, hgood⟩

theorem Uio.Moved.carried {u u' : Uio} {l : List UInt8} (h : u.Moved u' u.iov.flatten l) : u.Carried u' l :=
  ⟨h.passed, h.rest, h.offset, h.resid, h.rw⟩

theorem Uio.moved_nil {u : Uio} (hg : u.seg.Good) : u.Moved u u.iov.flatten [] :=
  (Carried.refl rfl rfl rfl rfl rfl).moved hg

theorem Uio.Moved.ready {u u' : Uio} {l : List UInt8} (h : u.Moved u' u.iov.flatten l) (hu : u.Ready) :
    u'.Ready where
  enough := by
    have := hu.enough
    have := h.resid
    rw [h.rest, List.length_drop]
    omega
  word := by
    have := hu.word
    have := h.resid
    omega
  good := h.good

theorem uiomove_eq {u : Uio} (hu : u.Ready) (ptr : List UInt8) (hn : ptr.length ≤ u.resid) :
    ∃ u', uiomove ptr u = .ok (u.rw.traffic u.iov.flatten ptr) u' ∧
      u.Moved u' u.iov.flatten (u.rw.traffic u.iov.flatten ptr) := by
  have hend := uiomove_end hu.enough hu.word (Or.inl hn)
  have hall : u.carries ptr (min ptr.length u.resid) = u.rw.traffic u.iov.flatten ptr := by
    rw [min_eq_left hn, Uio.carries, List.take_length]
    rfl
  cases hr : uiomove ptr u with
  | ok ptr' u' =>
    rw [hr] at hend
    obtain ⟨hcarried, hptr, -, hgood⟩ := hend
    rw [hall] at hcarried hptr
    rw [min_eq_left hn, List.drop_length, List.append_nil] at hptr
    exact ⟨u', by rw [hptr], hcarried.moved (hgood hu.good)⟩
  | err e u' =>
    rw [hr] at hend
    exact absurd hu.good hend.2.1
  | panic =>
    rw [hr] at hend
    exact hend.elim

theorem uiomove_wp {u : Uio} (hu : u.Ready) {ptr : List UInt8} (hn : ptr.length ≤ u.resid)
    {c : Prop} {Q : List UInt8 → Uio → Prop} {E : Errno → Uio → Prop}
    (hQ : ∀ u', u.Moved u' u.iov.flatten (u.rw.traffic u.iov.flatten ptr) →
      Q (u.rw.traffic u.iov.flatten ptr) u') : (uiomove ptr).wp c Q E u := by
  obtain ⟨u', hu', hm⟩ := uiomove_eq hu ptr hn
  exact (Op.wp_of_ok hu').mpr (hQ u' hm)

theorem uiomovezeros_wp {c : Prop} {E : Errno → Uio → Prop} {n : ℕ} {u : Uio} (hu : u.Ready)
    (hrw : u.rw = .read) (hn : n ≤ u.resid) {Q : Unit → Uio → Prop}
    (hQ : ∀ u', u.Moved u' u.iov.flatten (List.replicate n 0) → Q () u') :
    (uiomovezeros n).wp c Q E u := by
  have hloop := uiomovezerosLoop_end le_rfl hrw hu.enough hu.word (Or.inl hn)
  rw [min_eq_left hn] at hloop
  unfold uiomovezeros
  rw [Op.wp_bind, Op.wp_get, Op.wp_bind, Op.wp_kassert_of hrw]
  refine (Op.wp.weaken hloop).mono (fun _ u' hdone => ?_) fun e u' hfail => absurd hu.good hfail.2.1
  exact hQ u' (hdone.1.moved (hdone.2 hu.good))

/-- The offset and the residue of the request are put back after those of one block
were used in their place. -/
theorem Uio.Moved.restore {u u' : Uio} {mem l : List UInt8} {d : ℤ} (hr : 512 ≤ u.resid)
    (hw : u.resid < 4294967296) (h : ({ u with offset := d, resid := 512 } : Uio).Moved u' mem l) :
    u.Moved { u' with offset := u'.offset - d + u.offset, resid := u32 (u'.resid - 512 + u.resid) } mem l where
  passed := h.passed
  rest := h.rest
  offset := by
    have hoffset : u'.offset = d + l.length := h.offset
    simp only [hoffset]
    ring
  resid := by
    have hresid : u'.resid + l.length = 512 := h.resid
    simp only [u32]
    omega
  rw := h.rw
  good := h.good

end Os161
