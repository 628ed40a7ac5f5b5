import Os161.Spec.Array

/-! The storage of an array is what was asked for as long as doubling does not come to 2^30
pointers; then the array is a list. -/

namespace Os161

open Op

namespace KArray

/-! ### The loop of `array_preallocate` -/

variable {num x y : UInt32}

theorem grow_of_zero : grow 0 = 4 := rfl

theorem toNat_grow (hx : x ≠ 0) (hsmall : x.toNat < 2147483648) : (grow x).toNat = x.toNat * 2 := by
  rw [grow, if_neg hx, UInt32.toNat_mul]
  exact Nat.mod_eq_of_lt (by change x.toNat * 2 < 4294967296; omega)

theorem toNat_pos (hx : x ≠ 0) : 0 < x.toNat := Nat.pos_of_ne_zero fun h => hx (UInt32.toNat_inj.mp h)

theorem newmaxLoop_of_le (h : num ≤ x) (turns : ℕ) : newmaxLoop num turns x = some x := by
  cases turns with
  | zero => rw [newmaxLoop, if_neg (UInt32.not_lt.mpr h)]
  | succ turns => rw [newmaxLoop, if_neg (UInt32.not_lt.mpr h)]

theorem le_of_newmaxLoop {turns : ℕ} (h : newmaxLoop num turns x = some y) : num ≤ y := by
  induction turns generalizing x with
  | zero =>
    rw [newmaxLoop] at h
    split_ifs at h with hlt
    exact Option.some.inj h ▸ UInt32.not_lt.mp hlt
  | succ turns ih =>
    rw [newmaxLoop] at h
    split_ifs at h with hlt
    · exact ih h
    · exact Option.some.inj h ▸ UInt32.not_lt.mp hlt

/-- Doubling from `x` comes to `num` in time. -/
theorem newmaxLoop_doubles {j turns : ℕ} (hx : x ≠ 0) (hnum : num.toNat ≤ x.toNat * 2 ^ j)
    (hsmall : x.toNat * 2 ^ j < 1073741824) (hturns : j ≤ turns) :
    ∃ y, newmaxLoop num turns x = some y ∧ y.toNat < 1073741824 := by
  have hle : x.toNat ≤ x.toNat * 2 ^ j := Nat.le_mul_of_pos_right _ (Nat.two_pow_pos j)
  induction j generalizing x turns with
  | zero =>
    rw [pow_zero, Nat.mul_one] at hnum
    exact ⟨x, newmaxLoop_of_le (UInt32.le_iff_toNat_le.mpr hnum) turns, by omega⟩
  | succ j ih =>
    by_cases hstop : num ≤ x
    · exact ⟨x, newmaxLoop_of_le hstop turns, by omega⟩
    · obtain ⟨turns, rfl⟩ : ∃ k, turns = k + 1 := ⟨turns - 1, by omega⟩
      have hgrow := toNat_grow hx (by omega)
      have hpos := toNat_pos hx
      have hmul : (grow x).toNat * 2 ^ j = x.toNat * 2 ^ (j + 1) := by rw [hgrow, pow_succ', Nat.mul_assoc]
      have hne : grow x ≠ 0 := fun h0 => by
        rw [h0] at hgrow
        exact absurd hgrow (by change 0 ≠ _; omega)
      rw [newmaxLoop, if_pos (UInt32.not_le.mp hstop)]
      refine ih hne (by omega) (by omega) (by omega) ?_
      exact Nat.le_mul_of_pos_right _ (Nat.two_pow_pos j)

theorem newmaxLoop_reaches {max : UInt32} {turns : ℕ} (hturns : 32 ≤ turns)
    (h : ∃ j, num.toNat ≤ firstMax max * 2 ^ j ∧ firstMax max * 2 ^ j < 1073741824) :
    ∃ y, newmaxLoop num turns max = some y ∧ y.toNat < 1073741824 := by
  obtain ⟨j, hnum, hsmall⟩ := h
  have hj : j < 30 := by
    have hfirst : 1 ≤ firstMax max := by
      unfold firstMax
      split_ifs with hmax
      · decide
      · exact toNat_pos hmax
    have hpow : 2 ^ j < 2 ^ 30 := lt_of_le_of_lt (Nat.le_mul_of_pos_left _ hfirst) hsmall
    exact (Nat.pow_lt_pow_iff_right (by decide)).mp hpow
  unfold firstMax at hnum hsmall
  by_cases hmax : max = 0
  · subst hmax
    rw [if_pos rfl] at hnum hsmall
    obtain ⟨turns, rfl⟩ : ∃ k, turns = k + 1 := ⟨turns - 1, by omega⟩
    rw [newmaxLoop]
    by_cases hlt : 0 < num
    · rw [if_pos hlt, grow_of_zero]
      exact newmaxLoop_doubles (by decide) hnum hsmall (by omega)
    · rw [if_neg hlt]
      exact ⟨0, rfl, by decide⟩
  · rw [if_neg hmax] at hnum hsmall
    exact newmaxLoop_doubles hmax hnum hsmall (by omega)

theorem firstMax_grow (hsmall : x.toNat < 1073741824) : ∃ k, firstMax (grow x) = firstMax x * 2 ^ k := by
  by_cases hx : x = 0
  · subst hx
    exact ⟨0, rfl⟩
  · have hgrow := toNat_grow hx (by omega)
    have hpos := toNat_pos hx
    have hne : grow x ≠ 0 := fun h0 => by
      rw [h0] at hgrow
      exact absurd hgrow (by change 0 ≠ _; omega)
    refine ⟨1, ?_⟩
    rw [firstMax, if_neg hne, firstMax, if_neg hx, hgrow, pow_one]

/-- Where the loop ends, it is by doubling below 2^30, or the storage has too few pointers. -/
theorem newmaxLoop_short {turns : ℕ} (hx : x < num) (h : newmaxLoop num turns x = some y) :
    y.toNat % 1073741824 < num.toNat ∨ ∃ j, y.toNat = firstMax x * 2 ^ j ∧ y.toNat < 1073741824 := by
  by_cases hbig : 1073741824 < num.toNat
  · exact .inl ((Nat.mod_lt _ (by decide)).trans hbig)
  · induction turns generalizing x with
    | zero =>
      rw [newmaxLoop, if_pos hx] at h
      exact absurd h (by simp)
    | succ turns ih =>
      have hlt := UInt32.lt_iff_toNat_lt.mp hx
      obtain ⟨k, hk⟩ := firstMax_grow (show x.toNat < 1073741824 by omega)
      rw [newmaxLoop, if_pos hx] at h
      by_cases hmore : grow x < num
      · rcases ih hmore h with hshort | ⟨j, hj, hy⟩
        · exact .inl hshort
        · refine .inr ⟨k + j, ?_, hy⟩
          rw [hj, hk, pow_add, Nat.mul_assoc]
      · rw [newmaxLoop_of_le (UInt32.not_lt.mp hmore)] at h
        obtain rfl := Option.some.inj h
        by_cases hx0 : x = 0
        · subst hx0
          exact .inr ⟨0, rfl, by decide⟩
        · have hgrow := toNat_grow hx0 (by omega)
          have hpos := toNat_pos hx0
          by_cases hsmall : (grow x).toNat < 1073741824
          · refine .inr ⟨1, ?_, hsmall⟩
            rw [hgrow, firstMax, if_neg hx0, pow_one]
          · left
            omega

/-! ### The operations -/

variable {α : Type} {a : KArray α} {kmalloc : ArrayStorage α} {turns : ℕ}

theorem toNat_mul_four (n : UInt32) : (n * 4).toNat = n.toNat * 4 % 4294967296 := UInt32.toNat_mul n 4

theorem pointers_eq {n : UInt32} (h : n.toNat < 1073741824) : pointers n = n.toNat := by
  rw [pointers, toNat_mul_four]
  omega

theorem Wf.num_le (h : a.Wf) : a.num.toNat ≤ a.max.toNat := UInt32.le_iff_toNat_le.mp h.fits

theorem contents_length (h : a.Wf) : a.contents.length = a.num.toNat := by
  have hnum := h.num_le
  have hmax := h.storage
  rw [contents, List.length_take]
  omega

/-- `array_preallocate` grows the storage, or fails and leaves everything as it was. -/
theorem preallocate_wp (ha : a.Wf) (hturns : 32 ≤ turns) (hreach : Reaches a.max num) :
    (preallocate kmalloc turns num).wp False (fun _ a' => a.Grown num a' ∧ a'.num = a.num ∧ num ≤ a'.max)
      (fun e a' => e = .enomem ∧ a' = a) a := by
  have hnum := ha.num_le
  have hmax := ha.storage
  have hblock := ha.block
  rw [preallocate, wp_bind, wp_get]
  refine (wp_ite _ _ _).mpr ⟨fun hlt => ?_, fun hge => ?_⟩
  · have hmore := hreach.resolve_left (UInt32.not_le.mpr hlt)
    obtain ⟨newmax, hloop, hsmall⟩ := newmaxLoop_reaches hturns hmore
    have hle := le_of_newmaxLoop hloop
    have hroom := UInt32.le_iff_toNat_le.mp hle
    have hltn := UInt32.lt_iff_toNat_lt.mp hlt
    have hbytes := toNat_mul_four newmax
    rw [hloop]
    dsimp only
    cases hk : kmalloc (newmax * 4).toNat with
    | none => exact ⟨rfl, rfl⟩
    | some newptr =>
      have hlen : newptr.val.length = newmax.toNat := by
        rw [newptr.property, hbytes]
        omega
      dsimp only
      rw [pointers_eq (show a.num.toNat < 1073741824 by omega), copyPointers, if_pos ⟨by omega, by omega⟩]
      dsimp only
      have hcopy : (a.v.take a.num.toNat ++ newptr.val.drop a.num.toNat).length = newmax.toNat := by
        rw [List.length_append, List.length_take, List.length_drop, hlen]
        omega
      have hkept : (a.v.take a.num.toNat ++ newptr.val.drop a.num.toNat).take a.num.toNat = a.contents :=
        List.take_left' (contents_length ha)
      refine ⟨⟨hroom.trans_eq hcopy.symm, hkept, ⟨hcopy.ge, ?_, ?_⟩⟩, rfl, hle⟩
      · change (a.v.take a.num.toNat ++ newptr.val.drop a.num.toNat).length * 4 < _
        omega
      · exact UInt32.le_iff_toNat_le.mpr (show a.num.toNat ≤ newmax.toNat by omega)
  · have hle := UInt32.not_lt.mp hge
    exact ⟨⟨(UInt32.le_iff_toNat_le.mp hle).trans hmax, rfl, ha⟩, rfl, hle⟩

theorem setsize_wp (ha : a.Wf) (hturns : 32 ≤ turns) (hreach : Reaches a.max num) :
    (setsize kmalloc turns num).wp False (fun _ a' => a.Grown num a' ∧ a'.num = num)
      (fun e a' => e = .enomem ∧ a' = a) a := by
  rw [setsize, wp_bind]
  refine (preallocate_wp ha hturns hreach).mono (fun _ a' h => ?_) fun _ _ h => h
  obtain ⟨⟨hroom, hkept, hwf⟩, -, hle⟩ := h
  rw [wp_modify]
  exact ⟨⟨hroom, hkept, ⟨hwf.storage, hwf.block, hle⟩⟩, rfl⟩

/-- With memory for the asking, storage that is too small is not noticed. -/
def generous [Inhabited α] : ArrayStorage α := fun bytes => some ⟨List.replicate (bytes / 4) default, List.length_replicate⟩

theorem reaches_of_growsRight [Inhabited α] (h : a.GrowsRight num) : Reaches a.max num := by
  obtain ⟨enough, hright⟩ := h
  have hrun := (hright enough le_rfl generous).1
  rw [preallocate, wp_bind, wp_get] at hrun
  by_cases hlt : a.max < num
  · rw [if_pos hlt] at hrun
    cases hloop : newmaxLoop num enough a.max with
    | none =>
      rw [hloop] at hrun
      exact hrun.elim
    | some newmax =>
      rw [hloop] at hrun
      dsimp only [generous] at hrun
      have hle := UInt32.le_iff_toNat_le.mp (le_of_newmaxLoop hloop)
      rcases newmaxLoop_short hlt hloop with hshort | ⟨j, hj, hsmall⟩
      · -- the copy leaves the new block, or stays in it and there is no room for `num`
        unfold copyPointers at hrun
        split_ifs at hrun with hcopy
        · have hroom := hrun.1.room
          have hbytes := toNat_mul_four newmax
          dsimp only at hroom
          rw [List.length_append, List.length_take, List.length_drop, List.length_replicate] at hroom
          rw [List.length_replicate] at hcopy
          omega
        · exact hrun.elim
      · right
        exact ⟨j, by omega, by omega⟩
  · exact .inl (UInt32.not_lt.mp hlt)

theorem store_wp {index : UInt32} {val : α} (h : index.toNat < a.v.length) {c : Prop} {Q : Unit → KArray α → Prop}
    {E : Errno → KArray α → Prop} (hQ : Q () { a with v := a.v.set index.toNat val }) : (store index val).wp c Q E a := by
  rw [store, wp_bind, wp_get, if_pos h]
  exact hQ

theorem Wf.stored (h : a.Wf) (index : UInt32) (val : α) : ({ a with v := a.v.set index.toNat val } : KArray α).Wf where
  storage := h.storage.trans_eq List.length_set.symm
  block := by
    rw [List.length_set]
    exact h.block
  fits := h.fits

end KArray

namespace ArrayCall

open KArray

variable {α : Type} {a : KArray α} {turns : ℕ}

theorem take_set_last {v : List α} {n : ℕ} (h : n < v.length) (x : α) : (v.set n x).take (n + 1) = v.take n ++ [x] := by
  have hlen : (v.take n).length = n := List.length_take_of_le h.le
  rw [List.set_eq_take_append_cons_drop, if_pos h, List.take_append, hlen, Nat.add_sub_cancel_left,
    List.take_of_length_le (by omega)]
  rfl

theorem moved_down {v : List α} {i n : ℕ} (h : i + 1 + n ≤ v.length) :
    (v.take i ++ (v.drop (i + 1)).take n ++ v.drop (i + n)).take (i + n) = (v.take (i + 1 + n)).eraseIdx i := by
  have hlen : (v.take i ++ (v.drop (i + 1)).take n).length = i + n := by
    rw [List.length_append, List.length_take, List.length_take, List.length_drop]
    omega
  rw [List.take_left' hlen, List.eraseIdx_eq_take_drop_succ, List.take_take, List.drop_take, Nat.min_eq_left (by omega),
    Nat.add_sub_cancel_left]

/-- One call does to the array what it does to the list. -/
theorem run_wp (kmalloc : ArrayStorage α) (ha : a.Wf) (hturns : 32 ≤ turns) (call : ArrayCall α) (hmeets : call.Meets a) :
    (call.run kmalloc turns).wp False (fun r a' => a'.Wf ∧ call.After a.contents r a'.contents)
      (fun e a' => e = .enomem ∧ call.Allocates ∧ a' = a) a := by
  have hnum := ha.num_le
  have hmax := ha.storage
  have hblock := ha.block
  have hlen := contents_length ha
  cases call with
  | add val =>
    have hone : (a.num + 1).toNat = a.num.toNat + 1 := by
      rw [UInt32.toNat_add]
      exact Nat.mod_eq_of_lt (by change a.num.toNat + 1 < 4294967296; omega)
    rw [run, wp_bind, KArray.add, wp_bind, wp_get, wp_bind]
    refine (setsize_wp ha hturns hmeets).mono (fun _ a' h => ?_) fun e a' h => ⟨h.1, trivial, h.2⟩
    obtain ⟨⟨hroom, hkept, hwf⟩, hn⟩ := h
    rw [wp_bind]
    refine store_wp (by omega) ?_
    rw [wp_pure, wp_pure]
    refine ⟨hwf.stored a.num val, ?_, congrArg some hlen.symm⟩
    change (a'.v.set a.num.toNat val).take a'.num.toNat = a.contents ++ [val]
    rw [hn, hone, take_set_last (by omega), hkept]
  | set index val =>
    have hlt : index < a.num := hmeets
    have hltn := UInt32.lt_iff_toNat_lt.mp hlt
    rw [run, wp_bind, KArray.set, wp_bind, wp_get, wp_bind, wp_kassert_of hlt]
    refine store_wp (by omega) ?_
    rw [wp_pure]
    refine ⟨ha.stored index val, ?_⟩
    change (a.v.set index.toNat val).take a.num.toNat = (a.v.take a.num.toNat).set index.toNat val
    rw [List.take_set]
  | remove index =>
    have hlt : index < a.num := hmeets
    have hltn := UInt32.lt_iff_toNat_lt.mp hlt
    have hnext : (index + 1).toNat = index.toNat + 1 := by
      rw [UInt32.toNat_add]
      exact Nat.mod_eq_of_lt (by change index.toNat + 1 < 4294967296; omega)
    have hmove : (a.num - (index + 1)).toNat = a.num.toNat - (index.toNat + 1) := by
      rw [UInt32.toNat_sub_of_le _ _ (UInt32.le_iff_toNat_le.mpr (by omega)), hnext]
    have hless : (a.num - 1).toNat = a.num.toNat - 1 :=
      UInt32.toNat_sub_of_le _ _ (UInt32.le_iff_toNat_le.mpr (by change 1 ≤ a.num.toNat; omega))
    have hfit : index.toNat + 1 + (a.num.toNat - (index.toNat + 1)) = a.num.toNat := by omega
    have hshift : index.toNat + (a.num.toNat - (index.toNat + 1)) = a.num.toNat - 1 := by omega
    rw [run, wp_bind, KArray.remove, wp_bind, wp_get, wp_bind, wp_kassert_of ha.fits, wp_bind, wp_kassert_of hlt]
    rw [pointers_eq (show (a.num - (index + 1)).toNat < 1073741824 by omega), hmove, if_pos (by omega), wp_set, wp_pure]
    have hlength : (a.v.take index.toNat ++ (a.v.drop (index.toNat + 1)).take (a.num.toNat - (index.toNat + 1)) ++
        a.v.drop (index.toNat + (a.num.toNat - (index.toNat + 1)))).length = a.v.length := by
      rw [List.length_append, List.length_append, List.length_take, List.length_take, List.length_drop, List.length_drop]
      omega
    refine ⟨⟨hmax.trans_eq hlength.symm, ?_, ?_⟩, ?_⟩
    · dsimp only
      rw [hlength]
      exact hblock
    · exact UInt32.le_iff_toNat_le.mpr (by change (a.num - 1).toNat ≤ a.max.toNat; omega)
    · have hdown := moved_down (show index.toNat + 1 + (a.num.toNat - (index.toNat + 1)) ≤ a.v.length by omega)
      change List.take (a.num - 1).toNat _ = (a.v.take a.num.toNat).eraseIdx index.toNat
      rw [hless, ← hshift, hdown, hfit]
  | setsize num =>
    rw [run, wp_bind]
    refine (setsize_wp ha hturns hmeets).mono (fun _ a' h => ?_) fun e a' h => ⟨h.1, trivial, h.2⟩
    obtain ⟨⟨hroom, hkept, hwf⟩, hn⟩ := h
    rw [wp_pure]
    refine ⟨hwf, ?_, ?_⟩
    · rw [contents_length hwf, hn]
    · rw [hlen, ← hkept, contents, hn, List.take_take, List.take_take, Nat.min_comm]

end ArrayCall

namespace KArray

variable {α : Type}

theorem behavesAs_of_allMeet {turns : ℕ} (hturns : 32 ≤ turns) (calls : List (ArrayCall α × ArrayStorage α)) {a : KArray α}
    (ha : a.Wf) (hmeet : AllMeet turns a calls) : BehavesAs turns a a.contents calls := by
  induction calls generalizing a with
  | nil => exact rfl
  | cons c calls ih =>
    obtain ⟨call, kmalloc⟩ := c
    refine ⟨rfl, ?_⟩
    have hrun := ArrayCall.run_wp kmalloc ha hturns call hmeet.1
    rcases hrun.cases with ⟨r, a', hok, hwf, hafter⟩ | ⟨e, a', herr, he, halloc, rfl⟩ | ⟨_, hno⟩
    · rw [wp_of_ok hok]
      refine ⟨a'.contents, hafter, ih hwf (hmeet.2 a' ?_)⟩
      rw [Op.after, hok]
    · rw [wp_of_err herr]
      refine ⟨he, halloc, ih ha (hmeet.2 a' ?_)⟩
      rw [Op.after, herr]
    · exact hno.elim

/-- `array_preallocate` and `array_setsize` do right exactly for the sizes that doubling can
reach, and while calls keep to those the array behaves as a list. -/
theorem array_grows_right_iff_reaches [Inhabited α] (a : KArray α) (ha : a.Wf) :
    (∀ num, a.GrowsRight num ↔ Reaches a.max num) ∧
    ∀ (turns : ℕ) (calls : List (ArrayCall α × ArrayStorage α)), 32 ≤ turns → AllMeet turns a calls →
      BehavesAs turns a a.contents calls := by
  refine ⟨fun num => ⟨reaches_of_growsRight, fun hreach => ?_⟩, fun turns calls hturns hmeet =>
    behavesAs_of_allMeet hturns calls ha hmeet⟩
  refine ⟨32, fun turns hturns kmalloc => ⟨?_, setsize_wp ha hturns hreach⟩⟩
  exact (preallocate_wp ha hturns hreach).mono (fun _ a' h => ⟨h.1, h.2.1⟩) fun _ _ h => h

theorem wf_init : (init : KArray α).Wf := ⟨Nat.zero_le _, (show 0 * 4 < 4294967296 by decide), UInt32.le_refl _⟩

theorem array_grows_right_from_init : (init : KArray ℕ).Wf ∧
    (∀ num, (init : KArray ℕ).GrowsRight num ↔ Reaches 0 num) ∧
    ∀ (turns : ℕ) (calls : List (ArrayCall ℕ × ArrayStorage ℕ)), 32 ≤ turns → AllMeet turns init calls →
      BehavesAs turns init [] calls :=
  ⟨wf_init, array_grows_right_iff_reaches init wf_init⟩

/-- 0 and the powers of 2 from 4 on. -/
def doublings : List UInt32 := 0 :: (List.range 30).map fun k => UInt32.ofNat (2 ^ (k + 2))

theorem newmaxLoop_endless (turns : ℕ) : ∀ x ∈ doublings, newmaxLoop 2147483649 turns x = none := by
  have hall : (doublings.all fun x => x < 2147483649 ∧ grow x ∈ doublings) = true := by decide +kernel
  have hclosed : ∀ x ∈ doublings, x < 2147483649 ∧ grow x ∈ doublings := fun x hx =>
    of_decide_eq_true (List.all_eq_true.mp hall x hx)
  induction turns with
  | zero =>
    intro x hx
    rw [newmaxLoop, if_pos (hclosed x hx).1]
  | succ turns ih =>
    intro x hx
    rw [newmaxLoop, if_pos (hclosed x hx).1]
    exact ih (grow x) (hclosed x hx).2

/-- For 2^29 + 1 pointers `kmalloc` is asked for 0 bytes; for 2^31 + 1 the loop never ends. -/
theorem array_grows_wrong :
    preallocate generous 32 536870913 (init : KArray ℕ) = .ok () ⟨[], 0, 1073741824⟩ ∧
    (∀ turns, preallocate generous turns 2147483649 (init : KArray ℕ) = .panic) ∧
    ¬(init : KArray ℕ).GrowsRight 536870913 ∧ ¬(init : KArray ℕ).GrowsRight 2147483649 := by
  refine ⟨rfl, fun turns => ?_, fun hright => ?_, fun hright => ?_⟩
  · have hloop : newmaxLoop 2147483649 turns (init : KArray ℕ).max = none := newmaxLoop_endless turns 0 (by decide)
    rewrite [preallocate, get_bind, if_pos (by decide), hloop]
    rfl
  · rcases reaches_of_growsRight hright with hle | ⟨j, hlow, hhigh⟩
    · exact absurd hle (by decide)
    · change 536870913 ≤ 4 * 2 ^ j at hlow
      change 4 * 2 ^ j < 1073741824 at hhigh
      rcases Nat.lt_or_ge j 28 with hj | hj
      · have hpow : 2 ^ j ≤ 2 ^ 27 := Nat.pow_le_pow_right (by decide) (by omega)
        omega
      · have hpow : 2 ^ 28 ≤ 2 ^ j := Nat.pow_le_pow_right (by decide) hj
        omega
  · rcases reaches_of_growsRight hright with hle | ⟨j, hlow, hhigh⟩
    · exact absurd hle (by decide)
    · change 2147483649 ≤ 4 * 2 ^ j at hlow
      change 4 * 2 ^ j < 1073741824 at hhigh
      omega

end KArray

end Os161
