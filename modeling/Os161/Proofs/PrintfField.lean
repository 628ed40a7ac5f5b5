import Os161.Proofs.Printf

/-! A field with an integer reads back as the number that was printed, except where zeros
were put behind it. -/

namespace Os161

open Op

namespace Printf

/-! ### Reading digits -/

/-- The value of a list of digits, the most significant one first, behind `n`. -/
def horner (base : ℕ) (ds : List ℕ) (n : ℕ) : ℕ := ds.foldl (fun n d => n * base + d) n

theorem horner_append (base : ℕ) (ds ds' : List ℕ) (n : ℕ) : horner base (ds ++ ds') n = horner base ds' (horner base ds n) :=
  List.foldl_append

theorem horner_zeros (base k n : ℕ) : horner base (List.replicate k 0) n = n * base ^ k := by
  induction k generalizing n with
  | zero => simp [horner]
  | succ k ih =>
    rw [List.replicate_succ, horner, List.foldl_cons, ← horner, ih, Nat.add_zero, pow_succ', mul_assoc]

theorem horner_digits (base n : ℕ) : horner base (Nat.digits base n).reverse 0 = n := by
  rw [horner, List.foldl_reverse]
  have h := Nat.ofDigits_digits base n
  rw [Nat.ofDigits_eq_foldr] at h
  simpa [Nat.add_comm, Nat.mul_comm] using h

/-- The digits of a number, at least one. -/
def digitList (base n : ℕ) : List ℕ := if n = 0 then [0] else (Nat.digits base n).reverse

theorem digitsText_eq (base n : ℕ) : digitsText base n = (digitList base n).map digitChar := by
  unfold digitsText digitList
  by_cases h : n = 0
  · rewrite [if_pos h, if_pos h]
    rfl
  · rw [if_neg h, if_neg h, List.map_reverse]

theorem horner_digitList (base n : ℕ) : horner base (digitList base n) 0 = n := by
  unfold digitList
  by_cases h : n = 0
  · rw [if_pos h, h]
    simp [horner]
  · rw [if_neg h, horner_digits]

theorem digitList_lt {base : ℕ} (hb : 1 < base) (n : ℕ) : ∀ d ∈ digitList base n, d < base := by
  intro d hd
  unfold digitList at hd
  by_cases h : n = 0
  · rw [if_pos h, List.mem_singleton] at hd
    omega
  · rw [if_neg h, List.mem_reverse] at hd
    exact Nat.digits_lt_base hb hd

theorem digitList_length (base n : ℕ) : (digitList base n).length = max 1 (Nat.digits base n).length := by
  unfold digitList
  by_cases h : n = 0
  · simp [h]
  · have hne : Nat.digits base n ≠ [] := Nat.digits_ne_nil_iff_ne_zero.mpr h
    have hpos := List.length_pos_iff.mpr hne
    rw [if_neg h, List.length_reverse]
    omega

theorem digitChar_facts : ∀ d < 16, digitChar d ≠ byteOf ' ' ∧ digitChar d ≠ byteOf '-' ∧ digitChar d ≠ byteOf 'x' := by decide

theorem digitValue_digitChar : ∀ base ≤ 16, ∀ d < base, digitValue base (digitChar d) = some d := by decide +kernel

/-- Characters of digits are read as their value. -/
theorem foldlM_digits {base : ℕ} (hb : base ≤ 16) {ds : List ℕ} (hds : ∀ d ∈ ds, d < base) (n : ℕ) :
    (ds.map digitChar).foldlM (fun n ch => (digitValue base ch).map (n * base + ·)) n = some (horner base ds n) := by
  induction ds generalizing n with
  | nil => rfl
  | cons d ds ih =>
    rw [List.forall_mem_cons] at hds
    rw [List.map_cons, List.foldlM_cons, digitValue_digitChar base hb d hds.1, Option.map_some, Option.bind_eq_bind,
      Option.bind_some, ih hds.2]
    rfl

/-! ### Reading a field -/

theorem drop_blanks {core : List UInt8} (hcore : ∀ ch ∈ core, ch ≠ byteOf ' ') (hne : core ≠ []) (left right : ℕ) :
    ((List.replicate left (byteOf ' ') ++ (core ++ List.replicate right (byteOf ' '))).dropWhile (· = byteOf ' ')).rdropWhile
      (· = byteOf ' ') = core := by
  have hblank (k : ℕ) : ∀ ch ∈ List.replicate k (byteOf ' '), decide (ch = byteOf ' ') = true := fun ch hch =>
    decide_eq_true (List.eq_of_mem_replicate hch)
  have hkeep (l l' : List UInt8) (hl : ∀ ch ∈ l, ch ≠ byteOf ' ') (h : l ≠ []) :
      (l ++ l').dropWhile (fun ch => decide (ch = byteOf ' ')) = l ++ l' := by
    obtain ⟨ch, tail, rfl⟩ := List.exists_cons_of_ne_nil h
    rw [List.cons_append, List.dropWhile_cons_of_neg]
    simpa using hl ch List.mem_cons_self
  have hrev : ∀ ch ∈ core.reverse, ch ≠ byteOf ' ' := fun ch hch => hcore ch (List.mem_reverse.mp hch)
  have hend := hkeep core.reverse [] hrev (by simpa using hne)
  rw [List.append_nil] at hend
  rw [List.dropWhile_append_of_pos (hblank left), hkeep core _ hcore hne, List.rdropWhile, List.reverse_append,
    List.reverse_replicate, List.dropWhile_append_of_pos (hblank right), hend, List.reverse_reverse]

/-- The prefix of a number in base 16. -/
def hexPrefix (hex : Bool) : List UInt8 := if hex = true then bytesOf "0x" else []

def minusSign (neg : Bool) : List UInt8 := if neg = true then bytesOf "-" else []

section
variable {base : ℕ} {ds : List ℕ} {hex neg : Bool}

theorem dropPrefix_digits (hb : base ≤ 16) (hds : ∀ d ∈ ds, d < base) (hhex : hex = true → base = 16) :
    dropPrefix base (hexPrefix hex ++ ds.map digitChar) = ds.map digitChar := by
  unfold dropPrefix
  cases hex with
  | true =>
    rw [if_pos ⟨hhex rfl, List.prefix_append _ _⟩]
    rfl
  | false =>
    refine if_neg fun h => ?_
    obtain ⟨t, ht⟩ := h.2
    have hx : byteOf 'x' ∈ ds.map digitChar := by
      change _ ∈ [] ++ ds.map digitChar
      rw [← show bytesOf "0x" ++ t = [] ++ ds.map digitChar from ht]
      exact List.mem_append_left _ (by decide)
    obtain ⟨d, hd, hdx⟩ := List.mem_map.mp hx
    exact (digitChar_facts d ((hds d hd).trans_le hb)).2.2 hdx

theorem readDigits_digits (hb : base ≤ 16) (hds : ∀ d ∈ ds, d < base) (hne : ds ≠ []) (hhex : hex = true → base = 16) :
    readDigits base (dropPrefix base (hexPrefix hex ++ ds.map digitChar)) = some (horner base ds 0) := by
  rw [dropPrefix_digits hb hds hhex, readDigits, if_neg (by simpa using hne), foldlM_digits hb hds]

theorem mem_body (hb : base ≤ 16) (hds : ∀ d ∈ ds, d < base) :
    ∀ ch ∈ hexPrefix hex ++ ds.map digitChar, ch ≠ byteOf ' ' ∧ ch ≠ byteOf '-' := by
  intro ch hch
  rcases List.mem_append.mp hch with hpre | hdigit
  · have hmem : ∀ ch ∈ bytesOf "0x", ch ≠ byteOf ' ' ∧ ch ≠ byteOf '-' := forall_mem_of_all (by decide)
    unfold hexPrefix at hpre
    split_ifs at hpre
    · exact hmem ch hpre
    · exact absurd hpre List.not_mem_nil
  · obtain ⟨d, hd, rfl⟩ := List.mem_map.mp hdigit
    have hfacts := digitChar_facts d ((hds d hd).trans_le hb)
    exact ⟨hfacts.1, hfacts.2.1⟩

/-- Blanks, a sign, a prefix, digits and blanks read back as the value of the digits. -/
theorem readBack_field (hb : base ≤ 16) (hds : ∀ d ∈ ds, d < base) (hne : ds ≠ []) (hhex : hex = true → base = 16)
    (left right : ℕ) :
    readBack base (List.replicate left (byteOf ' ') ++ (minusSign neg ++ (hexPrefix hex ++ ds.map digitChar) ++
      List.replicate right (byteOf ' '))) = some (if neg = true then -(horner base ds 0 : ℤ) else horner base ds 0) := by
  have hbody : ∀ ch ∈ hexPrefix hex ++ ds.map digitChar, ch ≠ byteOf ' ' ∧ ch ≠ byteOf '-' := mem_body hb hds
  have hbodyNe : hexPrefix hex ++ ds.map digitChar ≠ [] := by
    intro h
    exact hne (by simpa using (List.append_eq_nil_iff.mp h).2)
  have hcore : ∀ ch ∈ minusSign neg ++ (hexPrefix hex ++ ds.map digitChar), ch ≠ byteOf ' ' := by
    intro ch hch
    rcases List.mem_append.mp hch with hminus | hch
    · unfold minusSign at hminus
      split_ifs at hminus
      · rw [List.mem_singleton.mp hminus]
        decide
      · exact absurd hminus List.not_mem_nil
    · exact (hbody ch hch).1
  have hcoreNe : minusSign neg ++ (hexPrefix hex ++ ds.map digitChar) ≠ [] := fun h =>
    hbodyNe (List.append_eq_nil_iff.mp h).2
  have hread := readDigits_digits hb hds hne hhex
  unfold readBack
  dsimp only
  rw [drop_blanks hcore hcoreNe]
  cases neg with
  | true =>
    rw [if_pos rfl]
    change Option.map _ (readDigits base (dropPrefix base (hexPrefix hex ++ ds.map digitChar))) = _
    rw [hread]
    rfl
  | false =>
    have hhead : (minusSign false ++ (hexPrefix hex ++ ds.map digitChar)).head? ≠ some (byteOf '-') := fun h =>
      (hbody _ (List.mem_of_mem_head? h)).2 rfl
    rw [if_neg hhead]
    change Option.map _ (readDigits base (dropPrefix base (hexPrefix hex ++ ds.map digitChar))) = _
    rw [hread]
    rfl

end

/-! ### Parsing a field -/

/-- The state when the modifiers `mods` have been seen. -/
structure Parsed (mods : List UInt8) (st : PfState) : Prop where
  altformat : st.altformat = true ↔ byteOf '#' ∈ mods
  rightspc : st.rightspc = true ↔ byteOf '-' ∈ mods
  size : st.size = fieldSize mods
  spacing : st.spacing = fieldWidth mods
  fill : st.fillchar = byteOf ' ' ∨ st.fillchar = byteOf '0'
  zero : st.fillchar = byteOf '0' ↔ ZeroFilled mods
  sign : st.sign = 0
  baseprefix : st.baseprefix = false

theorem widthDigits_other (mods : List UInt8) {ch : UInt8} (hch : ¬(byteOf '0' ≤ ch ∧ ch ≤ byteOf '9')) :
    widthDigits (mods ++ [ch]) = widthDigits mods := by
  rw [widthDigits, List.filter_append, List.filter_singleton, decide_eq_false hch, cond_false, List.append_nil, ← widthDigits]

theorem widthDigits_digit (mods : List UInt8) {ch : UInt8} (hch : byteOf '0' ≤ ch ∧ ch ≤ byteOf '9') :
    widthDigits (mods ++ [ch]) = widthDigits mods ++ [ch] := by
  rw [widthDigits, List.filter_append, List.filter_singleton, decide_eq_true hch, cond_true, ← widthDigits]

theorem fieldWidth_other (mods : List UInt8) {ch : UInt8} (hch : ¬(byteOf '0' ≤ ch ∧ ch ≤ byteOf '9')) :
    fieldWidth (mods ++ [ch]) = fieldWidth mods := by
  rw [fieldWidth, widthDigits_other mods hch, ← fieldWidth]

theorem fieldWidth_digit (mods : List UInt8) {ch : UInt8} (hch : byteOf '0' ≤ ch ∧ ch ≤ byteOf '9') :
    fieldWidth (mods ++ [ch]) = fieldWidth mods * 10 + (ch.toNat - 48) := by
  rewrite [fieldWidth, widthDigits_digit mods hch, List.foldl_append]
  rfl

theorem fieldSize_append (mods : List UInt8) (ch : UInt8) : fieldSize (mods ++ [ch]) = sizeAfter (fieldSize mods) ch := by
  rewrite [fieldSize, List.foldl_append]
  rfl

theorem fieldWidth_le_append (mods : List UInt8) (ch : UInt8) : fieldWidth mods ≤ fieldWidth (mods ++ [ch]) := by
  by_cases hch : byteOf '0' ≤ ch ∧ ch ≤ byteOf '9'
  · rw [fieldWidth_digit mods hch]
    omega
  · rw [fieldWidth_other mods hch]

theorem fieldWidth_le (mods more : List UInt8) : fieldWidth mods ≤ fieldWidth (mods ++ more) := by
  induction more using List.reverseRecOn with
  | nil => rw [List.append_nil]
  | append_singleton more ch ih =>
    rw [← List.append_assoc]
    exact ih.trans (fieldWidth_le_append _ ch)

/-- While the width is 0 there are only zeros. -/
theorem widthDigits_of_width_zero {mods : List UInt8} (h : fieldWidth mods = 0) : ∀ ch ∈ widthDigits mods, ch = byteOf '0' := by
  induction mods using List.reverseRecOn with
  | nil => exact fun ch hch => absurd hch List.not_mem_nil
  | append_singleton mods c ih =>
    by_cases hc : byteOf '0' ≤ c ∧ c ≤ byteOf '9'
    · rw [fieldWidth_digit mods hc] at h
      have hlow : 48 ≤ c.toNat := UInt8.le_iff_toNat_le.mp hc.1
      have hzero : c = byteOf '0' := UInt8.toNat_inj.mp (show c.toNat = 48 by omega)
      intro ch hch
      rw [widthDigits_digit mods hc, List.mem_append, List.mem_singleton] at hch
      rcases hch with hold | hnew
      · exact ih (by omega) ch hold
      · exact hnew.trans hzero
    · rw [fieldWidth_other mods hc] at h
      rw [widthDigits_other mods hc]
      exact ih h

theorem i32_of_bounds {x : ℤ} (h0 : 0 ≤ x) (h : x < 2147483648) : i32 x = x := by
  obtain ⟨n, rfl⟩ := Int.eq_ofNat_of_zero_le h0
  exact i32_of_lt (by omega)

theorem mem_snoc_of_ne {a ch : UInt8} (mods : List UInt8) (h : ch ≠ a) : a ∈ mods ++ [ch] ↔ a ∈ mods := by
  rw [List.mem_append, List.mem_singleton]
  exact or_iff_left fun heq => h heq.symm

theorem zeroFilled_other {mods : List UInt8} {ch : UInt8} (hch : ¬(byteOf '0' ≤ ch ∧ ch ≤ byteOf '9')) :
    ZeroFilled (mods ++ [ch]) ↔ ZeroFilled mods := by
  rw [ZeroFilled, widthDigits_other mods hch, ← ZeroFilled]

/-- A digit other than a leading zero. -/
theorem zeroFilled_digit {mods : List UInt8} {ch : UInt8} (hch : byteOf '0' ≤ ch ∧ ch ≤ byteOf '9')
    (h : ch ≠ byteOf '0' ∨ widthDigits mods ≠ []) : ZeroFilled (mods ++ [ch]) ↔ ZeroFilled mods := by
  unfold ZeroFilled
  rw [widthDigits_digit mods hch]
  cases hds : widthDigits mods with
  | nil =>
    rw [hds] at h
    simpa using h
  | cons d ds => simp

theorem zeroFilled_zero {mods : List UInt8} (h : fieldWidth mods = 0) : ZeroFilled (mods ++ [byteOf '0']) := by
  have hall := widthDigits_of_width_zero h
  unfold ZeroFilled
  rw [widthDigits_digit mods (by decide)]
  cases hds : widthDigits mods with
  | nil => rfl
  | cons d ds =>
    rw [hds] at hall
    rw [List.cons_append, List.head?_cons, hall d List.mem_cons_self]

/-- A modifier that is not a digit. -/
theorem Parsed.other {mods : List UInt8} {st : PfState} {ch : UInt8} (h : Parsed mods st)
    (hch : ¬(byteOf '0' ≤ ch ∧ ch ≤ byteOf '9')) {alt right : Bool}
    (halt : alt = true ↔ byteOf '#' ∈ mods ++ [ch]) (hright : right = true ↔ byteOf '-' ∈ mods ++ [ch]) :
    Parsed (mods ++ [ch]) { st with altformat := alt, rightspc := right, size := sizeAfter st.size ch } where
  altformat := halt
  rightspc := hright
  size := by rw [h.size, fieldSize_append]
  spacing := by rw [h.spacing, fieldWidth_other mods hch]
  fill := h.fill
  zero := by rw [h.zero, zeroFilled_other hch]
  sign := h.sign
  baseprefix := h.baseprefix

theorem sizeAfter_digit {ch : UInt8} (hch : byteOf '0' ≤ ch ∧ ch ≤ byteOf '9') (sz : PfSize) : sizeAfter sz ch = sz := by
  have hl : ch ≠ byteOf 'l' := fun h => absurd (h ▸ hch) (by decide)
  have hz : ch ≠ byteOf 'z' := fun h => absurd (h ▸ hch) (by decide)
  rw [sizeAfter, if_neg hl, if_neg hz]

theorem Parsed.digit {mods : List UInt8} {st : PfState} {ch : UInt8} (h : Parsed mods st)
    (hch : byteOf '0' ≤ ch ∧ ch ≤ byteOf '9') {width : ℤ} {fill : UInt8}
    (hwidth : width = fieldWidth (mods ++ [ch])) (hfill : fill = byteOf ' ' ∨ fill = byteOf '0')
    (hzero : fill = byteOf '0' ↔ ZeroFilled (mods ++ [ch])) :
    Parsed (mods ++ [ch]) { st with spacing := width, fillchar := fill } where
  altformat := h.altformat.trans (mem_snoc_of_ne mods fun heq => absurd (heq ▸ hch) (by decide)).symm
  rightspc := h.rightspc.trans (mem_snoc_of_ne mods fun heq => absurd (heq ▸ hch) (by decide)).symm
  size := by rw [h.size, fieldSize_append, sizeAfter_digit hch]
  spacing := hwidth
  fill := hfill
  zero := hzero
  sign := h.sign
  baseprefix := h.baseprefix

/-- One modifier. -/
theorem Parsed.modified {mods : List UInt8} {st : PfState} {ch : UInt8} (h : Parsed mods st) (hch : ch ∈ modifierChars)
    (hwidth : fieldWidth (mods ++ [ch]) < 2147483648) : Parsed (mods ++ [ch]) (modified st ch) := by
  have hmem : ch ∈ mods ++ [ch] := List.mem_append_right _ (List.mem_singleton_self ch)
  have hwide : ∀ ch ∈ modifierChars, ch ≠ byteOf '#' → ch ≠ byteOf '-' → ch ≠ byteOf 'l' → ch ≠ byteOf 'z' →
      byteOf '0' ≤ ch ∧ ch ≤ byteOf '9' := forall_mem_of_all (by decide)
  unfold Printf.modified
  by_cases h1 : ch = byteOf '#'
  · subst h1
    exact h.other (by decide) (iff_of_true rfl hmem) (h.rightspc.trans (mem_snoc_of_ne mods (by decide)).symm)
  by_cases h2 : ch = byteOf '-'
  · subst h2
    exact h.other (by decide) (h.altformat.trans (mem_snoc_of_ne mods (by decide)).symm) (iff_of_true rfl hmem)
  have halt := h.altformat.trans (mem_snoc_of_ne mods h1).symm
  have hright := h.rightspc.trans (mem_snoc_of_ne mods h2).symm
  rw [if_neg h1, if_neg h2]
  by_cases h3 : ch = byteOf 'l'
  · subst h3
    exact h.other (by decide) halt hright
  by_cases h4 : ch = byteOf 'z'
  · subst h4
    exact h.other (by decide) halt hright
  have hdigit := hwide ch hch h1 h2 h3 h4
  rw [if_neg h3, if_neg h4, h.spacing]
  rw [fieldWidth_digit mods hdigit] at hwidth
  by_cases h5 : ch = byteOf '0'
  · subst h5
    have hval : fieldWidth (mods ++ [byteOf '0']) = fieldWidth mods * 10 := fieldWidth_digit mods hdigit
    rw [if_pos rfl]
    by_cases hpos : (0 : ℤ) < fieldWidth mods
    · have hne : widthDigits mods ≠ [] := by
        intro hnil
        rw [fieldWidth, hnil] at hpos
        exact absurd hpos (by decide)
      rw [if_pos hpos, i32_of_bounds (by omega) (by omega)]
      refine h.digit hdigit ?_ h.fill (h.zero.trans (zeroFilled_digit hdigit (.inr hne)).symm)
      rw [hval]
      push_cast
      rfl
    · have hzero : fieldWidth mods = 0 := by omega
      rw [if_neg hpos]
      refine h.digit hdigit ?_ (.inr rfl) (iff_of_true rfl (zeroFilled_zero hzero))
      rw [hval, hzero]
  · have hlow : 48 ≤ ch.toNat := UInt8.le_iff_toNat_le.mp hdigit.1
    have hzero : (byteOf '0').toNat = 48 := rfl
    rw [if_neg h5, hzero, i32_of_bounds (by omega) (by omega)]
    refine h.digit hdigit ?_ h.fill (h.zero.trans (zeroFilled_digit hdigit (.inl h5)).symm)
    rw [fieldWidth_digit mods hdigit]
    omega

theorem modifierChars_ne_zero : ∀ ch ∈ modifierChars, ch ≠ 0 := forall_mem_of_all (by decide)

theorem integerChars_apart : ∀ ch ∈ integerChars, ch ≠ 0 ∧ ch ∉ modifierChars := forall_mem_of_all (by decide)

/-- The rest of a field whose modifiers `done` have been seen. -/
theorem fieldSends_wp {conv : UInt8} (hconv : conv ∈ integerChars) {a : PfArg} (todo : List UInt8) :
    ∀ (done : List UInt8) (pf : Pf (List (List UInt8))), (∀ ch ∈ todo, ch ∈ modifierChars) →
      a.kind = integerKind (fieldSize (done ++ todo)) conv → fieldWidth (done ++ todo) < 2147483648 →
      pf.clientdata = [] → pf.state.inPct = true → pf.state.ap = [a] → Parsed done pf.state →
      Op.wp False ((todo ++ [conv]).foldlM (fun _ ch => pfSend keep ch) ())
        (fun _ pf' => ∃ st, Parsed (done ++ todo) st ∧ pf'.clientdata.flatten = numberText (numbered st conv a []))
        (fun _ _ => False) pf := by
  induction todo with
  | nil =>
    intro done pf _ hkind _ hclient hpct hap hparsed
    rw [List.append_nil] at hkind
    rw [List.nil_append, List.foldlM_cons, wp_bind, pfSend, wp_bind, wp_kassert_of (integerChars_apart conv hconv).1, wp_bind, onState,
      wp_zoom, wp_get, hpct, if_neg fun h => Bool.false_ne_true h.1.symm, if_neg Bool.false_ne_true.symm,
      if_neg (integerChars_apart conv hconv).2, if_pos hconv]
    rw [← hparsed.size] at hkind
    refine pfInteger_wp hap hkind fun pf' hsent => ?_
    rw [List.foldlM_nil, wp_pure]
    refine ⟨pf.state, by rwa [List.append_nil], ?_⟩
    have htext := hsent.text
    rw [hclient, List.flatten_nil, List.nil_append] at htext
    exact htext
  | cons ch todo ih =>
    intro done pf hmods hkind hwidth hclient hpct hap hparsed
    rw [List.forall_mem_cons] at hmods
    rw [List.append_cons done ch todo] at hkind hwidth ⊢
    rw [List.cons_append, List.foldlM_cons, wp_bind, pfSend, wp_bind, wp_kassert_of (modifierChars_ne_zero ch hmods.1), wp_bind, onState,
      wp_zoom, wp_get, hpct, if_neg fun h => Bool.false_ne_true h.1.symm, if_neg Bool.false_ne_true.symm, if_pos hmods.1]
    refine onState_modifier hmods.1 ?_
    obtain ⟨hap', hpct', -⟩ := modified_keeps pf.state ch
    have hstep := hparsed.modified hmods.1 ((fieldWidth_le _ todo).trans_lt hwidth)
    exact ih (done ++ [ch]) { pf with state := Printf.modified pf.state ch } hmods.2 hkind hwidth hclient (hpct'.trans hpct)
      (hap'.trans hap) hstep

theorem vprintf_field {mods : List UInt8} (hmods : ∀ ch ∈ mods, ch ∈ modifierChars) {conv : UInt8} (hconv : conv ∈ integerChars)
    {a : PfArg} (ha : a.kind = integerKind (fieldSize mods) conv) (hwidth : fieldWidth mods < 2147483648) :
    ∃ l st, pieces (fieldFormat mods conv) [a] = some l ∧ Parsed mods st ∧ l.flatten = numberText (numbered st conv a []) := by
  have hcstr : cstr (fieldFormat mods conv) = byteOf '%' :: (mods ++ [conv]) := by
    refine List.takeWhile_eq_self_iff.mpr fun ch hch => decide_eq_true ?_
    rcases List.mem_cons.mp hch with heq | hch
    · rw [heq]
      decide
    · rcases List.mem_append.mp hch with hmod | hlast
      · exact modifierChars_ne_zero ch (hmods ch hmod)
      · rw [List.mem_singleton.mp hlast]
        exact (integerChars_apart conv hconv).1
  have hparsed : Parsed [] { (pfStart ([] : List (List UInt8)) [a]).state with inPct := true } :=
    ⟨iff_of_false Bool.false_ne_true List.not_mem_nil, iff_of_false Bool.false_ne_true List.not_mem_nil, rfl, rfl, .inl rfl,
      iff_of_false (show byteOf ' ' ≠ byteOf '0' by decide) (show none ≠ some (byteOf '0') by decide), rfl, rfl⟩
  have hrun : Op.wp False (do (cstr (fieldFormat mods conv)).foldlM (fun _ ch => pfSend keep ch) ()
                              let pf ← Op.get
                              pure pf.charcount : PfM _ ℤ)
      (fun _ pf' => ∃ st, Parsed mods st ∧ pf'.clientdata.flatten = numberText (numbered st conv a [])) (fun _ _ => False)
      (pfStart [] [a]) := by
    rw [hcstr, wp_bind, List.foldlM_cons, wp_bind, pfSend, wp_bind, wp_kassert_of (by decide), wp_bind, onState, wp_zoom, wp_get,
      if_neg fun h => h.2 rfl, if_pos (show (pfStart _ _).state.inPct = false from rfl), onState, wp_zoom, wp_modify]
    have hsends := fieldSends_wp hconv mods [] { pfStart [] [a] with state := _ } hmods ha hwidth rfl rfl rfl hparsed
    exact hsends.mono (fun _ _ hdone => hdone) fun _ _ hno => hno
  rcases hrun.cases with ⟨n, pf', hok, st, hst, htext⟩ | ⟨_, _, _, hno⟩ | ⟨_, hno⟩
  · refine ⟨pf'.clientdata, st, ?_, hst, htext⟩
    rw [pieces, vprintf, hok]
  · exact hno.elim
  · exact hno.elim

/-! ### The text of a field -/

theorem padding_eq {width len : ℕ} (hwidth : width < 2147483648) (hlen : len < 2147483648) :
    padding width (i32 len) = ((width - len : ℕ) : ℤ) := by
  rw [padding, i32_of_lt hlen]
  by_cases h : len < width
  · rw [if_pos (by omega), i32_of_bounds (by omega) (by omega)]
    omega
  · rw [if_neg (by omega)]
    omega

theorem fillText_eq (here : Prop) [Decidable here] (fill : UInt8) (k : ℕ) :
    fillText here fill k = if here then List.replicate k fill else [] := by
  unfold fillText
  by_cases hk : k = 0
  · subst hk
    simp
  · have hpos : (0 : ℤ) < k := by omega
    simp only [hpos, true_and, Int.toNat_natCast]

theorem digitsText_length_le {base n : ℕ} (hb : 8 ≤ base) (hn : n < 18446744073709551616) :
    (digitsText base n).length ≤ 64 := by
  have hpow : 2 ^ 64 ≤ base ^ 64 := Nat.pow_le_pow_left (by omega) _
  have hlen : (Nat.digits base n).length ≤ 64 :=
    (Nat.digits_length_le_iff (show 1 < base by omega) n).mpr (lt_of_lt_of_le (by norm_num at hn ⊢; exact hn) hpow)
  rw [digitsText_eq, List.length_map, digitList_length]
  omega

theorem numOf_eq (conv : UInt8) (a : PfArg) : numOf conv a = (argValue conv a).natAbs := by
  have hsigned := signed_bounds a
  unfold numOf argValue
  split_ifs <;> omega

theorem signOf_ne_zero (conv : UInt8) (a : PfArg) : signOf conv a 0 ≠ 0 ↔ argValue conv a < 0 := by
  unfold signOf argValue
  by_cases hd : conv = byteOf 'd'
  · simp [hd]
  · simp [hd]

theorem numberLength_lt (mods : List UInt8) (conv : UInt8) (a : PfArg) : numberLength mods conv a < 2147483648 := by
  have hdigits := digitsText_length_le (le_baseOf conv) (numOf_lt conv a)
  rw [digitsText_eq, List.length_map, digitList_length, numOf_eq] at hdigits
  unfold numberLength prefixLength
  split_ifs <;> omega

/-- The padding of a field. -/
def fieldPad (mods : List UInt8) (conv : UInt8) (a : PfArg) : ℕ := fieldWidth mods - numberLength mods conv a

section
variable {mods : List UInt8} {st : PfState} (h : Parsed mods st) (conv : UInt8) (a : PfArg)
include h

theorem signPrefix_numbered : signPrefix (numbered st conv a []) = minusSign (argValue conv a < 0) := by
  have hsign : (numbered st conv a []).sign ≠ 0 ↔ argValue conv a < 0 := by
    change signOf conv a st.sign ≠ 0 ↔ _
    rw [h.sign, signOf_ne_zero]
  unfold signPrefix minusSign
  exact if_congr (hsign.trans decide_eq_true_iff.symm) rfl rfl

/-- The prefix in base 8 is a digit. -/
theorem basePrefix_numbered : ∃ (hex : Bool) (oct : ℕ), (hex = true → baseOf conv = 16) ∧
    basePrefix (numbered st conv a []) = hexPrefix hex ++ (List.replicate oct 0).map digitChar ∧
    (basePrefix (numbered st conv a [])).length = prefixLength mods conv := by
  have hbase : (numbered st conv a []).base = baseOf conv := rfl
  have halt : PfState.baseprefix (numbered st conv a []) = true ↔ byteOf '#' ∈ mods ∨ conv = byteOf 'p' := by
    rw [← h.altformat]
    change (if _ then true else st.baseprefix) = true ↔ _
    rw [h.baseprefix]
    simp
  unfold basePrefix prefixLength
  rw [hbase]
  by_cases hpre : byteOf '#' ∈ mods ∨ conv = byteOf 'p'
  · rw [if_pos hpre, halt.mpr hpre]
    by_cases h16 : baseOf conv = 16
    · rw [if_pos ⟨rfl, h16⟩, if_pos h16]
      exact ⟨true, 0, fun _ => h16, rfl, rfl⟩
    · rw [if_neg fun hb => h16 hb.2, if_neg h16]
      by_cases h8 : baseOf conv = 8
      · rw [if_pos ⟨rfl, h8⟩, if_pos h8]
        exact ⟨false, 1, fun hno => absurd hno Bool.false_ne_true, rfl, rfl⟩
      · rw [if_neg fun hb => h8 hb.2, if_neg h8]
        exact ⟨false, 0, fun hno => absurd hno Bool.false_ne_true, rfl, rfl⟩
  · rw [if_neg hpre, if_neg fun hb => hpre (halt.mp hb.1), if_neg fun hb => hpre (halt.mp hb.1)]
    exact ⟨false, 0, fun hno => absurd hno Bool.false_ne_true, rfl, rfl⟩

theorem prefixes_length : (signPrefix (numbered st conv a [])).length + (basePrefix (numbered st conv a [])).length +
    (digitsText (baseOf conv) (numOf conv a)).length = numberLength mods conv a := by
  obtain ⟨hex, oct, -, -, hlen⟩ := basePrefix_numbered h conv a
  rw [hlen, signPrefix_numbered h, digitsText_eq, List.length_map, digitList_length, numOf_eq, numberLength, minusSign]
  by_cases hneg : argValue conv a < 0
  · rewrite [if_pos hneg, if_pos (decide_eq_true hneg)]
    rfl
  · rewrite [if_neg hneg, if_neg fun hno => hneg (of_decide_eq_true hno)]
    rfl

/-- The text of a field, with the padding at one of its places. -/
theorem numberText_numbered (hwidth : fieldWidth mods < 2147483648) :
    numberText (numbered st conv a []) =
      (if st.rightspc = false ∧ st.fillchar ≠ byteOf '0' then List.replicate (fieldPad mods conv a) st.fillchar else []) ++
      signPrefix (numbered st conv a []) ++ basePrefix (numbered st conv a []) ++
      (if st.rightspc = false ∧ st.fillchar = byteOf '0' then List.replicate (fieldPad mods conv a) st.fillchar else []) ++
      digitsText (baseOf conv) (numOf conv a) ++
      (if st.rightspc = true then List.replicate (fieldPad mods conv a) st.fillchar else []) := by
  have hlen := prefixes_length h conv a
  have hpad : padding st.spacing (i32 ((signPrefix (numbered st conv a [])).length + (basePrefix (numbered st conv a [])).length +
      (digitsText (baseOf conv) (numOf conv a)).length)) = (fieldPad mods conv a : ℤ) := by
    rw [h.spacing, ← Nat.cast_add, ← Nat.cast_add, hlen, padding_eq hwidth (numberLength_lt mods conv a), fieldPad]
  have hdigits : digitsText (numbered st conv a []).base (numbered st conv a []).num = digitsText (baseOf conv) (numOf conv a) := rfl
  unfold numberText stuffText
  change fillText (st.rightspc = false ∧ st.fillchar ≠ byteOf '0') st.fillchar (padding st.spacing _) ++ _ ++ _ ++
    fillText (st.rightspc = false ∧ st.fillchar = byteOf '0') st.fillchar (padding st.spacing _) ++ _ ++
    fillText (st.rightspc = true) st.fillchar (padding st.spacing _) = _
  rw [hdigits, hpad, fillText_eq, fillText_eq, fillText_eq]

theorem numberText_length (hwidth : fieldWidth mods < 2147483648) :
    (numberText (numbered st conv a [])).length = numberLength mods conv a + fieldPad mods conv a := by
  have hlen := prefixes_length h conv a
  rw [numberText_numbered h conv a hwidth]
  cases hright : st.rightspc with
  | true =>
    simp
    omega
  | false =>
    by_cases hzero : st.fillchar = byteOf '0'
    · simp [hzero]
      omega
    · simp [hzero]
      omega

/-- Blanks on either side, zeros before the digits or behind them. -/
theorem numberText_layout (hwidth : fieldWidth mods < 2147483648) : ∃ (hex : Bool) (left zeros trail right : ℕ),
    (hex = true → baseOf conv = 16) ∧
    (byteOf '-' ∈ mods ∧ ZeroFilled mods → trail = fieldPad mods conv a) ∧ (¬(byteOf '-' ∈ mods ∧ ZeroFilled mods) → trail = 0) ∧
    numberText (numbered st conv a []) =
      List.replicate left (byteOf ' ') ++ (minusSign (argValue conv a < 0) ++ (hexPrefix hex ++
        (List.replicate zeros 0 ++ digitList (baseOf conv) (argValue conv a).natAbs ++ List.replicate trail 0).map digitChar) ++
        List.replicate right (byteOf ' ')) := by
  obtain ⟨hex, oct, hhex, hpre, -⟩ := basePrefix_numbered h conv a
  have hchar : digitChar 0 = byteOf '0' := by decide
  rw [numberText_numbered h conv a hwidth, signPrefix_numbered h, hpre, digitsText_eq, numOf_eq]
  rw [← h.rightspc, ← h.zero]
  cases hright : st.rightspc with
  | false =>
    by_cases hzero : st.fillchar = byteOf '0'
    · refine ⟨hex, 0, oct + fieldPad mods conv a, 0, 0, hhex, fun hno => absurd hno.1 Bool.false_ne_true, fun _ => rfl, ?_⟩
      rw [List.replicate_add]
      simp [hzero, hchar, List.append_assoc]
    · have hblank := h.fill.resolve_right hzero
      refine ⟨hex, fieldPad mods conv a, oct, 0, 0, hhex, fun hno => absurd hno.1 Bool.false_ne_true, fun _ => rfl, ?_⟩
      rw [hblank] at hzero ⊢
      simp [hzero, List.append_assoc]
  | true =>
    by_cases hzero : st.fillchar = byteOf '0'
    · refine ⟨hex, 0, oct, fieldPad mods conv a, 0, hhex, fun _ => rfl, fun hno => absurd ⟨rfl, hzero⟩ hno, ?_⟩
      simp [hzero, hchar, List.append_assoc]
    · have hblank := h.fill.resolve_right hzero
      refine ⟨hex, 0, oct, 0, fieldPad mods conv a, hhex, fun hno => absurd hno.2 hzero, fun _ => rfl, ?_⟩
      rw [hblank]
      simp [List.append_assoc]

end

theorem baseOf_le (conv : UInt8) : baseOf conv ≤ 16 := by
  unfold baseOf
  split_ifs <;> decide

theorem horner_padded (base n zeros trail : ℕ) :
    horner base (List.replicate zeros 0 ++ digitList base n ++ List.replicate trail 0) 0 = n * base ^ trail := by
  rw [horner_append, horner_append, horner_zeros base zeros, Nat.zero_mul, horner_digitList, horner_zeros]

/-- What is read back: the zeros behind the number count. -/
theorem readBack_numberText {mods : List UInt8} {st : PfState} (h : Parsed mods st) (conv : UInt8) (a : PfArg)
    (hwidth : fieldWidth mods < 2147483648) : ∃ trail : ℕ,
      (byteOf '-' ∈ mods ∧ ZeroFilled mods → trail = fieldPad mods conv a) ∧
      (¬(byteOf '-' ∈ mods ∧ ZeroFilled mods) → trail = 0) ∧
      readBack (baseOf conv) (numberText (numbered st conv a [])) = some (argValue conv a * (baseOf conv : ℤ) ^ trail) := by
  have hbase := le_baseOf conv
  obtain ⟨hex, left, zeros, trail, right, hhex, htrail, hno, htext⟩ := numberText_layout h conv a hwidth
  have hlt : ∀ d ∈ List.replicate zeros 0 ++ digitList (baseOf conv) (argValue conv a).natAbs ++ List.replicate trail 0,
      d < baseOf conv := by
    intro d hd
    rw [List.mem_append, List.mem_append, List.mem_replicate, List.mem_replicate] at hd
    rcases hd with (⟨-, hz⟩ | hd) | ⟨-, hz⟩
    · omega
    · exact digitList_lt (by omega) _ d hd
    · omega
  have hne : List.replicate zeros 0 ++ digitList (baseOf conv) (argValue conv a).natAbs ++ List.replicate trail 0 ≠ [] := by
    intro hnil
    have hlen := congrArg List.length hnil
    rw [List.length_append, List.length_append, digitList_length, List.length_nil] at hlen
    omega
  refine ⟨trail, htrail, hno, ?_⟩
  rw [htext, readBack_field (baseOf_le conv) hlt hne hhex, horner_padded]
  congr 1
  push_cast
  by_cases hneg : argValue conv a < 0
  · rw [if_pos (decide_eq_true hneg), abs_of_neg hneg, neg_mul, neg_neg]
  · rw [if_neg fun hno => hneg (of_decide_eq_true hno), abs_of_nonneg (by omega)]

/-- A field with an integer reads back as its argument and is as wide as it should be, and
the conversion stays in its buffer, unless it is filled with zeros on its right. -/
theorem integer_field_reads_back_iff (mods : List UInt8) (hmods : ∀ ch ∈ mods, ch ∈ modifierChars) (conv : UInt8)
    (hconv : conv ∈ integerChars) (a : PfArg) (ha : a.kind = integerKind (fieldSize mods) conv)
    (hwidth : fieldWidth mods < 2147483648) : FieldReads mods conv a ↔ ¬RightZeros mods conv a := by
  have hbase := le_baseOf conv
  obtain ⟨l, st, hpieces, hst, htext⟩ := vprintf_field hmods hconv ha hwidth
  obtain ⟨trail, htrail, hno, hread⟩ := readBack_numberText hst conv a hwidth
  have hlen := numberText_length hst conv a hwidth
  have hpow (k : ℕ) (hk : 0 < k) : (baseOf conv : ℤ) ^ k ≠ 1 := by
    have hone : 1 < baseOf conv ^ k := Nat.one_lt_pow hk.ne' (by omega)
    exact_mod_cast hone.ne'
  have hreads : FieldReads mods conv a ↔ argValue conv a * (baseOf conv : ℤ) ^ trail = argValue conv a := by
    refine ⟨fun hfield => ?_, fun hval => ⟨l, hpieces, ?_, ?_⟩⟩
    · obtain ⟨l', hl', hback, -⟩ := hfield
      rw [hpieces, Option.some.injEq] at hl'
      rw [← hl', htext, hread, Option.some.injEq] at hback
      exact hback
    · rw [htext, hread, hval]
    · rw [htext, hlen, fieldPad]
      omega
  rw [hreads]
  refine ⟨fun hval hzeros => ?_, fun hzeros => ?_⟩
  · obtain ⟨hminus, hzero, hshort, hne⟩ := hzeros
    rw [htrail ⟨hminus, hzero⟩] at hval
    refine hpow (fieldPad mods conv a) (Nat.sub_pos_of_lt hshort) ?_
    exact mul_left_cancel₀ hne (hval.trans (mul_one _).symm)
  · by_cases hright : byteOf '-' ∈ mods ∧ ZeroFilled mods
    · by_cases hne : argValue conv a = 0
      · rw [hne, zero_mul]
      · have hlong : ¬numberLength mods conv a < fieldWidth mods := fun hshort => hzeros ⟨hright.1, hright.2, hshort, hne⟩
        have hzero : fieldPad mods conv a = 0 := Nat.sub_eq_zero_of_le (by omega)
        rw [htrail hright, hzero, pow_zero, mul_one]
    · rw [hno hright, pow_zero, mul_one]

theorem integer_field_reads_back_hex : (∀ ch ∈ bytesOf "#-8l", ch ∈ modifierChars) ∧ byteOf 'x' ∈ integerChars ∧
    (PfArg.long 255).kind = integerKind (fieldSize (bytesOf "#-8l")) (byteOf 'x') ∧ fieldWidth (bytesOf "#-8l") < 2147483648 ∧
    (FieldReads (bytesOf "#-8l") (byteOf 'x') (.long 255) ↔ ¬RightZeros (bytesOf "#-8l") (byteOf 'x') (.long 255)) :=
  ⟨forall_mem_of_all (by decide), by decide, by decide, by decide,
    integer_field_reads_back_iff _ (forall_mem_of_all (by decide)) _ (by decide) _ (by decide) (by decide)⟩

/-- `%-05d` of 42 prints `42000`. -/
theorem integer_field_reads_wrong :
    pieces (fieldFormat (bytesOf "-05") (byteOf 'd')) [.int 42] =
      some [[], [], bytesOf "42", bytesOf "0", bytesOf "0", bytesOf "0"] ∧
    readBack (baseOf (byteOf 'd')) (bytesOf "42000") = some 42000 ∧ argValue (byteOf 'd') (.int 42) = 42 ∧
    ¬FieldReads (bytesOf "-05") (byteOf 'd') (.int 42) := by
  have hpieces : pieces (fieldFormat (bytesOf "-05") (byteOf 'd')) [.int 42] =
      some [[], [], bytesOf "42", bytesOf "0", bytesOf "0", bytesOf "0"] := by decide +kernel
  have hread : readBack (baseOf (byteOf 'd')) (bytesOf "42000") = some 42000 := by decide +kernel
  have hvalue : argValue (byteOf 'd') (.int 42) = 42 := by decide +kernel
  refine ⟨hpieces, hread, hvalue, fun hfield => ?_⟩
  obtain ⟨l, hl, hback, -⟩ := hfield
  rw [hpieces, Option.some.injEq] at hl
  have htext : l.flatten = bytesOf "42000" := by
    rw [← hl]
    decide +kernel
  rw [htext, hread, hvalue] at hback
  exact absurd hback (by decide)

end Printf

end Os161
