import Os161.Spec.Printf

/-! What printf sends does not depend on whom it is sent to, the count is its length, and
`snprintf` cuts it off at the end of its buffer. -/

namespace Os161

open Op

namespace Printf

variable {σ : Type} {send : σ → List UInt8 → σ} {client : σ}

/-! ### Any receiver -/

/-- What another receiver makes of the pieces that were kept. -/
def through (send : σ → List UInt8 → σ) (client : σ) (pf : Pf (List (List UInt8))) : Pf σ :=
  ⟨pf.clientdata.foldl send client, pf.charcount, pf.state⟩

variable {pf : Pf (List (List UInt8))}

theorem onState_map {α : Type} (x : PfStateM α) :
    onState x (through send client pf) = (onState x pf).map (through send client) := zoom_map x rfl fun _ => rfl

theorem pfPrint_map (txt : List UInt8) :
    pfPrint send txt (through send client pf) = (pfPrint keep txt pf).map (through send client) := by
  have hfold : send (pf.clientdata.foldl send client) txt = (pf.clientdata ++ [txt]).foldl send client := by
    rw [List.foldl_append, List.foldl_cons, List.foldl_nil]
  unfold pfPrint Op.modify through
  simp only [Res.map, keep, hfold]

theorem pfFill_map (spc : ℤ) :
    pfFill send spc (through send client pf) = (pfFill keep spc pf).map (through send client) := by
  unfold pfFill
  rw [get_bind, get_bind]
  exact foldlM_map (fun _ _ _ => pfPrint_map _) _ ()

theorem pfFillIf_map (here : Prop) [Decidable here] (spc : ℤ) :
    pfFillIf send here spc (through send client pf) = (pfFillIf keep here spc pf).map (through send client) :=
  ite_map _ (pfFill_map spc) (pure_map ())

theorem pfPrintstuff_map (pre pre2 stuff : List UInt8) :
    pfPrintstuff send pre pre2 stuff (through send client pf) =
      (pfPrintstuff keep pre pre2 stuff pf).map (through send client) := by
  unfold pfPrintstuff
  refine bind_map (onState_map _) fun st _ _ => ?_
  refine bind_map (pfFillIf_map _ _) fun _ _ _ => ?_
  refine bind_map (pfPrint_map _) fun _ _ _ => ?_
  refine bind_map (pfPrint_map _) fun _ _ _ => ?_
  refine bind_map (pfFillIf_map _ _) fun _ _ _ => ?_
  refine bind_map (pfPrint_map _) fun _ _ _ => ?_
  exact pfFillIf_map _ _

theorem pfPrintnum_map : pfPrintnum send (through send client pf) = (pfPrintnum keep pf).map (through send client) := by
  unfold pfPrintnum
  refine bind_map (onState_map _) fun st _ _ => ?_
  cases pfDigits st.base (numberBufSize - 1) st.num [] with
  | none => exact fail_map _
  | some x => exact pfPrintstuff_map _ _ _

theorem pfChar_map (ch : UInt8) : pfChar ch (through send client pf) = (pfChar ch pf).map (through send client) := by
  unfold pfChar
  refine ite_map _ ?_ (pure_map ch)
  exact bind_map (onState_map _) fun _ _ _ => pure_map _

theorem pfSend_map (ch : UInt8) : pfSend send ch (through send client pf) = (pfSend keep ch pf).map (through send client) := by
  unfold pfSend
  refine bind_map (kassert_map Iff.rfl) fun _ _ _ => ?_
  refine bind_map (onState_map _) fun st _ _ => ?_
  refine ite_map _ (pfPrint_map _) ?_
  refine ite_map _ (onState_map _) ?_
  refine ite_map _ (onState_map _) ?_
  refine ite_map _ ?_ (ite_map _ ?_ ?_)
  · refine bind_map (onState_map _) fun _ _ _ => ?_
    refine bind_map (onState_map _) fun _ _ _ => ?_
    exact bind_map pfPrintnum_map fun _ _ _ => onState_map _
  · refine bind_map (onState_map _) fun _ _ _ => ?_
    exact bind_map (pfPrintstuff_map _ _ _) fun _ _ _ => onState_map _
  · refine bind_map (pfChar_map ch) fun _ _ _ => ?_
    exact bind_map (pfPrintstuff_map _ _ _) fun _ _ _ => onState_map _

theorem vprintf_map (fmt : List UInt8) (ap : List PfArg) :
    vprintf send client fmt ap = (vprintf keep [] fmt ap).map (through send client) := by
  unfold vprintf
  refine bind_map (f := through send client) (s := pfStart [] ap) ?_ fun _ _ _ => rfl
  exact foldlM_map (fun _ ch _ => pfSend_map ch) _ ()

/-! ### What is printed -/

theorem i32_add (a b : ℤ) : i32 (i32 a + b) = i32 (a + b) := Int.bmod_add_bmod

/-- The count is the length of what has been sent, as an `int`. -/
def Counted (pf : Pf (List (List UInt8))) : Prop := pf.charcount = i32 pf.clientdata.flatten.length

/-- `text` was sent, and nothing else has changed. -/
structure Sent (text : List UInt8) (pf pf' : Pf (List (List UInt8))) : Prop where
  text : pf'.clientdata.flatten = pf.clientdata.flatten ++ text
  counted : Counted pf → Counted pf'
  state : pf'.state = pf.state

theorem Sent.refl (pf : Pf (List (List UInt8))) : Sent [] pf pf := ⟨(List.append_nil _).symm, id, rfl⟩

theorem Sent.trans {text text' : List UInt8} {pf pf' pf'' : Pf (List (List UInt8))} (h : Sent text pf pf')
    (h' : Sent text' pf' pf'') : Sent (text ++ text') pf pf'' where
  text := by rw [h'.text, h.text, List.append_assoc]
  counted := h'.counted ∘ h.counted
  state := h'.state.trans h.state

variable {c : Prop} {E : PfFault → Pf (List (List UInt8)) → Prop}

theorem pfPrint_wp {txt : List UInt8} {Q : Unit → Pf (List (List UInt8)) → Prop}
    (hQ : ∀ pf', Sent txt pf pf' → Q () pf') : (pfPrint keep txt).wp c Q E pf := by
  rw [pfPrint, wp_modify]
  refine hQ _ ⟨by simp [keep], fun hcount => ?_, rfl⟩
  change i32 (pf.charcount + txt.length) = i32 (pf.clientdata ++ [txt]).flatten.length
  rw [hcount, i32_add, List.flatten_append, List.flatten_singleton, List.length_append, Nat.cast_add]

theorem pfFill_wp {spc : ℤ} {Q : Unit → Pf (List (List UInt8)) → Prop}
    (hQ : ∀ pf', Sent (List.replicate spc.toNat pf.state.fillchar) pf pf' → Q () pf') : (pfFill keep spc).wp c Q E pf := by
  rw [pfFill, wp_bind, wp_get]
  apply wp_foldlM_range fun k (_ : Unit) pf' => Sent (List.replicate k pf.state.fillchar) pf pf'
  · intro k _ _ pf' hsent
    refine pfPrint_wp fun pf'' hnext => ?_
    rw [List.replicate_succ']
    exact hsent.trans hnext
  · intro _ pf' hsent
    exact hQ pf' hsent
  · exact Sent.refl pf

/-- The padding at one place. -/
def fillText (here : Prop) [Decidable here] (fillchar : UInt8) (spc : ℤ) : List UInt8 :=
  if 0 < spc ∧ here then List.replicate spc.toNat fillchar else []

theorem pfFillIf_wp {here : Prop} [Decidable here] {spc : ℤ} {Q : Unit → Pf (List (List UInt8)) → Prop}
    (hQ : ∀ pf', Sent (fillText here pf.state.fillchar spc) pf pf' → Q () pf') : (pfFillIf keep here spc).wp c Q E pf := by
  unfold fillText at hQ
  rw [pfFillIf, wp_ite, wp_pure]
  refine ⟨fun hp => ?_, fun hp => ?_⟩
  · rw [if_pos hp] at hQ
    exact pfFill_wp hQ
  · rw [if_neg hp] at hQ
    exact hQ pf (Sent.refl pf)

/-- The text of a field: padding, the prefixes, padding, the text proper, padding. -/
def stuffText (st : PfState) (pre pre2 stuff : List UInt8) : List UInt8 :=
  let spc := padding st.spacing (i32 (pre.length + pre2.length + stuff.length))
  fillText (st.rightspc = false ∧ st.fillchar ≠ byteOf '0') st.fillchar spc ++ pre ++ pre2 ++
    fillText (st.rightspc = false ∧ st.fillchar = byteOf '0') st.fillchar spc ++ stuff ++
    fillText (st.rightspc = true) st.fillchar spc

theorem pfPrintstuff_wp {pre pre2 stuff : List UInt8} {Q : Unit → Pf (List (List UInt8)) → Prop}
    (hQ : ∀ pf', Sent (stuffText pf.state pre pre2 stuff) pf pf' → Q () pf') :
    (pfPrintstuff keep pre pre2 stuff).wp c Q E pf := by
  rw [pfPrintstuff, wp_bind, onState, wp_zoom]
  dsimp only
  rw [wp_get, wp_bind]
  refine pfFillIf_wp fun p1 h1 => ?_
  rw [wp_bind]
  refine pfPrint_wp fun p2 h2 => ?_
  rw [wp_bind]
  refine pfPrint_wp fun p3 h3 => ?_
  rw [wp_bind]
  refine pfFillIf_wp fun p4 h4 => ?_
  rw [wp_bind]
  refine pfPrint_wp fun p5 h5 => ?_
  refine pfFillIf_wp fun p6 h6 => ?_
  have hall := ((((h1.trans h2).trans h3).trans h4).trans h5).trans h6
  rw [h5.state, h4.state, h3.state, h2.state, h1.state] at hall
  exact hQ p6 hall

/-! ### Digits -/

/-- The digits of a number, the most significant one first. -/
def digitsText (base n : ℕ) : List UInt8 := if n = 0 then [digitChar 0] else ((Nat.digits base n).map digitChar).reverse

theorem digitsText_step {base n : ℕ} (hb : 1 < base) (hn : 0 < n / base) :
    digitsText base n = digitsText base (n / base) ++ [digitChar (n % base)] := by
  have hpos : 0 < n := Nat.pos_of_ne_zero fun h => by simp [h] at hn
  rw [digitsText, digitsText, if_neg hpos.ne', if_neg hn.ne', Nat.digits_def' hb hpos, List.map_cons, List.reverse_cons]

theorem digitsText_last {base n : ℕ} (hb : 1 < base) (hn : n / base = 0) : digitsText base n = [digitChar (n % base)] := by
  have hlt : n < base := (Nat.div_eq_zero_iff_lt (by omega)).mp hn
  unfold digitsText
  by_cases h0 : n = 0
  · rw [if_pos h0, h0, Nat.zero_mod]
  · rw [if_neg h0, Nat.digits_of_lt base n h0 hlt, Nat.mod_eq_of_lt hlt]
    rfl

/-- The room is enough for a number below a power of the base. -/
theorem pfDigits_eq {base : ℕ} (hb : 1 < base) {room n : ℕ} (hroom : n < base ^ (room + 1)) (x : List UInt8) :
    pfDigits base (room + 1) n x = some (digitsText base n ++ x) := by
  induction room generalizing n x with
  | zero =>
    have hlast : n / base = 0 := Nat.div_eq_of_lt (by simpa using hroom)
    rw [pfDigits, if_neg (by omega), digitsText_last hb hlast]
    rfl
  | succ room ih =>
    have hlt : n / base < base ^ (room + 1) := Nat.div_lt_of_lt_mul (by rwa [← pow_succ'])
    rw [pfDigits]
    by_cases hmore : 0 < n / base
    · rw [if_pos hmore, ih hlt, digitsText_step hb hmore, List.append_assoc]
      rfl
    · rw [if_neg hmore, digitsText_last hb (Nat.eq_zero_of_not_pos hmore)]
      rfl

/-- 22 octal digits are enough for 64 bits. -/
theorem pfDigits_fit {base n : ℕ} (hb : 8 ≤ base) (hn : n < 18446744073709551616) :
    pfDigits base (numberBufSize - 1) n [] = some (digitsText base n) := by
  have hpow : 8 ^ (21 + 1) ≤ base ^ (21 + 1) := Nat.pow_le_pow_left hb _
  have hnum : 18446744073709551616 ≤ 8 ^ (21 + 1) := by norm_num
  have h := pfDigits_eq (show 1 < base by omega) (show n < base ^ (21 + 1) by omega) []
  rw [List.append_nil] at h
  exact h

/-! ### One character of the format -/

variable {st : PfState} {ch : UInt8}

/-- The effect of a modifier. -/
def modified (st : PfState) (ch : UInt8) : PfState :=
  if ch = byteOf '#' then { st with altformat := true }
  else if ch = byteOf '-' then { st with rightspc := true }
  else if ch = byteOf 'l' then { st with size := if st.size = .long then .llong else .long }
  else if ch = byteOf 'z' then { st with size := .size }
  else if ch = byteOf '0' then
    if 0 < st.spacing then { st with spacing := i32 (st.spacing * 10) } else { st with fillchar := byteOf '0' }
  else { st with spacing := i32 (st.spacing * 10 + (ch.toNat - (byteOf '0').toNat)) }

theorem forall_mem_of_all {p : UInt8 → Prop} [DecidablePred p] {l : List UInt8} (h : (l.all fun ch => p ch) = true) :
    ∀ ch ∈ l, p ch := by
  intro ch hch
  exact of_decide_eq_true (List.all_eq_true.mp h ch hch)

theorem modifierChars_digit : ∀ ch ∈ modifierChars, ch ≠ byteOf '#' → ch ≠ byteOf '-' → ch ≠ byteOf 'l' → ch ≠ byteOf 'z' →
    ch ≠ byteOf '0' → byteOf '0' < ch ∧ ch ≤ byteOf '9' := forall_mem_of_all (by decide)

/-- The assertion on digits holds, since other characters have been sorted out. -/
theorem pfModifier_eq (hch : ch ∈ modifierChars) : pfModifier ch st = .ok () (modified st ch) := by
  unfold pfModifier modified
  by_cases h1 : ch = byteOf '#'
  · rewrite [if_pos h1, if_pos h1]
    rfl
  by_cases h2 : ch = byteOf '-'
  · rewrite [if_neg h1, if_neg h1, if_pos h2, if_pos h2]
    rfl
  by_cases h3 : ch = byteOf 'l'
  · rewrite [if_neg h1, if_neg h1, if_neg h2, if_neg h2, if_pos h3, if_pos h3]
    rfl
  by_cases h4 : ch = byteOf 'z'
  · rewrite [if_neg h1, if_neg h1, if_neg h2, if_neg h2, if_neg h3, if_neg h3, if_pos h4, if_pos h4]
    rfl
  rewrite [if_neg h1, if_neg h1, if_neg h2, if_neg h2, if_neg h3, if_neg h3, if_neg h4, if_neg h4]
  by_cases h5 : ch = byteOf '0'
  · rewrite [if_pos h5, if_pos h5]
    rfl
  · have hdigit := modifierChars_digit ch hch h1 h2 h3 h4 h5
    rewrite [if_neg h5, if_neg h5, Op.kassert, if_pos hdigit]
    rfl

theorem onState_modifier (hch : ch ∈ modifierChars) {Q : Unit → Pf (List (List UInt8)) → Prop}
    (hQ : Q () { pf with state := modified pf.state ch }) : (onState (pfModifier ch)).wp c Q E pf := by
  rw [onState, wp_zoom, Op.wp, pfModifier_eq hch]
  exact hQ

/-- The number that is printed. -/
def numOf (ch : UInt8) (a : PfArg) : ℕ :=
  if ch = byteOf 'd' then (if a.signed < 0 then (-a.signed % 18446744073709551616).toNat else a.signed.toNat)
  else a.unsigned

/-- Its sign, from the one before. -/
def signOf (ch : UInt8) (a : PfArg) (sign : ℤ) : ℤ := if ch = byteOf 'd' ∧ a.signed < 0 then -1 else sign

theorem vaArg_wp {kind : PfKind} {a : PfArg} {rest : List PfArg} (hap : st.ap = a :: rest) (hkind : a.kind = kind)
    {Q : PfArg → PfState → Prop} {F : PfFault → PfState → Prop} (hQ : Q a { st with ap := rest }) :
    (vaArg kind).wp c Q F st := by
  rw [vaArg, wp_bind, wp_get, hap]
  dsimp only
  rw [if_pos hkind, wp_bind, wp_set]
  exact hQ

theorem pfGetnum_wp {a : PfArg} {rest : List PfArg} (hap : st.ap = a :: rest) (hkind : a.kind = integerKind st.size ch)
    {Q : Unit → PfState → Prop} {F : PfFault → PfState → Prop}
    (hQ : Q () { st with ap := rest, num := numOf ch a, sign := signOf ch a st.sign }) : (pfGetnum ch).wp c Q F st := by
  unfold integerKind at hkind
  unfold numOf signOf at hQ
  rw [pfGetnum, wp_ite]
  refine ⟨fun hp => ?_, fun hp => ?_⟩
  · have hd : ch ≠ byteOf 'd' := by
      rw [hp]
      decide
    rw [if_pos hp] at hkind
    rw [if_neg hd, if_neg fun h => hd h.1] at hQ
    rw [wp_bind]
    exact vaArg_wp hap hkind hQ
  · rw [if_neg hp] at hkind
    rw [wp_bind, wp_get, wp_bind]
    refine vaArg_wp hap hkind ?_
    rw [wp_ite, wp_ite, wp_modify, wp_modify, wp_modify]
    refine ⟨fun hd => ⟨fun hneg => ?_, fun hpos => ?_⟩, fun hd => ?_⟩
    · rw [if_pos hd, if_pos hneg, if_pos ⟨hd, hneg⟩] at hQ
      exact hQ
    · rw [if_pos hd, if_neg hpos, if_neg fun h => hpos h.2] at hQ
      exact hQ
    · rw [if_neg hd, if_neg fun h => hd h.1] at hQ
      exact hQ

theorem unsigned_lt (a : PfArg) : a.unsigned < 18446744073709551616 := by
  cases a with
  | int v | long v | size v | pointer v => exact lt_trans v.isLt (by decide)
  | llong v => exact v.isLt
  | string s => exact Nat.zero_lt_succ _

theorem signed_bounds (a : PfArg) : -9223372036854775808 ≤ a.signed ∧ a.signed < 9223372036854775808 := by
  cases a with
  | int v | long v | size v | pointer v =>
    have hlow := BitVec.le_toInt v
    have hhigh := BitVec.toInt_lt (x := v)
    norm_num at hlow hhigh
    exact ⟨le_trans (by decide) hlow, lt_trans hhigh (by decide)⟩
  | llong v =>
    have hlow := BitVec.le_toInt v
    have hhigh := BitVec.toInt_lt (x := v)
    norm_num at hlow hhigh
    exact ⟨hlow, hhigh⟩
  | string s =>
    change -9223372036854775808 ≤ (0 : ℤ) ∧ (0 : ℤ) < 9223372036854775808
    decide

theorem numOf_lt (ch : UInt8) (a : PfArg) : numOf ch a < 18446744073709551616 := by
  have hsigned := signed_bounds a
  have hunsigned := unsigned_lt a
  unfold numOf
  split_ifs <;> omega

theorem le_baseOf (ch : UInt8) : 8 ≤ baseOf ch := by
  unfold baseOf
  split_ifs <;> decide

/-- The state in which a number is printed. -/
def numbered (st : PfState) (ch : UInt8) (a : PfArg) (rest : List PfArg) : PfState :=
  { st with
    ap := rest
    num := numOf ch a
    sign := signOf ch a st.sign
    base := baseOf ch
    baseprefix := if st.altformat = true ∨ ch = byteOf 'p' then true else st.baseprefix }

/-- The state behind a field. -/
def ended (st : PfState) : PfState := ⟨st.ap, false, .int, 0, 0, 0, false, byteOf ' ', 0, false, false⟩

/-- The text of a number. -/
def numberText (st : PfState) : List UInt8 := stuffText st (signPrefix st) (basePrefix st) (digitsText st.base st.num)

theorem pfPrintnum_wp (hbase : 8 ≤ pf.state.base) (hnum : pf.state.num < 18446744073709551616)
    {Q : Unit → Pf (List (List UInt8)) → Prop} (hQ : ∀ pf', Sent (numberText pf.state) pf pf' → Q () pf') :
    (pfPrintnum keep).wp c Q E pf := by
  rw [pfPrintnum, wp_bind, onState, wp_zoom, wp_get, pfDigits_fit hbase hnum]
  exact pfPrintstuff_wp hQ

/-- A field with an integer. -/
theorem pfInteger_wp {a : PfArg} {rest : List PfArg} (hap : pf.state.ap = a :: rest)
    (hkind : a.kind = integerKind pf.state.size ch) {Q : Unit → Pf (List (List UInt8)) → Prop}
    (hQ : ∀ pf', Sent (numberText (numbered pf.state ch a rest)) { pf with state := numbered pf.state ch a rest } pf' →
      Q () { pf' with state := ended pf'.state }) :
    (do onState (pfGetnum ch); onState (pfSetbase ch); pfPrintnum keep; onState pfEndfield : PfM _ Unit).wp c Q E pf := by
  rw [wp_bind, onState, wp_zoom]
  refine pfGetnum_wp hap hkind ?_
  rw [wp_bind, onState, wp_zoom, pfSetbase, wp_modify, wp_bind]
  refine pfPrintnum_wp (le_baseOf ch) (numOf_lt ch a) fun pf' hsent => ?_
  rw [onState, wp_zoom, pfEndfield, wp_modify]
  exact hQ pf' hsent

/-! ### The whole format -/

/-- Where the parser is, as far as arguments go. -/
def scanned (st : PfState) : Option PfSize := if st.inPct = true then some st.size else none

/-- What holds when `rest` of the format is left. -/
structure Going (rest : List UInt8) (pf : Pf (List (List UInt8))) : Prop where
  counted : Counted pf
  size : pf.state.inPct = false → pf.state.size = .int
  wanted : wanted (scanned pf.state) rest <+: pf.state.ap.map PfArg.kind
  nonzero : 0 ∉ rest

/-- The next argument is there. -/
theorem arg_of_prefix {k : PfKind} {more : List PfKind} {ap : List PfArg} (h : k :: more <+: ap.map PfArg.kind) :
    ∃ a rest, ap = a :: rest ∧ a.kind = k ∧ more <+: rest.map PfArg.kind := by
  cases ap with
  | nil => exact absurd (List.prefix_nil.mp h) (by simp)
  | cons a rest =>
    rw [List.map_cons, List.cons_prefix_cons] at h
    exact ⟨a, rest, rfl, h.1.symm, h.2⟩

theorem modified_keeps (st : PfState) (ch : UInt8) :
    (modified st ch).ap = st.ap ∧ (modified st ch).inPct = st.inPct ∧ (modified st ch).size = sizeAfter st.size ch := by
  unfold modified
  by_cases h1 : ch = byteOf '#'
  · rw [if_pos h1, h1]
    exact ⟨rfl, rfl, rfl⟩
  by_cases h2 : ch = byteOf '-'
  · rw [if_neg h1, if_pos h2, h2]
    exact ⟨rfl, rfl, rfl⟩
  by_cases h3 : ch = byteOf 'l'
  · rw [if_neg h1, if_neg h2, if_pos h3, sizeAfter, if_pos h3]
    exact ⟨rfl, rfl, rfl⟩
  by_cases h4 : ch = byteOf 'z'
  · rw [if_neg h1, if_neg h2, if_neg h3, if_pos h4, sizeAfter, if_neg h3, if_pos h4]
    exact ⟨rfl, rfl, rfl⟩
  rw [if_neg h1, if_neg h2, if_neg h3, if_neg h4, sizeAfter, if_neg h3, if_neg h4]
  split_ifs
  · exact ⟨rfl, rfl, rfl⟩
  · exact ⟨rfl, rfl, rfl⟩
  · exact ⟨rfl, rfl, rfl⟩

/-- A field that has been printed. -/
theorem Going.ended {rest : List UInt8} {text : List UInt8} {pf pf' : Pf (List (List UInt8))} (hsent : Sent text pf pf')
    (hcount : Counted pf) (hwanted : Printf.wanted none rest <+: pf.state.ap.map PfArg.kind) (hrest : 0 ∉ rest) :
    Going rest { pf' with state := Printf.ended pf'.state } where
  counted := hsent.counted hcount
  size _ := rfl
  wanted := by
    rw [hsent.state]
    exact hwanted
  nonzero := hrest

theorem pfSend_wp {rest : List UInt8} (h : Going (ch :: rest) pf) :
    (pfSend keep ch).wp False (fun _ pf' => Going rest pf') (fun _ _ => False) pf := by
  obtain ⟨hcount, hsize, hwanted, hzero⟩ := h
  have hch : ch ≠ 0 := fun h0 => hzero (by rw [h0]; exact List.mem_cons_self)
  have hrest : 0 ∉ rest := fun h0 => hzero (List.mem_cons_of_mem _ h0)
  rw [pfSend, wp_bind, wp_kassert_of hch, wp_bind, onState, wp_zoom, wp_get]
  cases hpct : pf.state.inPct with
  | false =>
    rw [scanned, hpct, if_neg Bool.false_ne_true, wanted] at hwanted
    by_cases hch' : ch = byteOf '%'
    · rw [if_pos hch'] at hwanted
      rw [if_neg fun h => h.2 hch', if_pos rfl, onState, wp_zoom, wp_modify]
      refine ⟨hcount, fun h => absurd h (by simp), ?_, hrest⟩
      change wanted (some pf.state.size) rest <+: _
      rw [hsize hpct]
      exact hwanted
    · rw [if_neg hch'] at hwanted
      rw [if_pos ⟨rfl, hch'⟩]
      refine pfPrint_wp fun pf' hsent => ⟨hsent.counted hcount, ?_, ?_, hrest⟩
      · rw [hsent.state]
        exact hsize
      · rw [hsent.state, scanned, hpct]
        exact hwanted
  | true =>
    rw [scanned, hpct, if_pos rfl, wanted] at hwanted
    rw [if_neg fun h => Bool.false_ne_true h.1.symm, if_neg Bool.false_ne_true.symm]
    by_cases hmod : ch ∈ modifierChars
    · rw [if_pos hmod] at hwanted ⊢
      refine onState_modifier hmod ?_
      obtain ⟨hap, hin, hsz⟩ := modified_keeps pf.state ch
      refine ⟨hcount, fun h => ?_, ?_, hrest⟩
      · rw [hin, hpct] at h
        exact absurd h (by simp)
      · rw [scanned, hin, hpct, if_pos rfl, hsz, hap]
        exact hwanted
    · rw [if_neg hmod] at hwanted ⊢
      by_cases hint : ch ∈ integerChars
      · rw [if_pos hint] at hwanted ⊢
        obtain ⟨a, ap, hap, hkind, hmore⟩ := arg_of_prefix hwanted
        refine pfInteger_wp hap hkind fun pf' hsent => ?_
        exact Going.ended hsent hcount hmore hrest
      · rw [if_neg hint] at hwanted ⊢
        by_cases hs : ch = byteOf 's'
        · rw [if_pos hs] at hwanted ⊢
          obtain ⟨a, ap, hap, hkind, hmore⟩ := arg_of_prefix hwanted
          rw [wp_bind, onState, wp_zoom]
          refine vaArg_wp hap hkind ?_
          rw [wp_bind]
          refine pfPrintstuff_wp fun pf' hsent => ?_
          exact Going.ended hsent hcount hmore hrest
        · rw [if_neg hs] at hwanted ⊢
          rw [wp_bind, pfChar]
          by_cases hc : ch = byteOf 'c'
          · rw [if_pos hc] at hwanted ⊢
            obtain ⟨a, ap, hap, hkind, hmore⟩ := arg_of_prefix hwanted
            rw [wp_bind, onState, wp_zoom]
            refine vaArg_wp hap hkind ?_
            rw [wp_pure, wp_bind]
            refine pfPrintstuff_wp fun pf' hsent => ?_
            exact Going.ended hsent hcount hmore hrest
          · rw [if_neg hc] at hwanted ⊢
            rw [wp_pure, wp_bind]
            refine pfPrintstuff_wp fun pf' hsent => ?_
            exact Going.ended hsent hcount hwanted hrest

/-- The loop of `__vprintf`. -/
theorem pfSends_wp {fmt : List UInt8} {pf : Pf (List (List UInt8))} (h : Going fmt pf) :
    (do fmt.foldlM (fun _ ch => pfSend keep ch) (); let pf ← Op.get; pure pf.charcount : PfM _ ℤ).wp False
      (fun n pf' => n = i32 pf'.clientdata.flatten.length) (fun _ _ => False) pf := by
  rw [wp_bind]
  apply wp_foldlM fun rest _ pf => Going rest pf
  · intro ch rest _ pf hgoing
    exact pfSend_wp hgoing
  · intro _ pf hgoing
    rw [wp_bind, wp_get, wp_pure]
    exact hgoing.counted
  · exact h

theorem going_start {fmt : List UInt8} {ap : List PfArg} (h : Matches fmt ap) : Going (cstr fmt) (pfStart [] ap) where
  counted := by simp [Counted, pfStart, i32]
  size _ := rfl
  wanted := h
  nonzero h0 := by simpa using List.mem_takeWhile_imp h0

/-- With matching arguments `__vprintf` returns, and its count is the length of what it sent. -/
theorem vprintf_keep {fmt : List UInt8} {ap : List PfArg} (h : Matches fmt ap) :
    ∃ n pf', vprintf keep [] fmt ap = .ok n pf' ∧ n = i32 pf'.clientdata.flatten.length := by
  rcases (pfSends_wp (going_start h)).cases with ⟨n, pf', hok⟩ | ⟨_, _, _, hno⟩ | ⟨_, hno⟩
  · exact ⟨n, pf', hok⟩
  · exact hno.elim
  · exact hno.elim

/-! ### `snprintf` -/

theorem snprintfSend_append (snp : Snp) (l l' : List UInt8) : snprintfSend snp (l ++ l') = snprintfSend (snprintfSend snp l) l' :=
  List.foldl_append

/-- The pieces are stored as the whole would be. -/
theorem foldl_snprintfSend (snp : Snp) (l : List (List UInt8)) : l.foldl snprintfSend snp = snprintfSend snp l.flatten := by
  induction l generalizing snp with
  | nil => rfl
  | cons txt rest ih => rw [List.foldl_cons, ih, List.flatten_cons, snprintfSend_append]

/-- What is in memory when `text` has been sent. -/
def snpAfter (buf : ℕ → UInt8) (buflen : ℕ) (text : List UInt8) : Snp :=
  ⟨fun i => if i < min buflen text.length then text.getD i 0 else buf i, buflen, min buflen text.length⟩

theorem snprintfSend_eq (buf : ℕ → UInt8) (buflen : ℕ) (text : List UInt8) :
    snprintfSend ⟨buf, buflen, 0⟩ text = snpAfter buf buflen text := by
  induction text using List.reverseRecOn with
  | nil => simp [snprintfSend, snpAfter]
  | append_singleton text ch ih =>
    have hone (snp : Snp) : snprintfSend snp [ch] = if snp.bufpos < snp.buflen then
        { snp with buf := Function.update snp.buf snp.bufpos ch, bufpos := snp.bufpos + 1 } else snp := rfl
    have hold {i : ℕ} (hi : i < text.length) : (text ++ [ch]).getD i 0 = text.getD i 0 := by
      simp [List.getD, List.getElem?_append_left hi]
    rw [snprintfSend_append, ih, hone]
    unfold snpAfter
    dsimp only
    rw [List.length_append, List.length_singleton]
    by_cases hlt : text.length < buflen
    · rw [min_eq_right hlt.le, min_eq_right (show text.length + 1 ≤ buflen from hlt), if_pos hlt]
      congr 1
      funext i
      by_cases hi : i = text.length
      · subst hi
        rw [Function.update_self, if_pos (Nat.lt_succ_self _)]
        simp
      · rw [Function.update_of_ne hi]
        by_cases hlow : i < text.length
        · rw [if_pos hlow, if_pos (by omega), hold hlow]
        · rw [if_neg hlow, if_neg (by omega)]
    · rw [min_eq_left (show buflen ≤ text.length by omega), min_eq_left (show buflen ≤ text.length + 1 by omega),
        if_neg (lt_irrefl _)]
      congr 1
      funext i
      by_cases hlow : i < buflen
      · rw [if_pos hlow, if_pos hlow, hold (by omega)]
      · rw [if_neg hlow, if_neg hlow]

theorem i32_of_lt {n : ℕ} (h : n < 2147483648) : i32 n = n := by
  unfold i32
  rw [Int.bmod_eq_of_le_mul_two] <;> omega

/-- The NUL goes behind what was stored. -/
theorem printed_eq (buf : ℕ → UInt8) (len : ℕ) (text : List UInt8) :
    (if 0 < len then Function.update (snpAfter buf (if len = 0 then 0 else len - 1) text).buf
        (snpAfter buf (if len = 0 then 0 else len - 1) text).bufpos 0
      else (snpAfter buf (if len = 0 then 0 else len - 1) text).buf) = printed buf len text := by
  funext i
  unfold printed snpAfter
  dsimp only
  by_cases h0 : len = 0
  · rw [if_pos h0, if_pos h0, if_neg (by omega), Nat.zero_min, if_neg (Nat.not_lt_zero i)]
  · rw [if_neg h0, if_neg h0, if_pos (by omega)]
    by_cases hi : i = min (len - 1) text.length
    · rw [hi, Function.update_self, if_neg (lt_irrefl _), if_pos rfl]
    · rw [Function.update_of_ne hi]
      by_cases hlow : i < min (len - 1) text.length
      · rw [if_pos hlow, if_pos hlow]
      · rw [if_neg hlow, if_neg hlow, if_neg hi]

theorem vsnprintf_eq {fmt : List UInt8} {ap : List PfArg} {n : ℤ} {pf : Pf (List (List UInt8))}
    (hrun : vprintf keep [] fmt ap = .ok n pf) (buf : ℕ → UInt8) (len : ℕ) :
    vsnprintf buf len fmt ap = some (n, printed buf len pf.clientdata.flatten) := by
  rw [vsnprintf, vprintf_map, hrun]
  change some (n, _) = _
  rw [← printed_eq buf len]
  unfold through
  dsimp only
  rw [foldl_snprintfSend, snprintfSend_eq]

/-- For every format with matching arguments, every receiver gets the same pieces, and
`vsnprintf` returns their length and stores as much of them as fits. -/
theorem vsnprintf_prints_what_is_sent (fmt : List UInt8) (ap : List PfArg) (hmatch : Matches fmt ap) : PrintsAlike fmt ap := by
  obtain ⟨n, pf, hrun, hn⟩ := vprintf_keep hmatch
  refine ⟨pf.clientdata, ?_, fun σ send client => ?_, fun hlen buf len => ?_⟩
  · rw [pieces, hrun]
  · refine ⟨n, through send client pf, ?_, rfl⟩
    rw [vprintf_map, hrun]
    rfl
  · rw [vsnprintf_eq hrun, hn, i32_of_lt hlen]

theorem vsnprintf_prints_number : Matches (bytesOf "%5ld %s") [.long 42, .string none] ∧
    PrintsAlike (bytesOf "%5ld %s") [.long 42, .string none] :=
  ⟨by decide, vsnprintf_prints_what_is_sent _ _ (by decide)⟩

end Printf

end Os161
