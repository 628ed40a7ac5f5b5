import Os161.Spec.ConsoleInput

/-! Input to the console comes out in order. The handler only writes the slot at the head and
only moves the head, the reader does the same at the tail, and the semaphore never counts
more than the slots between them. -/

namespace Os161

namespace ConInput

variable {s t : ConInput}

/-- What a call of `con_input` knows at each of its statements. -/
def HandlerKnows (s : ConInput) : InputPc → Prop
  | .out | .entered _ | .signal => True
  | .test _ nexthead => nexthead = Ring.next consoleInputBufferSize s.head
  | .store _ nexthead =>
    nexthead = Ring.next consoleInputBufferSize s.head ∧ s.unread + 1 < consoleInputBufferSize
  | .advance ch nexthead =>
    nexthead = Ring.next consoleInputBufferSize s.head ∧ s.unread + 1 < consoleInputBufferSize ∧
      s.gotchars s.head = UInt8.ofInt ch ∧ s.fresh s.head = true

structure Inv (s : ConInput) : Prop extends s.Orderly where
  head : s.head < consoleInputBufferSize
  tail : s.tail < consoleInputBufferSize
  handler : s.HandlerKnows s.handler
  /-- what the reader holds before it moves the tail is still there -/
  held : ∀ ret, s.reader = .advance ret → ret = s.gotchars s.tail
  /-- the slot at the tail is stale between the read and the move of the tail -/
  fresh : ∀ i < s.unread, (i = 0 → ∀ ret, s.reader ≠ .advance ret) →
    s.fresh (Ring.slot consoleInputBufferSize s.tail i) = true

theorem Inv.size (h : s.Inv) : s.rsem + s.passedP + s.beforeV = s.unread := h.count

theorem inv_config (gotchars : ℕ → UInt8) : (config gotchars).Inv := by
  have hsize : 0 < consoleInputBufferSize := by decide
  have hempty : (config gotchars).unread = 0 := Ring.size_self hsize
  have horder : (config gotchars).accepted = (config gotchars).returned ++ (config gotchars).underway := by
    rewrite [underway, hempty]
    rfl
  refine ⟨⟨horder, by simp [config], by simp [config], hempty.symm⟩, hsize, hsize, trivial, by simp [config], ?_⟩
  intro i hi
  rw [hempty] at hi
  exact absurd hi (Nat.not_lt_zero i)

/-- A call that comes to its test adds its character, if it is not dropped. -/
theorem accepted_snoc (call : InputCall) (pc : InputPc) :
    accepted { s with calls := s.calls ++ [call], handler := pc } =
      s.accepted ++ if call.dropped = true then [] else [UInt8.ofInt call.ch] := by
  unfold accepted
  rw [List.filter_append, List.map_append]
  by_cases hdropped : call.dropped = true
  · simp [hdropped]
  · simp [hdropped]

/-! ### The handler -/

theorem inv_input (h : s.Inv) (hout : s.handler = .out) (ch : ℤ) : Inv { s with handler := .entered ch } := by
  have horder := h.order
  have hcount := h.count
  simp only [underway, hout] at horder
  simp only [beforeV, hout] at hcount
  exact ⟨⟨horder, h.dropped, h.written, hcount⟩, h.head, h.tail, trivial, h.held, h.fresh⟩

/-- The test finds the buffer full exactly if all slots but one are unread. -/
theorem inv_test (h : s.Inv) {ch : ℤ} {nexthead : ℕ} (hpc : s.handler = .test ch nexthead)
    (hstep : s.handlerStep = some t) : t.Inv := by
  have hnext : nexthead = Ring.next consoleInputBufferSize s.head := by
    have hknows := h.handler
    rw [hpc] at hknows
    exact hknows
  have hfull : nexthead = s.tail ↔ s.unread + 1 = consoleInputBufferSize := by
    rw [hnext]
    exact Ring.next_eq_tail_iff h.head h.tail
  have hlt : s.unread < consoleInputBufferSize := Ring.size_lt h.head
  have horder := h.order
  have hcount := h.count
  simp only [underway, hpc] at horder
  simp only [beforeV, hpc] at hcount
  simp only [handlerStep, hpc, Option.some.injEq] at hstep
  subst hstep
  have hdropped : ∀ c ∈ s.calls ++ [⟨ch, Ring.size consoleInputBufferSize s.head s.tail, nexthead = s.tail⟩],
      c.dropped = true ↔ c.unread + 1 = consoleInputBufferSize := by
    intro c hc
    rcases List.mem_append.mp hc with hold | hnew
    · exact h.dropped c hold
    · rw [List.mem_singleton.mp hnew]
      exact decide_eq_true_iff.trans hfull
  by_cases htail : nexthead = s.tail
  · simp only [if_pos htail]
    refine ⟨⟨?_, hdropped, h.written, hcount⟩, h.head, h.tail, trivial, h.held, h.fresh⟩
    rw [accepted_snoc, if_pos (decide_eq_true htail), List.append_nil]
    exact horder
  · simp only [if_neg htail]
    refine ⟨⟨?_, hdropped, h.written, hcount⟩, h.head, h.tail, ⟨hnext, ?_⟩, h.held, h.fresh⟩
    · rw [accepted_snoc, if_neg (by simp [htail]), horder, List.append_nil, List.append_assoc]
      rfl
    · have hroom := mt hfull.mpr htail
      change s.unread + 1 < _
      omega

/-- The slot at the head is not one of those that the reader may come to. -/
theorem inv_store (h : s.Inv) {ch : ℤ} {nexthead : ℕ} (hpc : s.handler = .store ch nexthead)
    (hstep : s.handlerStep = some t) : t.Inv := by
  obtain ⟨hnext, hroom⟩ : nexthead = Ring.next consoleInputBufferSize s.head ∧ s.unread + 1 < consoleInputBufferSize := by
    have hknows := h.handler
    rw [hpc] at hknows
    exact hknows
  have horder := h.order
  have hcount := h.count
  have hsize := h.size
  simp only [underway, hpc] at horder
  simp only [beforeV, hpc] at hcount
  simp only [handlerStep, hpc, Option.some.injEq] at hstep
  subst hstep
  have hslot (i : ℕ) (hi : i < s.unread) : Ring.slot consoleInputBufferSize s.tail i ≠ s.head :=
    Ring.slot_ne_head h.head h.tail hi
  have htail (hpos : 0 < s.unread) : s.tail ≠ s.head := by
    have hzero := hslot 0 hpos
    rwa [Ring.slot_zero h.tail] at hzero
  refine ⟨⟨?_, h.dropped, ?_, hcount⟩, h.head, h.tail, ⟨hnext, hroom, ?_, ?_⟩, ?_, ?_⟩
  · simp only [underway, unread]
    rw [Ring.contents_update_head h.head h.tail]
    exact horder
  · intro htake
    have hpos : 0 < s.unread := by
      simp only [passedP, show s.reader = .take from htake] at hsize
      omega
    exact (Function.update_of_ne (htail hpos) _ _).trans (h.written htake)
  · exact Function.update_self _ _ _
  · exact Function.update_self _ _ _
  · intro ret hret
    have hpos : 0 < s.unread := by
      simp only [passedP, show s.reader = .advance ret from hret] at hsize
      omega
    exact (h.held ret hret).trans (Function.update_of_ne (htail hpos) _ _).symm
  · intro i hi hadvance
    exact (Function.update_of_ne (hslot i hi) _ _).trans (h.fresh i hi hadvance)

/-- The slot at the head goes over to the reader. -/
theorem inv_advance (h : s.Inv) {ch : ℤ} {nexthead : ℕ} (hpc : s.handler = .advance ch nexthead)
    (hstep : s.handlerStep = some t) : t.Inv := by
  obtain ⟨rfl, hroom, hch, hfresh⟩ : nexthead = Ring.next consoleInputBufferSize s.head ∧
      s.unread + 1 < consoleInputBufferSize ∧ s.gotchars s.head = UInt8.ofInt ch ∧ s.fresh s.head = true := by
    have hknows := h.handler
    rw [hpc] at hknows
    exact hknows
  have horder := h.order
  have hcount := h.size
  simp only [underway, hpc] at horder
  simp only [beforeV, hpc] at hcount
  simp only [handlerStep, hpc, Option.some.injEq] at hstep
  subst hstep
  have hgrow : Ring.size consoleInputBufferSize (Ring.next consoleInputBufferSize s.head) s.tail = s.unread + 1 :=
    Ring.size_next_head h.head h.tail hroom
  refine ⟨⟨?_, h.dropped, h.written, ?_⟩, Ring.next_lt h.head, h.tail, trivial, h.held, ?_⟩
  · simp only [underway, unread, hgrow, List.append_nil]
    rw [Ring.contents_grow h.head h.tail, hch]
    simp only [← List.append_assoc] at horder ⊢
    exact horder
  · exact (congrArg (· + 1) hcount).trans hgrow.symm
  · intro i hi hadvance
    rw [unread, hgrow] at hi
    rcases Nat.lt_succ_iff_lt_or_eq.mp hi with hlt | rfl
    · exact h.fresh i hlt hadvance
    · exact (congrArg s.fresh (Ring.slot_size h.head h.tail)).trans hfresh

theorem inv_handlerStep (h : s.Inv) (hstep : s.handlerStep = some t) : t.Inv := by
  have horder := h.order
  have hcount := h.count
  cases hpc : s.handler with
  | out => simp [handlerStep, hpc] at hstep
  | entered ch =>
    simp only [underway, hpc] at horder
    simp only [beforeV, hpc] at hcount
    simp only [handlerStep, hpc, Option.some.injEq] at hstep
    subst hstep
    exact ⟨⟨horder, h.dropped, h.written, hcount⟩, h.head, h.tail, rfl, h.held, h.fresh⟩
  | test ch nexthead => exact inv_test h hpc hstep
  | store ch nexthead => exact inv_store h hpc hstep
  | advance ch nexthead => exact inv_advance h hpc hstep
  | signal =>
    simp only [underway, hpc] at horder
    simp only [beforeV, hpc] at hcount
    simp only [handlerStep, hpc, Option.some.injEq] at hstep
    subst hstep
    have hcount' : s.rsem + 1 + s.passedP + 0 =
        (s.head + consoleInputBufferSize - s.tail) % consoleInputBufferSize := by omega
    exact ⟨⟨horder, h.dropped, h.written, hcount'⟩, h.head, h.tail, trivial, h.held, h.fresh⟩

/-! ### The reader -/

/-- The reader makes room, and reads only slots before the head. -/
theorem HandlerKnows.of_reader {pc : InputPc} {u : ConInput} (h : s.HandlerKnows pc) (hhead : u.head = s.head)
    (hgot : u.gotchars = s.gotchars) (hunread : u.unread ≤ s.unread) (hfresh : u.fresh s.head = s.fresh s.head) :
    u.HandlerKnows pc := by
  cases pc with
  | out => trivial
  | entered ch => trivial
  | signal => trivial
  | test ch nexthead => exact h.trans (by rw [hhead])
  | store ch nexthead =>
    obtain ⟨hnext, hroom⟩ := h
    exact ⟨hnext.trans (by rw [hhead]), by omega⟩
  | advance ch nexthead =>
    obtain ⟨hnext, hroom, hch, hwritten⟩ := h
    refine ⟨hnext.trans (by rw [hhead]), by omega, ?_, ?_⟩
    · rw [hhead, hgot]
      exact hch
    · rw [hhead, hfresh]
      exact hwritten

theorem inv_getch (h : s.Inv) (hout : s.reader = .out) : Inv { s with reader := .wait } := by
  have horder := h.order
  have hcount := h.count
  simp only [underway, hout] at horder
  simp only [passedP, hout] at hcount
  refine ⟨⟨horder, h.dropped, by simp, hcount⟩, h.head, h.tail, h.handler, by simp, ?_⟩
  intro i hi _
  exact h.fresh i hi fun _ => by simp [hout]

theorem inv_readerStep (h : s.Inv) (hstep : s.readerStep = some t) : t.Inv := by
  have horder := h.order
  have hcount := h.size
  cases hpc : s.reader with
  | out => simp [readerStep, hpc] at hstep
  | wait =>
    simp only [underway, hpc] at horder
    simp only [passedP, hpc] at hcount
    simp only [readerStep, hpc, Option.ite_none_right_eq_some, Option.some.injEq] at hstep
    obtain ⟨hpos, rfl⟩ := hstep
    have hfresh (i : ℕ) (hi : i < s.unread) := h.fresh i hi fun _ => by simp [hpc]
    refine ⟨⟨horder, h.dropped, fun _ => ?_, ?_⟩, h.head, h.tail, h.handler, by simp, fun i hi _ => hfresh i hi⟩
    · have hzero := hfresh 0 (by omega)
      rwa [Ring.slot_zero h.tail] at hzero
    · change s.rsem - 1 + 1 + s.beforeV = s.unread
      omega
  | take =>
    simp only [underway, hpc] at horder
    simp only [passedP, hpc] at hcount
    simp only [readerStep, hpc, Option.some.injEq] at hstep
    subst hstep
    refine ⟨⟨horder, h.dropped, by simp, hcount⟩, h.head, h.tail, ?_, ?_, ?_⟩
    · have hne := Ring.slot_ne_head h.head h.tail (show 0 < s.unread by omega)
      rw [Ring.slot_zero h.tail] at hne
      exact h.handler.of_reader rfl rfl le_rfl (Function.update_of_ne hne.symm _ _)
    · intro ret hret
      exact (GetchPc.advance.inj hret).symm
    · intro i hi hadvance
      cases i with
      | zero => exact absurd rfl (hadvance rfl (s.gotchars s.tail))
      | succ k =>
        have hlt : s.unread < consoleInputBufferSize := Ring.size_lt h.head
        have hold := h.fresh (k + 1) hi (by simp)
        rw [← hold]
        exact Function.update_of_ne (Ring.slot_succ_ne_tail h.tail (lt_trans hi hlt)) _ _
  | advance ret =>
    simp only [underway, hpc] at horder
    simp only [passedP, hpc] at hcount
    simp only [readerStep, hpc, Option.some.injEq] at hstep
    subst hstep
    have hshrink : Ring.size consoleInputBufferSize s.head (Ring.next consoleInputBufferSize s.tail) + 1 = s.unread :=
      Ring.size_next_tail h.head h.tail (show 0 < s.unread by omega)
    refine ⟨⟨?_, h.dropped, by simp, ?_⟩, h.head, Ring.next_lt h.tail, ?_, by simp, ?_⟩
    · simp only [underway, unread]
      rw [← hshrink, Ring.contents_succ h.tail, ← h.held ret hpc] at horder
      exact horder
    · change s.rsem + 0 + s.beforeV = Ring.size consoleInputBufferSize s.head (Ring.next consoleInputBufferSize s.tail)
      omega
    · refine h.handler.of_reader rfl rfl ?_ rfl
      change Ring.size consoleInputBufferSize s.head (Ring.next consoleInputBufferSize s.tail) ≤ s.unread
      omega
    · intro i hi _
      have hold := h.fresh (i + 1) (hshrink ▸ Nat.succ_lt_succ hi) (by simp)
      rwa [← Ring.slot_next] at hold
  | leave ret =>
    simp only [underway, hpc] at horder
    simp only [passedP, hpc] at hcount
    simp only [readerStep, hpc, Option.some.injEq] at hstep
    subst hstep
    refine ⟨⟨?_, h.dropped, by simp, hcount⟩, h.head, h.tail, h.handler, by simp, ?_⟩
    · simp only [underway, List.append_assoc, List.nil_append] at horder ⊢
      exact horder
    · intro i hi _
      exact h.fresh i hi fun _ => by simp [hpc]

theorem inv_step {ev : ConInputEv} (h : s.Inv) (hstep : s.step ev = some t) : t.Inv := by
  cases ev with
  | input ch =>
    obtain ⟨hout, hstep⟩ := Option.ite_none_right_eq_some.mp hstep
    rw [← Option.some.inj hstep]
    exact inv_input h hout ch
  | handler => exact inv_handlerStep h hstep
  | getch =>
    obtain ⟨hout, hstep⟩ := Option.ite_none_right_eq_some.mp hstep
    rw [← Option.some.inj hstep]
    exact inv_getch h hout
  | reader => exact inv_readerStep h hstep

/-- However the statements of `con_input` and `getch` are interleaved: what `getch` has
returned, followed by what is on its way, is what was passed in and not dropped; a character
is dropped exactly if the buffer was full; `getch` reads only a slot that has been written
since it was last read; and the semaphore with the calls in between counts the characters
from the tail to the head. -/
theorem getch_returns_input_in_order (gotchars : ℕ → UInt8) (evs : List ConInputEv) :
    AllStates step Orderly (config gotchars) evs :=
  (allStates_of_step (fun _ _ _ h hstep => inv_step h hstep) (inv_config gotchars) evs).mono fun _ h => h.toOrderly

end ConInput

/-! ### `kgets` -/

theorem Terminal.Shows.backsp {t : Terminal} {c : ℕ} {l : List ℕ} (h : t.Shows (c :: l)) :
    (Kgets.backsp.foldl Terminal.putch t).Shows l := by
  obtain ⟨hbefore, hafter⟩ := h
  simpa [Kgets.backsp, Terminal.putch, Terminal.Shows, hbefore] using hafter

theorem Terminal.Shows.text {t : Terminal} {l r : List ℕ} (h : t.Shows r) (hl : ∀ c ∈ l, 32 ≤ c ∧ c < 127) :
    (l.foldl Terminal.putch t).Shows (l.reverse ++ r) := by
  induction l generalizing t r with
  | nil => exact h
  | cons d l ih =>
    obtain ⟨hd, hl⟩ := List.forall_mem_cons.mp hl
    rw [List.reverse_cons, List.append_assoc]
    refine ih ?_ hl
    rw [Terminal.putch, if_neg (by omega), if_neg (by omega)]
    exact ⟨congrArg (d :: ·) h.1, fun c hc => h.2 c (List.mem_of_mem_tail hc)⟩

namespace Kgets

variable {s t : Kgets} {maxlen c : ℕ} {prompt buf : List ℕ}

theorem Right.backsp (h : s.Right maxlen prompt) (hbuf : s.buf = c :: buf) : (s.out backsp buf).Right maxlen prompt := by
  obtain ⟨hfits, htext, hshown⟩ := h
  rw [hbuf] at hfits htext hshown
  exact ⟨(Nat.lt_succ_self _).trans hfits, (List.forall_mem_cons.mp htext).2, fun hr => (hshown hr).imp (·.backsp) (·.backsp)⟩

theorem Right.erase (h : s.Right maxlen prompt) (q : ℕ → Bool) (hbuf : s.buf = buf) : (erase q buf s).Right maxlen prompt := by
  induction buf generalizing s with
  | nil => exact h
  | cons c buf ih =>
    unfold Kgets.erase
    split_ifs
    · exact ih (h.backsp hbuf) rfl
    · exact h

theorem Right.step (h : s.Right maxlen prompt) {ch : ℕ} (hstep : s.step maxlen ch = some t) :
    t.Right maxlen prompt := by
  have hfits := h.fits
  unfold Kgets.step at hstep
  split_ifs at hstep with hret hnl hch hbs
  all_goals cases hstep
  · exact ⟨hfits, h.text, by simp⟩
  -- a character
  · have htext : ∀ c ∈ [ch], 32 ≤ c ∧ c < 127 := List.forall_mem_singleton.mpr ⟨hch.1, hch.2.1⟩
    refine ⟨?_, List.forall_mem_cons.mpr ⟨htext ch (by simp), h.text⟩, fun hr => (h.shown hr).imp (·.text htext) (·.text htext)⟩
    rw [out, List.length_cons]
    omega
  -- backspace
  · obtain ⟨c, buf, hbuf⟩ := List.exists_cons_of_ne_nil hbs.2
    rw [hbuf]
    exact h.backsp hbuf
  -- ^C
  · exact ⟨Nat.zero_lt_of_lt hfits, by simp [out], by simp⟩
  -- ^R starts a new row
  · have htext : ∀ c ∈ s.buf.reverse, 32 ≤ c ∧ c < 127 := fun c hc => h.text c (List.mem_reverse.mp hc)
    have hline : (s.buf.reverse ++ [0]).takeWhile (· ≠ 0) = s.buf.reverse := by
      rw [List.takeWhile_append_of_pos fun c hc => by have := htext c hc; simp; omega]
      simp
    have hempty : Terminal.Shows ⟨[], []⟩ [] := ⟨rfl, by simp⟩
    refine ⟨hfits, h.text, fun _ => Or.inr ?_⟩
    have hagain := hempty.text htext
    rw [List.reverse_reverse, List.append_nil] at hagain
    rw [hline, out, List.foldl_append]
    exact hagain
  -- ^U and ^W
  · exact h.erase _ rfl
  · exact (h.erase _ rfl).erase _ rfl
  · exact h

end Kgets

/-- Whatever is typed, `kgets` has a line that fits into its buffer, and the terminal shows it. -/
theorem kgets_shows_line (maxlen : ℕ) (h0 : 0 < maxlen) (prompt chars : List ℕ) :
    AllStates (Kgets.step maxlen) (Kgets.Right maxlen prompt) ⟨[], ⟨prompt, []⟩, false⟩ chars :=
  allStates_of_step (fun _ _ _ h hstep => h.step hstep) ⟨h0, by simp, by simp [Terminal.Shows]⟩ chars

theorem kgets_shows_line_erase : AllStates (Kgets.step 64) (Kgets.Right 64 [62]) ⟨[], ⟨[62], []⟩, false⟩ [97, 32, 98, 23, 10] :=
  kgets_shows_line 64 (by decide) _ _

end Os161
