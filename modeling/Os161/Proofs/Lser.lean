import Os161.Spec.Lser

/-! The transmitter of the serial device passes from the semaphore to the writer, to the busy
flag, to the interrupt handler, and back to the semaphore. Under `ls_lock` the flag and the
device agree, at each statement of the holder in its own way. -/

namespace Os161

/-- What `ls_lock` protects on the output side. -/
structure LserPort where
  wbusy : Bool
  sending : Bool
  wirq : LserIrq

namespace LserPort

/-- The device has nothing to send and nothing to say. -/
structure Idle (d : LserPort) : Prop where
  sending : d.sending = false
  active : d.wirq.active = false

/-- A character was sent, and the condition has not been cleared. -/
structure Ready (d : LserPort) : Prop where
  sending : d.sending = false
  active : d.wirq.active = true

/-- What holds when nobody has the lock. -/
structure Settled (d : LserPort) : Prop where
  busy : d.wbusy = true → d.wirq.active = !d.sending
  free : d.wbusy = false → d.Idle
  enable : d.wirq.enable = true

/-- What the holder of the lock knows at each statement. -/
def Knows (d : LserPort) : LserPc → Prop
  | .out | .intrP _ _ | .writeAcquire _ _ | .pollAcquire _ _ | .irqAcquire | .irqStart _ _ | .irqInput _ => True
  | .writeBusy _ _ => d.wbusy = false ∧ d.Settled
  | .writeChar _ _ => d.wbusy = true ∧ d.Idle ∧ d.wirq.enable = true
  | .pollReady _ _ => d.wbusy = true ∧ d.Settled
  | .pollForce _ _ => d.wbusy = true ∧ d.Ready
  | .pollMask _ _ => d.wbusy = false ∧ d.Settled
  | .pollChar _ _ irqpending => d.wbusy = irqpending ∧ d.Idle ∧ d.wirq.enable = irqpending
  | .pollDone irqpending => d.wbusy = irqpending ∧ d.wirq.active = (!d.sending) ∧ d.wirq.enable = irqpending
  | .pollUnmask => d.wbusy = false ∧ d.Ready
  | .irqClear => d.wbusy = true ∧ d.Ready
  | .irqEnableW => d.wbusy = false ∧ d.Ready
  | .writeTest _ _ | .writeRelease | .pollTest _ _ | .pollRelease => d.Settled
  | .irqReadW | .irqReadR _ | .irqGet _ | .irqEnableR _ _ | .irqRelease _ _ => d.Settled

variable {d : LserPort} {p : LserPc}

/-- The condition is up only when the flag is. -/
theorem Settled.ready (h : d.Settled) (hactive : d.wirq.active = true) : d.wbusy = true ∧ d.Ready := by
  cases hbusy : d.wbusy with
  | false => exact absurd (h.free hbusy).active (by simp [hactive])
  | true =>
    have hsending := h.busy hbusy
    rw [hactive] at hsending
    exact ⟨rfl, by simpa using hsending.symm, hactive⟩

theorem settled_of_free (hbusy : d.wbusy = false) (hidle : d.Idle) (henable : d.wirq.enable = true) : d.Settled :=
  ⟨fun h => absurd (hbusy.symm.trans h) Bool.false_ne_true, fun _ => hidle, henable⟩

theorem settled_of_busy (hbusy : d.wbusy = true) (hactive : d.wirq.active = !d.sending) (henable : d.wirq.enable = true) :
    d.Settled :=
  ⟨fun _ => hactive, fun h => absurd (h.symm.trans hbusy) Bool.false_ne_true, henable⟩

/-- The device finishes a character. -/
def sendDone (d : LserPort) : LserPort := { d with sending := false, wirq := { d.wirq with active := true } }

theorem Settled.sendDone (h : d.Settled) (hsending : d.sending = true) : d.sendDone.Settled := by
  cases hbusy : d.wbusy with
  | false => exact absurd (h.free hbusy).sending (by simp [hsending])
  | true => exact settled_of_busy hbusy rfl h.enable

/-- Whoever holds the lock is not surprised by it. -/
theorem Knows.sendDone (h : d.Knows p) (hsending : d.sending = true) : d.sendDone.Knows p := by
  have hidle (hi : d.Idle) : False := absurd hi.sending (by simp [hsending])
  have hready (hr : d.Ready) : False := absurd hr.sending (by simp [hsending])
  cases p with
  | out | intrP | writeAcquire | pollAcquire | irqAcquire | irqStart | irqInput => trivial
  | writeBusy n ch => exact (hidle (h.2.free h.1)).elim
  | writeChar n ch => exact (hidle h.2.1).elim
  | pollReady n ch => exact ⟨h.1, h.2.sendDone hsending⟩
  | pollForce n ch => exact (hready h.2).elim
  | pollMask n ch => exact (hidle (h.2.free h.1)).elim
  | pollChar n ch irqpending => exact (hidle h.2.1).elim
  | pollDone irqpending => exact ⟨h.1, rfl, h.2.2⟩
  | pollUnmask => exact (hready h.2).elim
  | irqClear => exact (hready h.2).elim
  | irqEnableW => exact (hready h.2).elim
  | writeTest | writeRelease | pollTest | pollRelease => exact Settled.sendDone h hsending
  | irqReadW | irqReadR | irqGet | irqEnableR | irqRelease => exact Settled.sendDone h hsending

end LserPort

namespace Lser

variable {T : Type} {a b : T} {p p' q : LserPc} {m m' : Lser T}

def port (m : Lser T) : LserPort := ⟨m.wbusy, m.sending, m.wirq⟩

/-- Whether `ls_lock` is held there. -/
def Locked : LserPc → Prop
  | .out | .intrP _ _ | .writeAcquire _ _ | .pollAcquire _ _ | .irqAcquire | .irqStart _ _ | .irqInput _ => False
  | _ => True

/-- What holds of agent `a` and the shared state. -/
structure Local (a : T) (p : LserPc) (m : Lser T) : Prop where
  lock : Locked p ↔ m.lock = some a
  knows : m.port.Knows p
  free : m.lock = none → m.port.Settled

/-- The part of the transmitter that an agent has. -/
def share (p : LserPc) : ℕ := p.cleared.toNat + p.claiming.toNat

/-- A move stores the character of the call at most once. -/
def Stores (p : LserPc) (m : Lser T) (p' : LserPc) (m' : Lser T) : Prop :=
  (m'.sent = m.sent ∧ p'.unsent = p.unsent) ∨
    ∃ n ch, p.unsent = some (n, ch) ∧ p'.unsent = none ∧ m'.sent = m.sent ++ [(n, ch)]

/-- What a move of `a` does: it keeps what `a` knows and does not disturb another holder of
the lock, it hands on the transmitter, and it stores a character at most once. -/
structure Moved (a : T) (p : LserPc) (m : Lser T) (p' : LserPc) (m' : Lser T) : Prop where
  inv : Local a p' m'
  other : ∀ b, b ≠ a → (m'.lock = some b ↔ m.lock = some b)
  port : ∀ b, b ≠ a → m.lock = some b → m'.port = m.port
  panicked : m'.panicked = m.panicked
  owner : m'.wsem + m'.wbusy.toNat + share p' = m.wsem + m.wbusy.toNat + share p
  starts : m'.starts + m'.wbusy.toNat + p'.cleared.toNat + m.writes = m.starts + m.wbusy.toNat + p.cleared.toNat + m'.writes
  calls : m'.calls = m.calls
  lost : m'.lost = m.lost
  sent : Stores p m p' m'

/-- A statement of the holder of the lock. -/
theorem Moved.inside (h : Local a p m) (hp : Locked p) (hp' : Locked p') (hknows : m'.port.Knows p')
    (hlock : m'.lock = m.lock) (hpanicked : m'.panicked = m.panicked)
    (howner : m'.wsem + m'.wbusy.toNat + share p' = m.wsem + m.wbusy.toNat + share p)
    (hstarts : m'.starts + m'.wbusy.toNat + p'.cleared.toNat + m.writes =
      m.starts + m.wbusy.toNat + p.cleared.toNat + m'.writes)
    (hcalls : m'.calls = m.calls) (hlost : m'.lost = m.lost) (hsent : Stores p m p' m') : Moved a p m p' m' := by
  have hmine := h.lock.mp hp
  refine ⟨⟨?_, hknows, ?_⟩, ?_, ?_, hpanicked, howner, hstarts, hcalls, hlost, hsent⟩
  · rw [hlock]
    exact iff_of_true hp' hmine
  · intro hnone
    rw [hlock, hmine] at hnone
    exact absurd hnone (by simp)
  · intro b _
    rw [hlock]
  · intro b hb hheld
    exact absurd (Option.some.inj (hheld.symm.trans hmine)) hb

/-- A statement of the holder that only looks. -/
theorem Moved.look (h : Local a p m) (hp : Locked p) (hp' : Locked p') (hknows : m.port.Knows p')
    (hcleared : p'.cleared = p.cleared) (hclaiming : p'.claiming = p.claiming) (hunsent : p'.unsent = p.unsent) :
    Moved a p m p' m :=
  .inside h hp hp' hknows rfl rfl (by rw [share, share, hcleared, hclaiming]) (by rw [hcleared]) rfl rfl
    (Or.inl ⟨rfl, hunsent⟩)

theorem Moved.acquire (h : Local a p m) (hmove : m.acquire a q = some (p', m')) (hq : Locked q)
    (hknows : ∀ d : LserPort, d.Settled → d.Knows q) (hcleared : q.cleared = p.cleared)
    (hclaiming : q.claiming = p.claiming) (hunsent : q.unsent = p.unsent) : Moved a p m p' m' := by
  obtain ⟨hnone, heq⟩ := Option.ite_none_right_eq_some.mp hmove
  obtain ⟨rfl, rfl⟩ := Prod.mk.inj (Option.some.inj heq)
  have hfree : m.lock = none := Option.isNone_iff_eq_none.mp hnone
  refine ⟨⟨iff_of_true hq rfl, hknows _ (h.free hfree), by simp⟩, ?_, ?_, rfl, ?_, ?_, rfl, rfl, Or.inl ⟨rfl, hunsent⟩⟩
  · intro b hb
    rw [hfree]
    simp [hb.symm]
  · intro b _ hheld
    rw [hfree] at hheld
    exact absurd hheld (by simp)
  · rw [share, share, hcleared, hclaiming]
  · rw [hcleared]

theorem Moved.release (h : Local a p m) (hp : Locked p) (hsettled : m.port.Settled) (hmove : m.release q = some (p', m'))
    (hq : ¬ Locked q) (hknows : ∀ d : LserPort, d.Knows q) (hcleared : q.cleared = p.cleared)
    (hclaiming : q.claiming = p.claiming) (hunsent : q.unsent = p.unsent) : Moved a p m p' m' := by
  obtain ⟨rfl, rfl⟩ := Prod.mk.inj (Option.some.inj hmove)
  have hmine := h.lock.mp hp
  refine ⟨⟨iff_of_false hq (by simp), hknows _, fun _ => hsettled⟩, ?_, ?_, rfl, ?_, ?_, rfl, rfl, Or.inl ⟨rfl, hunsent⟩⟩
  · intro b hb
    rw [hmine]
    simp [hb.symm]
  · intro b hb hheld
    exact absurd (Option.some.inj (hheld.symm.trans hmine)) hb
  · rw [share, share, hcleared, hclaiming]
  · rw [hcleared]

/-- A statement of an agent without the lock that leaves the device alone. -/
theorem Moved.outside (h : Local a p m) (hp : ¬ Locked p) (hp' : ¬ Locked p') (hknows : ∀ d : LserPort, d.Knows p')
    (hlock : m'.lock = m.lock) (hport : m'.port = m.port) (hpanicked : m'.panicked = m.panicked)
    (howner : m'.wsem + m'.wbusy.toNat + share p' = m.wsem + m.wbusy.toNat + share p)
    (hstarts : m'.starts + m'.wbusy.toNat + p'.cleared.toNat + m.writes =
      m.starts + m.wbusy.toNat + p.cleared.toNat + m'.writes)
    (hcalls : m'.calls = m.calls) (hlost : m'.lost = m.lost) (hsent : Stores p m p' m') : Moved a p m p' m' := by
  have hnot := mt h.lock.mpr hp
  refine ⟨⟨?_, hknows _, ?_⟩, ?_, fun _ _ _ => hport, hpanicked, howner, hstarts, hcalls, hlost, hsent⟩
  · rw [hlock]
    exact iff_of_false hp' hnot
  · rw [hlock, hport]
    exact h.free
  · intro b _
    rw [hlock]

/-- The device takes the character if it is not sending. -/
theorem storeChar_eq (n : ℕ) (ch : ℤ) (hidle : m.port.Idle) :
    m.storeChar n ch = { m with sending := true, sent := m.sent ++ [(n, ch)] } :=
  if_neg fun h => Bool.false_ne_true (hidle.sending.symm.trans h)

theorem move_moved (h : Local a p m) (hshare : m.wsem + m.wbusy.toNat + share p ≤ 1) (hmove : move a p m = some (p', m')) :
    Moved a p m p' m' := by
  have hk := h.knows
  cases p with
  | out => exact absurd hmove (by simp [move])
  | intrP n ch =>
    obtain ⟨hpos, heq⟩ := Option.ite_none_right_eq_some.mp hmove
    obtain ⟨rfl, rfl⟩ := Prod.mk.inj (Option.some.inj heq)
    refine .outside h id id (fun _ => trivial) rfl rfl rfl ?_ rfl rfl rfl (Or.inl ⟨rfl, rfl⟩)
    change m.wsem - 1 + m.wbusy.toNat + 1 = m.wsem + m.wbusy.toNat + 0
    omega
  | writeAcquire n ch => exact .acquire h hmove trivial (fun _ hd => hd) rfl rfl rfl
  | writeTest n ch =>
    -- the transmitter is with this call, so the flag is down
    have hbusy : m.wbusy = false := by
      cases hbusy : m.wbusy with
      | false => rfl
      | true =>
        rw [hbusy] at hshare
        change m.wsem + 1 + 1 ≤ 1 at hshare
        omega
    rw [move, if_neg (by simp [hbusy])] at hmove
    obtain ⟨rfl, rfl⟩ := Prod.mk.inj (Option.some.inj hmove)
    exact .look h trivial trivial ⟨hbusy, hk⟩ rfl rfl rfl
  | writeBusy n ch =>
    obtain ⟨rfl, rfl⟩ := Prod.mk.inj (Option.some.inj hmove)
    obtain ⟨hbusy, hsettled⟩ := hk
    have hidle := hsettled.free hbusy
    have hdown : m.wbusy = false := hbusy
    refine .inside h trivial trivial ⟨rfl, ⟨hidle.sending, hidle.active⟩, hsettled.enable⟩ rfl rfl ?_ ?_ rfl rfl (Or.inl ⟨rfl, rfl⟩)
    · rw [hdown]
      rfl
    · rw [hdown]
      change m.starts + 1 + 0 + m.writes = m.starts + 0 + 0 + (m.writes + 1)
      omega
  | writeChar n ch =>
    obtain ⟨rfl, rfl⟩ := Prod.mk.inj (Option.some.inj hmove)
    obtain ⟨hbusy, hidle, henable⟩ := hk
    rw [storeChar_eq n ch hidle]
    refine .inside h trivial trivial ?_ rfl rfl rfl rfl rfl rfl (Or.inr ⟨n, ch, rfl, rfl, rfl⟩)
    exact LserPort.settled_of_busy hbusy hidle.active henable
  | writeRelease => exact .release h trivial hk hmove id (fun _ => trivial) rfl rfl rfl
  | pollAcquire n ch => exact .acquire h hmove trivial (fun _ hd => hd) rfl rfl rfl
  | pollTest n ch =>
    obtain ⟨rfl, rfl⟩ := Prod.mk.inj (Option.some.inj hmove)
    cases hbusy : m.wbusy with
    | true => exact .look h trivial trivial ⟨hbusy, hk⟩ rfl rfl rfl
    | false => exact .look h trivial trivial ⟨hbusy, hk⟩ rfl rfl rfl
  | pollReady n ch =>
    obtain ⟨rfl, rfl⟩ := Prod.mk.inj (Option.some.inj hmove)
    cases hactive : m.wirq.active with
    | true => exact .look h trivial trivial (hk.2.ready hactive) rfl rfl rfl
    | false => exact .look h trivial trivial hk rfl rfl rfl
  | pollForce n ch =>
    obtain ⟨rfl, rfl⟩ := Prod.mk.inj (Option.some.inj hmove)
    exact .inside h trivial trivial ⟨hk.1, ⟨hk.2.sending, rfl⟩, rfl⟩ rfl rfl rfl rfl rfl rfl (Or.inl ⟨rfl, rfl⟩)
  | pollMask n ch =>
    obtain ⟨rfl, rfl⟩ := Prod.mk.inj (Option.some.inj hmove)
    have hidle := hk.2.free hk.1
    exact .inside h trivial trivial ⟨hk.1, ⟨hidle.sending, rfl⟩, rfl⟩ rfl rfl rfl rfl rfl rfl (Or.inl ⟨rfl, rfl⟩)
  | pollChar n ch irqpending =>
    obtain ⟨rfl, rfl⟩ := Prod.mk.inj (Option.some.inj hmove)
    obtain ⟨hbusy, hidle, henable⟩ := hk
    rw [storeChar_eq n ch hidle]
    exact .inside h trivial trivial ⟨hbusy, hidle.active, henable⟩ rfl rfl rfl rfl rfl rfl (Or.inr ⟨n, ch, rfl, rfl, rfl⟩)
  | pollDone irqpending =>
    cases hactive : m.wirq.active with
    | false =>
      rw [move, if_neg (by simp [hactive])] at hmove
      obtain ⟨rfl, rfl⟩ := Prod.mk.inj (Option.some.inj hmove)
      exact .look h trivial trivial hk rfl rfl rfl
    | true =>
      rw [move, if_pos hactive] at hmove
      obtain ⟨rfl, rfl⟩ := Prod.mk.inj (Option.some.inj hmove)
      obtain ⟨hbusy, hdone, henable⟩ := hk
      cases irqpending with
      | true => exact .look h trivial trivial (LserPort.settled_of_busy hbusy hdone henable) rfl rfl rfl
      | false =>
        have hsending : m.sending = false := by
          have hnot : m.wirq.active = !m.sending := hdone
          rw [hactive] at hnot
          simpa using hnot.symm
        exact .look h trivial trivial ⟨hbusy, hsending, hactive⟩ rfl rfl rfl
  | pollUnmask =>
    obtain ⟨rfl, rfl⟩ := Prod.mk.inj (Option.some.inj hmove)
    refine .inside h trivial trivial ?_ rfl rfl rfl rfl rfl rfl (Or.inl ⟨rfl, rfl⟩)
    exact LserPort.settled_of_free hk.1 ⟨hk.2.sending, rfl⟩ rfl
  | pollRelease => exact .release h trivial hk hmove id (fun _ => trivial) rfl rfl rfl
  | irqAcquire => exact .acquire h hmove trivial (fun _ hd => hd) rfl rfl rfl
  | irqReadW =>
    obtain ⟨rfl, rfl⟩ := Prod.mk.inj (Option.some.inj hmove)
    cases hactive : m.wirq.active with
    | true => exact .look h trivial trivial (LserPort.Settled.ready hk hactive) rfl rfl rfl
    | false => exact .look h trivial trivial hk rfl rfl rfl
  | irqClear =>
    obtain ⟨rfl, rfl⟩ := Prod.mk.inj (Option.some.inj hmove)
    have hup : m.wbusy = true := hk.1
    refine .inside h trivial trivial ⟨rfl, hk.2.sending, hk.2.active⟩ rfl rfl ?_ ?_ rfl rfl (Or.inl ⟨rfl, rfl⟩)
    · rw [hup]
      rfl
    · rw [hup]
      rfl
  | irqEnableW =>
    obtain ⟨rfl, rfl⟩ := Prod.mk.inj (Option.some.inj hmove)
    refine .inside h trivial trivial ?_ rfl rfl rfl rfl rfl rfl (Or.inl ⟨rfl, rfl⟩)
    exact LserPort.settled_of_free hk.1 ⟨hk.2.sending, rfl⟩ rfl
  | irqReadR ctw =>
    obtain ⟨rfl, rfl⟩ := Prod.mk.inj (Option.some.inj hmove)
    cases m.rirq.active with
    | true => exact .look h trivial trivial hk rfl rfl rfl
    | false => exact .look h trivial trivial hk rfl rfl rfl
  | irqGet ctw =>
    obtain ⟨rfl, rfl⟩ := Prod.mk.inj (Option.some.inj hmove)
    exact .look h trivial trivial hk rfl rfl rfl
  | irqEnableR ctw ch =>
    obtain ⟨rfl, rfl⟩ := Prod.mk.inj (Option.some.inj hmove)
    exact .inside h trivial trivial hk rfl rfl rfl rfl rfl rfl (Or.inl ⟨rfl, rfl⟩)
  | irqRelease ctw got => exact .release h trivial hk hmove id (fun _ => trivial) rfl rfl rfl
  | irqStart ctw got =>
    obtain ⟨rfl, rfl⟩ := Prod.mk.inj (Option.some.inj hmove)
    cases ctw with
    | false => exact .outside h id id (fun _ => trivial) rfl rfl rfl rfl rfl rfl rfl (Or.inl ⟨rfl, rfl⟩)
    | true =>
      refine .outside h id id (fun _ => trivial) rfl rfl rfl ?_ ?_ rfl rfl (Or.inl ⟨rfl, rfl⟩)
      · change m.wsem + 1 + m.wbusy.toNat + 0 = m.wsem + m.wbusy.toNat + 1
        omega
      · change m.starts + 1 + m.wbusy.toNat + 0 + m.writes = m.starts + m.wbusy.toNat + 1 + m.writes
        omega
  | irqInput got =>
    obtain ⟨rfl, rfl⟩ := Prod.mk.inj (Option.some.inj hmove)
    exact .outside h id id (fun _ => trivial) rfl rfl rfl rfl rfl rfl rfl (Or.inl ⟨rfl, rfl⟩)

/-- Another agent keeps what it knows: either it has the lock and the device is as it was, or
it knows nothing of the device. -/
theorem Local.of_moved (h : Local b q m) (hmoved : Moved a p m p' m') (hb : b ≠ a) : Local b q m' := by
  refine ⟨h.lock.trans (hmoved.other b hb).symm, ?_, hmoved.inv.free⟩
  by_cases hq : Locked q
  · rw [hmoved.port b hb (h.lock.mp hq)]
    exact h.knows
  · cases q with
    | out | intrP | writeAcquire | pollAcquire | irqAcquire | irqStart | irqInput => trivial
    | _ => exact absurd trivial hq

/-! ### The books on the calls -/

/-- Which calls are still to be stored, and by whom. -/
structure Calls (pc : T → LserPc) (m : Lser T) : Prop where
  once : (m.sent.map Prod.fst).Nodup
  sent : ∀ n, n ∈ m.sent.map Prod.fst ↔ n < m.calls.length ∧ ∀ a ch, (pc a).unsent ≠ some (n, ch)
  char : ∀ n ch, (n, ch) ∈ m.sent → m.calls[n]? = some ch
  known : ∀ a n ch, (pc a).unsent = some (n, ch) → m.calls[n]? = some ch
  unique : ∀ a b n ch ch', (pc a).unsent = some (n, ch) → (pc b).unsent = some (n, ch') → a = b

section
variable [DecidableEq T]

/-- A move that stores nothing leaves the books as they are. -/
theorem Calls.same {pc : T → LserPc} (h : Calls pc m) (hp : p'.unsent = (pc a).unsent) (hsent : m'.sent = m.sent)
    (hcalls : m'.calls = m.calls) : Calls (Function.update pc a p') m' := by
  have hunsent (b : T) : (Function.update pc a p' b).unsent = (pc b).unsent := by
    by_cases hb : b = a
    · rw [hb, Function.update_self, hp]
    · rw [Function.update_of_ne hb]
  constructor
  · rw [hsent]
    exact h.once
  · simp only [hsent, hcalls, hunsent]
    exact h.sent
  · rw [hsent, hcalls]
    exact h.char
  · simp only [hcalls, hunsent]
    exact h.known
  · simp only [hunsent]
    exact h.unique

/-- The store of a character settles its call. -/
theorem Calls.store {pc : T → LserPc} (h : Calls pc m) {n : ℕ} {ch : ℤ} (hp : (pc a).unsent = some (n, ch))
    (hp' : p'.unsent = none) (hsent : m'.sent = m.sent ++ [(n, ch)]) (hcalls : m'.calls = m.calls) :
    Calls (Function.update pc a p') m' := by
  have hself : (Function.update pc a p' a).unsent = none := by rw [Function.update_self, hp']
  have hother (b : T) (hb : b ≠ a) : (Function.update pc a p' b).unsent = (pc b).unsent := by
    rw [Function.update_of_ne hb]
  have hold {b : T} {k : ℕ} {c : ℤ} (hb : (Function.update pc a p' b).unsent = some (k, c)) :
      b ≠ a ∧ (pc b).unsent = some (k, c) := by
    have hne : b ≠ a := by
      rintro rfl
      rw [hself] at hb
      exact absurd hb (by simp)
    exact ⟨hne, (hother b hne).symm.trans hb⟩
  have hnew : n ∉ m.sent.map Prod.fst := fun hmem => ((h.sent n).mp hmem).2 a ch hp
  refine ⟨?_, fun k => ?_, ?_, ?_, ?_⟩
  · rw [hsent, List.map_append, List.nodup_append]
    refine ⟨h.once, List.nodup_singleton _, ?_⟩
    rintro x hx y hy rfl
    rw [List.mem_singleton.mp hy] at hx
    exact hnew hx
  · rw [hsent, hcalls, List.map_append, List.mem_append, h.sent k]
    constructor
    · rintro (⟨hlt, hnone⟩ | hk)
      · exact ⟨hlt, fun b c hb => hnone b c (hold hb).2⟩
      · obtain rfl : k = n := List.mem_singleton.mp hk
        refine ⟨(List.getElem?_eq_some_iff.mp (h.known a k ch hp)).1, fun b c hb => ?_⟩
        exact (hold hb).1 (h.unique b a k c ch (hold hb).2 hp)
    · rintro ⟨hlt, hnone⟩
      by_cases hk : k = n
      · exact Or.inr (List.mem_singleton.mpr hk)
      · refine Or.inl ⟨hlt, fun b c hb => ?_⟩
        by_cases hba : b = a
        · rw [hba, hp, Option.some.injEq, Prod.mk.injEq] at hb
          exact hk hb.1.symm
        · exact hnone b c ((hother b hba).trans hb)
  · intro k c hk
    rw [hsent, List.mem_append] at hk
    rw [hcalls]
    rcases hk with hk | hk
    · exact h.char k c hk
    · obtain ⟨rfl, rfl⟩ := Prod.mk.inj (List.mem_singleton.mp hk)
      exact h.known a k c hp
  · intro b k c hb
    rw [hcalls]
    exact h.known b k c (hold hb).2
  · intro b b' k c c' hb hb'
    exact h.unique b b' k c c' (hold hb).2 (hold hb').2

/-- A new call gets the next number. -/
theorem Calls.enter {pc : T → LserPc} (h : Calls pc m) {ch : ℤ} (hp : (pc a).unsent = none)
    (hp' : p'.unsent = some (m.calls.length, ch)) :
    Calls (Function.update pc a p') { m with calls := m.calls ++ [ch] } := by
  have hself : (Function.update pc a p' a).unsent = some (m.calls.length, ch) := by rw [Function.update_self, hp']
  have hother (b : T) (hb : b ≠ a) : (Function.update pc a p' b).unsent = (pc b).unsent := by
    rw [Function.update_of_ne hb]
  have hold {n : ℕ} {c : ℤ} (hn : m.calls[n]? = some c) : (m.calls ++ [ch])[n]? = some c := by
    rw [List.getElem?_append_left (List.getElem?_eq_some_iff.mp hn).1, hn]
  have hlt {b : T} {n : ℕ} {c : ℤ} (hb : (pc b).unsent = some (n, c)) : n < m.calls.length :=
    (List.getElem?_eq_some_iff.mp (h.known b n c hb)).1
  -- an unsent call is the new one, or one of before
  have hcases {b : T} {n : ℕ} {c : ℤ} (hb : (Function.update pc a p' b).unsent = some (n, c)) :
      (b = a ∧ n = m.calls.length ∧ c = ch) ∨ (b ≠ a ∧ (pc b).unsent = some (n, c)) := by
    by_cases hba : b = a
    · rw [hba, hself, Option.some.injEq, Prod.mk.injEq] at hb
      exact Or.inl ⟨hba, hb.1.symm, hb.2.symm⟩
    · exact Or.inr ⟨hba, (hother b hba).symm.trans hb⟩
  refine ⟨h.once, fun n => ?_, fun n c hn => hold (h.char n c hn), ?_, ?_⟩
  · rw [h.sent n, List.length_append, List.length_singleton]
    constructor
    · rintro ⟨hn, hnone⟩
      refine ⟨by omega, fun b c hb => ?_⟩
      rcases hcases hb with ⟨-, rfl, -⟩ | ⟨-, hb⟩
      · exact lt_irrefl _ hn
      · exact hnone b c hb
    · rintro ⟨hn, hnone⟩
      have hne : n ≠ m.calls.length := by
        rintro rfl
        exact hnone a ch hself
      refine ⟨by omega, fun b c hb => ?_⟩
      by_cases hba : b = a
      · rw [hba, hp] at hb
        exact absurd hb (by simp)
      · exact hnone b c ((hother b hba).trans hb)
  · intro b n c hb
    rcases hcases hb with ⟨-, rfl, rfl⟩ | ⟨-, hb⟩
    · exact List.getElem?_concat_length
    · exact hold (h.known b n c hb)
  · intro b b' n c c' hb hb'
    rcases hcases hb with ⟨hba, hn, -⟩ | ⟨-, hb⟩
    · rcases hcases hb' with ⟨hba', -, -⟩ | ⟨-, hb'⟩
      · rw [hba, hba']
      · exact absurd hn (hlt hb').ne
    · rcases hcases hb' with ⟨-, hn, -⟩ | ⟨-, hb'⟩
      · exact absurd hn (hlt hb).ne
      · exact h.unique b b' n c c' hb hb'

end

/-! ### All agents -/

section
variable [Fintype T] {s : Agents T LserPc (Lser T)}

structure Inv (s : Agents T LserPc (Lser T)) : Prop where
  clear : s.mem.panicked = false
  lost : s.mem.lost = []
  calls : Calls s.pc s.mem
  owner : s.mem.wsem + s.mem.wbusy.toNat + Agents.countAt LserPc.cleared s.pc + Agents.countAt LserPc.claiming s.pc = 1
  starts : s.mem.starts + s.mem.wbusy.toNat + Agents.countAt LserPc.cleared s.pc = s.mem.writes
  each : ∀ a, Local a (s.pc a) s.mem
  free : s.mem.lock = none → s.mem.port.Settled

theorem Inv.transmits (h : Inv s) : Transmits s where
  clear := h.clear
  lost := h.lost
  once := h.calls.once
  sent := h.calls.sent
  char := h.calls.char
  owner := h.owner
  starts := h.starts
  raised hlock hbusy hsending := by
    have hsettled := h.free hlock
    have hactive : s.mem.wirq.active = !s.mem.sending := hsettled.busy hbusy
    have henable : s.mem.wirq.enable = true := hsettled.enable
    rw [LserIrq.raised, henable, hactive, hsending]
    rfl

theorem inv_config (inchar : ℕ) : Inv (T := T) ⟨fun _ => .out, config inchar⟩ where
  clear := rfl
  lost := rfl
  calls := ⟨List.nodup_nil, by simp [config], by simp [config], by simp [LserPc.unsent], by simp [LserPc.unsent]⟩
  owner := by simp [Agents.countAt, count, config, LserPc.cleared, LserPc.claiming]
  starts := by simp [Agents.countAt, count, config, LserPc.cleared]
  each _ := ⟨by simp [Locked, config], trivial, fun _ => ⟨by simp [port, config], fun _ => ⟨rfl, rfl⟩, rfl⟩⟩
  free _ := ⟨by simp [port, config], fun _ => ⟨rfl, rfl⟩, rfl⟩

/-- No agent has more of the transmitter than there is. -/
theorem Inv.share_le (h : Inv s) (a : T) : s.mem.wsem + s.mem.wbusy.toNat + share (s.pc a) ≤ 1 := by
  have howner := h.owner
  have hcleared := Agents.le_countAt LserPc.cleared s.pc a
  have hclaiming := Agents.le_countAt LserPc.claiming s.pc a
  unfold share
  omega

end

variable [DecidableEq T] [Fintype T] {s t : Agents T LserPc (Lser T)}

theorem inv_run (h : Inv s) (hrun : s.run move a = some t) : Inv t := by
  obtain ⟨p, m, hmove, rfl⟩ := Agents.run_cases hrun
  have hmoved := move_moved (h.each a) (h.share_le a) hmove
  have hcleared := Agents.countAt_update LserPc.cleared s.pc a p
  have hclaiming := Agents.countAt_update LserPc.claiming s.pc a p
  have howner := hmoved.owner
  have hstarts := hmoved.starts
  unfold share at howner
  have howner' := h.owner
  have hstarts' := h.starts
  refine ⟨hmoved.panicked.trans h.clear, hmoved.lost.trans h.lost, ?_, ?_, ?_, ?_, hmoved.inv.free⟩
  · rcases hmoved.sent with ⟨hsent, hunsent⟩ | ⟨n, ch, hp, hp', hsent⟩
    · exact h.calls.same hunsent hsent hmoved.calls
    · exact h.calls.store hp hp' hsent hmoved.calls
  · change m.wsem + m.wbusy.toNat + Agents.countAt LserPc.cleared (Function.update s.pc a p) +
      Agents.countAt LserPc.claiming (Function.update s.pc a p) = 1
    omega
  · change m.starts + m.wbusy.toNat + Agents.countAt LserPc.cleared (Function.update s.pc a p) = m.writes
    omega
  · exact Agents.forall_update h.each hmoved.inv fun b hb hlocal => hlocal.of_moved hmoved hb

/-- A call starts outside of the lock, with no part of the transmitter. -/
theorem inv_enter (h : Inv s) (hout : s.pc a = .out) (hp : ¬ Locked p) (hknows : ∀ d : LserPort, d.Knows p)
    (hcleared : p.cleared = false) (hclaiming : p.claiming = false) {calls : List ℤ}
    (hcalls : Calls (Function.update s.pc a p) { s.mem with calls := calls }) :
    Inv ⟨Function.update s.pc a p, { s.mem with calls := calls }⟩ := by
  have hcount : Agents.countAt LserPc.cleared (Function.update s.pc a p) = Agents.countAt LserPc.cleared s.pc :=
    Agents.countAt_same (by rw [hcleared, hout]; rfl)
  have hcount' : Agents.countAt LserPc.claiming (Function.update s.pc a p) = Agents.countAt LserPc.claiming s.pc :=
    Agents.countAt_same (by rw [hclaiming, hout]; rfl)
  refine ⟨h.clear, h.lost, hcalls, ?_, ?_, ?_, h.free⟩
  · rw [hcount, hcount']
    exact h.owner
  · rw [hcount]
    exact h.starts
  · refine Agents.forall_update h.each ⟨?_, hknows _, h.free⟩ fun b _ hlocal => ⟨hlocal.lock, hlocal.knows, hlocal.free⟩
    have hlock := (h.each a).lock
    rw [hout] at hlock
    exact iff_of_false hp hlock.mpr

theorem inv_step {ev : LserEv T} (h : Inv s) (hstep : step s ev = some t) : Inv t := by
  cases ev with
  | putch a ch polled =>
    obtain ⟨hout, heq⟩ := Option.ite_none_right_eq_some.mp hstep
    rw [← Option.some.inj heq]
    have hunsent : (s.pc a).unsent = none := by rw [hout]; rfl
    cases polled with
    | true =>
      exact inv_enter (p := .pollAcquire s.mem.calls.length ch) h hout id (fun _ => trivial) rfl rfl
        (h.calls.enter hunsent rfl)
    | false =>
      exact inv_enter (p := .intrP s.mem.calls.length ch) h hout id (fun _ => trivial) rfl rfl
        (h.calls.enter hunsent rfl)
  | interrupt a =>
    obtain ⟨hout, heq⟩ := Option.ite_none_right_eq_some.mp hstep
    rw [← Option.some.inj heq]
    exact inv_enter (p := .irqAcquire) h hout id (fun _ => trivial) rfl rfl (h.calls.same (by rw [hout]; rfl) rfl rfl)
  | run a => exact inv_run h hstep
  | done =>
    obtain ⟨hsending, heq⟩ := Option.ite_none_right_eq_some.mp hstep
    rw [← Option.some.inj heq]
    have hfree (hnone : s.mem.lock = none) : s.mem.port.sendDone.Settled := (h.free hnone).sendDone hsending
    exact ⟨h.clear, h.lost, ⟨h.calls.once, h.calls.sent, h.calls.char, h.calls.known, h.calls.unique⟩, h.owner, h.starts,
      fun a => ⟨(h.each a).lock, (h.each a).knows.sendDone hsending, hfree⟩, hfree⟩
  | receive ch =>
    rw [← Option.some.inj hstep]
    exact ⟨h.clear, h.lost, ⟨h.calls.once, h.calls.sent, h.calls.char, h.calls.known, h.calls.unique⟩, h.owner, h.starts,
      fun a => ⟨(h.each a).lock, (h.each a).knows, (h.each a).free⟩, h.free⟩

end Lser

end Os161
