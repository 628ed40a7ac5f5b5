import Os161.Lib.Agents
import Os161.Lib.Run

/-! The output side of the console: `putch_intr`, `putch_polled` and `con_start` of
`kern/dev/generic/console.c` over `kern/dev/lamebus/lser.c`, one statement a step. An agent
is a thread, or an interrupt handler on some CPU: what interrupts a thread is another agent.
The device takes a character when its character register is written, and raises the
write-ready condition when it has sent it. -/

namespace Os161

/-- `LSER_REG_WIRQ` and `LSER_REG_RIRQ` -/
structure LserIrq where
  enable : Bool
  active : Bool
  force : Bool
  deriving DecidableEq

def lserIrqEnable : ℕ := 1
def lserIrqActive : ℕ := 2
def lserIrqForce : ℕ := 4

/-- A store to the register; without `LSER_IRQ_ACTIVE` it clears the condition. -/
def LserIrq.store (x : ℕ) : LserIrq := ⟨x.testBit 0, x.testBit 1, x.testBit 2⟩

/-- Whether the device interrupts. -/
def LserIrq.raised (r : LserIrq) : Bool := r.enable && (r.active || r.force)

/-- Where an agent is; a call of `putch` has a number. -/
inductive LserPc where
  | out
  /-- `putch_intr`: in `P` -/
  | intrP (n : ℕ) (ch : ℤ)
  /-- `lser_write`: about to acquire `ls_lock` -/
  | writeAcquire (n : ℕ) (ch : ℤ)
  | writeTest (n : ℕ) (ch : ℤ)
  | writeBusy (n : ℕ) (ch : ℤ)
  | writeChar (n : ℕ) (ch : ℤ)
  | writeRelease
  /-- `lser_writepolled` -/
  | pollAcquire (n : ℕ) (ch : ℤ)
  | pollTest (n : ℕ) (ch : ℤ)
  /-- in the first `lser_poll_until_write` -/
  | pollReady (n : ℕ) (ch : ℤ)
  | pollForce (n : ℕ) (ch : ℤ)
  | pollMask (n : ℕ) (ch : ℤ)
  | pollChar (n : ℕ) (ch : ℤ) (irqpending : Bool)
  /-- in the second one -/
  | pollDone (irqpending : Bool)
  | pollUnmask
  | pollRelease
  /-- `lser_irq` -/
  | irqAcquire
  | irqReadW
  | irqClear
  | irqEnableW
  | irqReadR (cleartowrite : Bool)
  | irqGet (cleartowrite : Bool)
  | irqEnableR (cleartowrite : Bool) (ch : ℕ)
  | irqRelease (cleartowrite : Bool) (gotaread : Option ℕ)
  /-- about to call `ls_start` -/
  | irqStart (cleartowrite : Bool) (gotaread : Option ℕ)
  /-- about to call `ls_input` -/
  | irqInput (gotaread : Option ℕ)
  deriving DecidableEq

/-- `struct lser_softc`, the device, and the writer's half of `struct con_softc`. -/
structure Lser (T : Type) where
  /-- the count of `cs_wsem` -/
  wsem : ℕ
  /-- the holder of `ls_lock` -/
  lock : Option T
  wbusy : Bool
  wirq : LserIrq
  rirq : LserIrq
  /-- whether the device is sending a character -/
  sending : Bool
  /-- the character that the device has received -/
  inchar : ℕ
  /-- what `putch` was called with, in order -/
  calls : List ℤ
  /-- the calls whose characters the device has taken, in order -/
  sent : List (ℕ × ℤ)
  /-- those that it was given while it was sending -/
  lost : List (ℕ × ℤ)
  /-- how often `lser_write` has claimed the device, and `con_start` has been called -/
  writes : ℕ
  starts : ℕ
  /-- what `ls_input` was called with -/
  input : List ℕ
  /-- "lser: Not clear to write" -/
  panicked : Bool

namespace Lser

variable {T : Type}

/-- After `config_lser` and the configuration of the console. -/
def config (inchar : ℕ) : Lser T where
  wsem := 1
  lock := none
  wbusy := false
  wirq := .store lserIrqEnable
  rirq := .store lserIrqEnable
  sending := false
  inchar := inchar
  calls := []
  sent := []
  lost := []
  writes := 0
  starts := 0
  input := []
  panicked := false

/-- A store to `LSER_REG_CHAR`. -/
def storeChar (m : Lser T) (n : ℕ) (ch : ℤ) : Lser T :=
  if m.sending = true then { m with lost := m.lost ++ [(n, ch)] }
  else { m with sending := true, sent := m.sent ++ [(n, ch)] }

/-- `spinlock_acquire` goes on only if nobody has the lock. -/
def acquire (a : T) (next : LserPc) (m : Lser T) : Option (LserPc × Lser T) :=
  if m.lock.isNone = true then some (next, { m with lock := some a }) else none

def release (next : LserPc) (m : Lser T) : Option (LserPc × Lser T) := some (next, { m with lock := none })

/-- The next statement of agent `a`. -/
def move (a : T) (pc : LserPc) (m : Lser T) : Option (LserPc × Lser T) :=
  match pc with
  | .out => none
  | .intrP n ch => if 0 < m.wsem then some (.writeAcquire n ch, { m with wsem := m.wsem - 1 }) else none
  | .writeAcquire n ch => m.acquire a (.writeTest n ch)
  | .writeTest n ch => if m.wbusy = true then some (pc, { m with panicked := true }) else some (.writeBusy n ch, m)
  | .writeBusy n ch => some (.writeChar n ch, { m with wbusy := true, writes := m.writes + 1 })
  | .writeChar n ch => some (.writeRelease, m.storeChar n ch)
  | .writeRelease => m.release .out
  | .pollAcquire n ch => m.acquire a (.pollTest n ch)
  | .pollTest n ch => some (if m.wbusy = true then .pollReady n ch else .pollMask n ch, m)
  | .pollReady n ch => some (if m.wirq.active = true then .pollForce n ch else pc, m)
  | .pollForce n ch => some (.pollChar n ch true, { m with wirq := .store (lserIrqForce ||| lserIrqEnable) })
  | .pollMask n ch => some (.pollChar n ch false, { m with wirq := .store 0 })
  | .pollChar n ch irqpending => some (.pollDone irqpending, m.storeChar n ch)
  | .pollDone irqpending =>
    if m.wirq.active = true then some (if irqpending = true then .pollRelease else .pollUnmask, m) else some (pc, m)
  | .pollUnmask => some (.pollRelease, { m with wirq := .store lserIrqEnable })
  | .pollRelease => m.release .out
  | .irqAcquire => m.acquire a .irqReadW
  | .irqReadW => some (if m.wirq.active = true then .irqClear else .irqReadR false, m)
  | .irqClear => some (.irqEnableW, { m with wbusy := false })
  | .irqEnableW => some (.irqReadR true, { m with wirq := .store lserIrqEnable })
  | .irqReadR ctw => some (if m.rirq.active = true then .irqGet ctw else .irqRelease ctw none, m)
  | .irqGet ctw => some (.irqEnableR ctw m.inchar, m)
  | .irqEnableR ctw ch => some (.irqRelease ctw (some ch), { m with rirq := .store lserIrqEnable })
  | .irqRelease ctw got => m.release (.irqStart ctw got)
  | .irqStart ctw got =>
    some (.irqInput got, if ctw = true then { m with wsem := m.wsem + 1, starts := m.starts + 1 } else m)
  | .irqInput got => some (.out, { m with input := m.input ++ got.toList })

end Lser

inductive LserEv (T : Type) where
  /-- `a` calls `putch`, which looks at the state of the thread and the CPU -/
  | putch (a : T) (ch : ℤ) (polled : Bool)
  /-- `lser_irq` is called -/
  | interrupt (a : T)
  | run (a : T)
  /-- the device has sent its character -/
  | done
  /-- the device has received a character -/
  | receive (ch : ℕ)

namespace Lser

variable {T : Type} [DecidableEq T]

def enter (s : Agents T LserPc (Lser T)) (a : T) (pc : LserPc) (m : Lser T) : Option (Agents T LserPc (Lser T)) :=
  if s.pc a = .out then some ⟨Function.update s.pc a pc, m⟩ else none

def step (s : Agents T LserPc (Lser T)) : LserEv T → Option (Agents T LserPc (Lser T))
  | .putch a ch polled =>
    enter s a (if polled = true then .pollAcquire s.mem.calls.length ch else .intrP s.mem.calls.length ch)
      { s.mem with calls := s.mem.calls ++ [ch] }
  | .interrupt a => enter s a .irqAcquire s.mem
  | .run a => s.run move a
  | .done =>
    if s.mem.sending = true then
      some { s with mem := { s.mem with sending := false, wirq := { s.mem.wirq with active := true } } }
    else none
  | .receive ch =>
    some { s with mem := { s.mem with inchar := ch, rirq := { s.mem.rirq with active := true } } }

end Lser

/-! ### What is to hold -/

namespace LserPc

/-- `lser_irq` has cleared `ls_wbusy` and has not called `con_start`. -/
def cleared : LserPc → Bool
  | .irqEnableW => true
  | .irqReadR ctw | .irqGet ctw | .irqEnableR ctw _ | .irqRelease ctw _ | .irqStart ctw _ => ctw
  | _ => false

/-- `putch_intr` is past `P`, and `lser_write` has not set `ls_wbusy`. -/
def claiming : LserPc → Bool
  | .writeAcquire _ _ | .writeTest _ _ | .writeBusy _ _ => true
  | _ => false

/-- The call of `putch` whose character has not been stored, and the character. -/
def unsent : LserPc → Option (ℕ × ℤ)
  | .intrP n ch | .writeAcquire n ch | .writeTest n ch | .writeBusy n ch | .writeChar n ch => some (n, ch)
  | .pollAcquire n ch | .pollTest n ch | .pollReady n ch | .pollForce n ch | .pollMask n ch => some (n, ch)
  | .pollChar n ch _ => some (n, ch)
  | _ => none

end LserPc

namespace Lser

variable {T : Type} [DecidableEq T] [Fintype T]

/-- The transmitter belongs to one party at a time, and each character goes out once: a call
of `putch` is among those sent exactly if it has come past its store. -/
structure Transmits (s : Agents T LserPc (Lser T)) : Prop where
  clear : s.mem.panicked = false
  lost : s.mem.lost = []
  once : (s.mem.sent.map Prod.fst).Nodup
  sent : ∀ n, n ∈ s.mem.sent.map Prod.fst ↔ n < s.mem.calls.length ∧ ∀ a ch, (s.pc a).unsent ≠ some (n, ch)
  char : ∀ n ch, (n, ch) ∈ s.mem.sent → s.mem.calls[n]? = some ch
  owner : s.mem.wsem + s.mem.wbusy.toNat + Agents.countAt LserPc.cleared s.pc + Agents.countAt LserPc.claiming s.pc = 1
  starts : s.mem.starts + s.mem.wbusy.toNat + Agents.countAt LserPc.cleared s.pc = s.mem.writes
  /-- while the device waits for `lser_irq`, it interrupts -/
  raised : s.mem.lock = none → s.mem.wbusy = true → s.mem.sending = false → s.mem.wirq.raised = true

end Lser

end Os161
