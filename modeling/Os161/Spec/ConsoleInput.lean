import Os161.Lib.Ring
import Os161.Lib.Run

/-! The input side of the console, `kern/dev/generic/console.c`: `con_input`, which the
interrupt handler calls, and `getch_intr`, which one thread calls, one statement a step. The
reader takes the semaphore before it looks at the buffer, and moves the tail after that.
`kgets` reads a line with it. -/

namespace Os161

/-- `CONSOLE_INPUT_BUFFER_SIZE` -/
def consoleInputBufferSize : ℕ := 32

/-- Where a call of `con_input` is. -/
inductive InputPc where
  /-- no call -/
  | out
  /-- about to compute `nexthead` -/
  | entered (ch : ℤ)
  /-- about to compare `nexthead` with the tail -/
  | test (ch : ℤ) (nexthead : ℕ)
  /-- about to store the character -/
  | store (ch : ℤ) (nexthead : ℕ)
  /-- about to move the head -/
  | advance (ch : ℤ) (nexthead : ℕ)
  /-- about to call `V` -/
  | signal
  deriving DecidableEq

/-- Where a call of `getch` is. -/
inductive GetchPc where
  | out
  /-- in `P`, has not got the semaphore -/
  | wait
  /-- past `P`, about to read the slot at the tail -/
  | take
  /-- about to move the tail -/
  | advance (ret : UInt8)
  /-- about to return -/
  | leave (ret : UInt8)
  deriving DecidableEq

/-- A call of `con_input` that has come to its test. -/
structure InputCall where
  ch : ℤ
  /-- how many characters were in the buffer -/
  unread : ℕ
  dropped : Bool
  deriving DecidableEq

/-- The fields of `struct con_softc` for input, and where the two parties are. -/
structure ConInput where
  /-- the count of `cs_rsem` -/
  rsem : ℕ
  gotchars : ℕ → UInt8
  head : ℕ
  tail : ℕ
  handler : InputPc
  reader : GetchPc
  /-- the calls of `con_input` up to their test, in order -/
  calls : List InputCall
  /-- what `getch` has returned, in order -/
  returned : List UInt8
  /-- whether a slot has been written since it was last read -/
  fresh : ℕ → Bool

/-- After the configuration the slots hold anything. -/
def ConInput.config (gotchars : ℕ → UInt8) : ConInput where
  rsem := 0
  gotchars := gotchars
  head := 0
  tail := 0
  handler := .out
  reader := .out
  calls := []
  returned := []
  fresh _ := false

namespace ConInput

/-- The next statement of `con_input`. -/
def handlerStep (s : ConInput) : Option ConInput :=
  match s.handler with
  | .out => none
  | .entered ch => some { s with handler := .test ch (Ring.next consoleInputBufferSize s.head) }
  | .test ch nexthead =>
    let call : InputCall := ⟨ch, Ring.size consoleInputBufferSize s.head s.tail, nexthead = s.tail⟩
    some { s with
      calls := s.calls ++ [call]
      handler := if nexthead = s.tail then .out else .store ch nexthead }
  | .store ch nexthead =>
    some { s with
      gotchars := Function.update s.gotchars s.head (UInt8.ofInt ch)
      fresh := Function.update s.fresh s.head true
      handler := .advance ch nexthead }
  | .advance _ nexthead => some { s with head := nexthead, handler := .signal }
  | .signal => some { s with rsem := s.rsem + 1, handler := .out }

/-- The next statement of `getch_intr`; in `P` the thread goes on only if the semaphore can
be taken. -/
def readerStep (s : ConInput) : Option ConInput :=
  match s.reader with
  | .out => none
  | .wait => if 0 < s.rsem then some { s with rsem := s.rsem - 1, reader := .take } else none
  | .take =>
    some { s with
      fresh := Function.update s.fresh s.tail false
      reader := .advance (s.gotchars s.tail) }
  | .advance ret => some { s with tail := Ring.next consoleInputBufferSize s.tail, reader := .leave ret }
  | .leave ret => some { s with returned := s.returned ++ [ret], reader := .out }

end ConInput

inductive ConInputEv where
  /-- the interrupt handler calls `con_input`, outside of any other call -/
  | input (ch : ℤ)
  | handler
  /-- the reading thread calls `getch` -/
  | getch
  | reader

def ConInput.step (s : ConInput) : ConInputEv → Option ConInput
  | .input ch => if s.handler = .out then some { s with handler := .entered ch } else none
  | .handler => s.handlerStep
  | .getch => if s.reader = .out then some { s with reader := .wait } else none
  | .reader => s.readerStep

/-! ### What is to hold -/

namespace ConInput

/-- The characters passed to `con_input`, without those that were dropped. -/
def accepted (s : ConInput) : List UInt8 := (s.calls.filter fun c => !c.dropped).map fun c => UInt8.ofInt c.ch

def unread (s : ConInput) : ℕ := Ring.size consoleInputBufferSize s.head s.tail

/-- The characters that have been passed in and not returned: the one that `getch` is about
to return, those from the tail to the head, and the one that `con_input` has not put before
the head yet. -/
def underway (s : ConInput) : List UInt8 :=
  (match s.reader with | .leave ret => [ret] | _ => []) ++
    Ring.contents consoleInputBufferSize s.gotchars s.tail s.unread ++
    (match s.handler with | .store ch _ | .advance ch _ => [UInt8.ofInt ch] | _ => [])

/-- The reads that have passed `P` and not moved the tail. -/
def passedP (s : ConInput) : ℕ :=
  match s.reader with | .take | .advance _ => 1 | _ => 0

/-- The inputs that have moved the head and not done `V`. -/
def beforeV (s : ConInput) : ℕ :=
  match s.handler with | .signal => 1 | _ => 0

structure Orderly (s : ConInput) : Prop where
  order : s.accepted = s.returned ++ s.underway
  dropped : ∀ c ∈ s.calls, c.dropped = true ↔ c.unread + 1 = consoleInputBufferSize
  written : s.reader = .take → s.fresh s.tail = true
  count : s.rsem + s.passedP + s.beforeV = (s.head + consoleInputBufferSize - s.tail) % consoleInputBufferSize

end ConInput

/-! ### `kgets` -/

/-- The row of a terminal with the cursor: what is before it, the nearest first, and after it. -/
structure Terminal where
  before : List ℕ
  after : List ℕ

/-- What the terminal does with a character. A backspace only moves the cursor. -/
def Terminal.putch (t : Terminal) (ch : ℕ) : Terminal :=
  if ch = 8 then ⟨t.before.tail, t.before.take 1 ++ t.after⟩
  else if ch = 10 then ⟨[], []⟩
  else ⟨ch :: t.before, t.after.tail⟩

def Terminal.Shows (t : Terminal) (l : List ℕ) : Prop := t.before = l ∧ ∀ c ∈ t.after, c = 32

/-- `kgets` at a `getch`, or after it returned; `buf` has the characters below `pos`, the last first. -/
structure Kgets where
  buf : List ℕ
  term : Terminal
  returned : Bool

namespace Kgets

def out (s : Kgets) (l buf : List ℕ) : Kgets := { s with buf := buf, term := l.foldl Terminal.putch s.term }

def backsp : List ℕ := [8, 32, 8]

/-- The loops that erase while the last character is such a one. -/
def erase (p : ℕ → Bool) : List ℕ → Kgets → Kgets
  | [], s => s
  | c :: buf, s => if p c = true then erase p buf (s.out backsp buf) else s

/-- A turn of the loop with the character that `getch` returns. -/
def step (maxlen : ℕ) (s : Kgets) (ch : ℕ) : Option Kgets :=
  if s.returned = true then none
  else if ch = 10 ∨ ch = 13 then some { s.out [10] s.buf with returned := true }
  else if 32 ≤ ch ∧ ch < 127 ∧ s.buf.length < (maxlen + 4294967295) % 4294967296 then some (s.out [ch] (ch :: s.buf))
  else if (ch = 8 ∨ ch = 127) ∧ s.buf ≠ [] then some (s.out backsp s.buf.tail)
  else if ch = 3 then some { s.out [94, 67, 10] [] with returned := true }
  else if ch = 18 then some (s.out ([94, 82, 10] ++ (s.buf.reverse ++ [0]).takeWhile (· ≠ 0)) s.buf)
  else if ch = 21 then some (erase (fun _ => true) s.buf s)
  else if ch = 23 then
    let s := erase (· = 32) s.buf s
    some (erase (· ≠ 32) s.buf s)
  -- `beep` does not write to the terminal
  else some s

/-- The line and a null fit into the buffer, it is text, and the terminal shows it, behind the
prompt unless it was printed again. -/
structure Right (maxlen : ℕ) (prompt : List ℕ) (s : Kgets) : Prop where
  fits : s.buf.length < maxlen
  text : ∀ c ∈ s.buf, 32 ≤ c ∧ c < 127
  shown : s.returned = false → s.term.Shows (s.buf ++ prompt) ∨ s.term.Shows s.buf

end Kgets

end Os161
