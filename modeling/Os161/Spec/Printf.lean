import Os161.Lib.Op
import Mathlib.Data.List.DropRight

/-! The core of printf, `common/libc/printf/__printf.c`, and `snprintf.c` over it. `__vprintf`
goes through the format one character at a time and sends what it prints in pieces to a
function of its caller; `vsnprintf` stores them in a buffer. `int`, `long`, `size_t` and
pointers have 32 bits, `long long` 64. -/

namespace Os161

/-- A character of the source. -/
def byteOf (c : Char) : UInt8 := UInt8.ofNat c.toNat

def bytesOf (s : String) : List UInt8 := s.toList.map byteOf

/-- A value as an `int`. -/
def i32 (x : ℤ) : ℤ := x.bmod 4294967296

/-- The bytes of a string up to its NUL. -/
def cstr (l : List UInt8) : List UInt8 := l.takeWhile (· ≠ 0)

inductive PfSize where
  | int | long | llong | size
  deriving DecidableEq

/-- What `va_arg` is asked for. -/
inductive PfKind where
  | int | long | llong | size | pointer | string
  deriving DecidableEq

def PfSize.kind : PfSize → PfKind
  | .int => .int
  | .long => .long
  | .llong => .llong
  | .size => .size

/-- An argument; a string may be `NULL`. -/
inductive PfArg where
  | int (v : BitVec 32)
  | long (v : BitVec 32)
  | llong (v : BitVec 64)
  | size (v : BitVec 32)
  | pointer (v : BitVec 32)
  | string (s : Option (List UInt8))

namespace PfArg

def kind : PfArg → PfKind
  | .int _ => .int
  | .long _ => .long
  | .llong _ => .llong
  | .size _ => .size
  | .pointer _ => .pointer
  | .string _ => .string

/-- The value as a signed number. -/
def signed : PfArg → ℤ
  | .int v | .long v | .size v | .pointer v => v.toInt
  | .llong v => v.toInt
  | .string _ => 0

/-- The value as an unsigned number. -/
def unsigned : PfArg → ℕ
  | .int v | .long v | .size v | .pointer v => v.toNat
  | .llong v => v.toNat
  | .string _ => 0

def str : PfArg → Option (List UInt8)
  | .string s => s
  | _ => none

end PfArg

/-- `PF` without the function to send to, its data, and the count. -/
structure PfState where
  ap : List PfArg
  inPct : Bool
  size : PfSize
  num : ℕ
  sign : ℤ
  spacing : ℤ
  rightspc : Bool
  fillchar : UInt8
  base : ℕ
  baseprefix : Bool
  altformat : Bool

/-- `PF` -/
structure Pf (σ : Type) where
  clientdata : σ
  charcount : ℤ
  state : PfState

inductive PfFault where
  /-- the next argument is not of the type that is asked for -/
  | mismatch
  /-- a digit is stored before the start of the buffer -/
  | underrun
  deriving DecidableEq

namespace Printf

abbrev PfStateM := Op PfState PfFault

/-! ### The fields -/

/-- `__pf_endfield` -/
def pfEndfield : PfStateM Unit :=
  Op.modify fun st =>
    { st with inPct := false, size := .int, num := 0, sign := 0, spacing := 0, rightspc := false, fillchar := byteOf ' ',
              base := 0, baseprefix := false, altformat := false }

/-- `__pf_modifier` -/
def pfModifier (ch : UInt8) : PfStateM Unit :=
  if ch = byteOf '#' then Op.modify fun st => { st with altformat := true }
  else if ch = byteOf '-' then Op.modify fun st => { st with rightspc := true }
  else if ch = byteOf 'l' then Op.modify fun st => { st with size := if st.size = .long then .llong else .long }
  else if ch = byteOf 'z' then Op.modify fun st => { st with size := .size }
  else if ch = byteOf '0' then
    Op.modify fun st =>
      if 0 < st.spacing then { st with spacing := i32 (st.spacing * 10) } else { st with fillchar := byteOf '0' }
  else do
    Op.kassert (byteOf '0' < ch ∧ ch ≤ byteOf '9')
    Op.modify fun st => { st with spacing := i32 (st.spacing * 10 + (ch.toNat - (byteOf '0').toNat)) }

def vaArg (kind : PfKind) : PfStateM PfArg := do
  let st ← Op.get
  match st.ap with
  | a :: rest =>
    if a.kind = kind then do
      Op.set { st with ap := rest }
      pure a
    else Op.fail .mismatch
  | [] => Op.fail .mismatch

/-- `__pf_getnum`; the number is negated as a `long long`. -/
def pfGetnum (ch : UInt8) : PfStateM Unit := do
  if ch = byteOf 'p' then do
    let a ← vaArg .pointer
    Op.modify fun st => { st with num := a.unsigned }
  else do
    let st ← Op.get
    let a ← vaArg st.size.kind
    if ch = byteOf 'd' then
      if a.signed < 0 then Op.modify fun st => { st with sign := -1, num := (-a.signed % 18446744073709551616).toNat }
      else Op.modify fun st => { st with num := a.signed.toNat }
    else Op.modify fun st => { st with num := a.unsigned }

/-- The base of a conversion. -/
def baseOf (ch : UInt8) : ℕ :=
  if ch = byteOf 'd' ∨ ch = byteOf 'u' then 10 else if ch = byteOf 'x' ∨ ch = byteOf 'p' then 16 else 8

/-- `__pf_setbase` -/
def pfSetbase (ch : UInt8) : PfStateM Unit :=
  Op.modify fun st =>
    { st with base := baseOf ch, baseprefix := if st.altformat = true ∨ ch = byteOf 'p' then true else st.baseprefix }

/-! ### Printing -/

section
variable {σ : Type} (send : σ → List UInt8 → σ)

abbrev PfM (σ : Type) := Op (Pf σ) PfFault

def onState {α : Type} (x : PfStateM α) : PfM σ α := x.zoom Pf.state fun pf st => { pf with state := st }

/-- `__pf_print` -/
def pfPrint (txt : List UInt8) : PfM σ Unit :=
  Op.modify fun pf =>
    { pf with clientdata := send pf.clientdata txt, charcount := i32 (pf.charcount + txt.length) }

/-- `__pf_fill` -/
def pfFill (spc : ℤ) : PfM σ Unit := do
  let pf ← Op.get
  (List.range spc.toNat).foldlM (fun _ _ => pfPrint send [pf.state.fillchar]) ()

/-- The amount of padding. -/
def padding (spacing : ℤ) (len : ℤ) : ℤ := if len < spacing then i32 (spacing - len) else 0

/-- The padding at one of its three places. -/
def pfFillIf (here : Prop) [Decidable here] (spc : ℤ) : PfM σ Unit := if 0 < spc ∧ here then pfFill send spc else pure ()

/-- `__pf_printstuff` -/
def pfPrintstuff (pre pre2 stuff : List UInt8) : PfM σ Unit := do
  let st ← onState Op.get
  let spc := padding st.spacing (i32 (pre.length + pre2.length + stuff.length))
  pfFillIf send (st.rightspc = false ∧ st.fillchar ≠ byteOf '0') spc
  pfPrint send pre
  pfPrint send pre2
  pfFillIf send (st.rightspc = false ∧ st.fillchar = byteOf '0') spc
  pfPrint send stuff
  pfFillIf send (st.rightspc = true) spc

def digitChar (d : ℕ) : UInt8 := (bytesOf "0123456789abcdef").getD d 0

/-- `NUMBER_BUF_SIZE` -/
def numberBufSize : ℕ := 64 / 3 + 2

/-- The loop of `__pf_printnum`, with the room that is left before the digits. -/
def pfDigits (base : ℕ) : ℕ → ℕ → List UInt8 → Option (List UInt8)
  | 0, _, _ => none
  | room + 1, xnum, x =>
    let x := digitChar (xnum % base) :: x
    let xnum := xnum / base
    if 0 < xnum then pfDigits base room xnum x else some x

/-- `bprefix` -/
def basePrefix (st : PfState) : List UInt8 :=
  if st.baseprefix = true ∧ st.base = 16 then bytesOf "0x"
  else if st.baseprefix = true ∧ st.base = 8 then bytesOf "0"
  else []

/-- `sprefix` -/
def signPrefix (st : PfState) : List UInt8 := if st.sign ≠ 0 then bytesOf "-" else []

/-- `__pf_printnum`; the last byte of the buffer is the NUL. -/
def pfPrintnum : PfM σ Unit := do
  let st ← onState Op.get
  match pfDigits st.base (numberBufSize - 1) st.num [] with
  | some x => pfPrintstuff send (signPrefix st) (basePrefix st) x
  | none => Op.fail .underrun

def modifierChars : List UInt8 := bytesOf "#-lz0123456789"

def integerChars : List UInt8 := bytesOf "doupx"

/-- The character that `%c` prints; any other prints itself. -/
def pfChar (ch : UInt8) : PfM σ UInt8 :=
  if ch = byteOf 'c' then do
    let a ← onState (vaArg .int)
    pure (UInt8.ofInt a.signed)
  else pure ch

/-- `__pf_send` -/
def pfSend (ch : UInt8) : PfM σ Unit := do
  Op.kassert (ch ≠ 0)
  let st ← onState Op.get
  if st.inPct = false ∧ ch ≠ byteOf '%' then pfPrint send [ch]
  else if st.inPct = false then onState (Op.modify fun st => { st with inPct := true })
  else if ch ∈ modifierChars then onState (pfModifier ch)
  else if ch ∈ integerChars then do
    onState (pfGetnum ch)
    onState (pfSetbase ch)
    pfPrintnum send
    onState pfEndfield
  else if ch = byteOf 's' then do
    let a ← onState (vaArg .string)
    pfPrintstuff send [] [] (cstr (a.str.getD (bytesOf "(null)")))
    onState pfEndfield
  else do
    let x ← pfChar ch
    pfPrintstuff send [] [] (cstr [x])
    onState pfEndfield

/-- The state after `__pf_endfield` at the start. -/
def pfStart (clientdata : σ) (ap : List PfArg) : Pf σ :=
  ⟨clientdata, 0, ⟨ap, false, .int, 0, 0, 0, false, byteOf ' ', 0, false, false⟩⟩

/-- `__vprintf`: the count, with the client's data at the end. -/
def vprintf (clientdata : σ) (format : List UInt8) (ap : List PfArg) : Res (Pf σ) PfFault ℤ :=
  (do
    (cstr format).foldlM (fun _ ch => pfSend send ch) ()
    let pf ← Op.get
    pure pf.charcount : PfM σ ℤ) (pfStart clientdata ap)

end

/-! ### `snprintf.c` -/

/-- `SNP`, with the memory from `buf` on. -/
structure Snp where
  buf : ℕ → UInt8
  buflen : ℕ
  bufpos : ℕ

/-- `__snprintf_send` -/
def snprintfSend (snp : Snp) (data : List UInt8) : Snp :=
  data.foldl (fun snp c =>
    if snp.bufpos < snp.buflen then { snp with buf := Function.update snp.buf snp.bufpos c, bufpos := snp.bufpos + 1 }
    else snp) snp

/-- `vsnprintf`: the number that is returned, and the memory from `buf` on. -/
def vsnprintf (buf : ℕ → UInt8) (len : ℕ) (fmt : List UInt8) (ap : List PfArg) : Option (ℤ × (ℕ → UInt8)) :=
  match vprintf snprintfSend ⟨buf, if len = 0 then 0 else len - 1, 0⟩ fmt ap with
  | .ok chars pf =>
    some (chars, if 0 < len then Function.update pf.clientdata.buf pf.clientdata.bufpos 0 else pf.clientdata.buf)
  | .err _ _ => none
  | .panic => none

/-! ### Formats and arguments that match -/

/-- `size` after a modifier. -/
def sizeAfter (sz : PfSize) (ch : UInt8) : PfSize :=
  if ch = byteOf 'l' then (if sz = .long then .llong else .long) else if ch = byteOf 'z' then .size else sz

/-- The argument of a conversion of an integer. -/
def integerKind (sz : PfSize) (ch : UInt8) : PfKind := if ch = byteOf 'p' then .pointer else sz.kind

/-- The arguments that a format asks for, outside of a field or in one (`some`). -/
def wanted : Option PfSize → List UInt8 → List PfKind
  | _, [] => []
  | none, ch :: rest => if ch = byteOf '%' then wanted (some .int) rest else wanted none rest
  | some sz, ch :: rest =>
    if ch ∈ modifierChars then wanted (some (sizeAfter sz ch)) rest
    else if ch ∈ integerChars then integerKind sz ch :: wanted none rest
    else if ch = byteOf 's' then .string :: wanted none rest
    else if ch = byteOf 'c' then .int :: wanted none rest
    else wanted none rest

/-- The arguments are of the types that the format asks for; there may be more of them. -/
def Matches (fmt : List UInt8) (ap : List PfArg) : Prop := wanted none (cstr fmt) <+: ap.map PfArg.kind

instance (fmt : List UInt8) (ap : List PfArg) : Decidable (Matches fmt ap) := inferInstanceAs (Decidable (_ <+: _))

/-- The receiver that keeps the pieces. -/
def keep (l : List (List UInt8)) (txt : List UInt8) : List (List UInt8) := l ++ [txt]

/-- What is sent, piece by piece. -/
def pieces (fmt : List UInt8) (ap : List PfArg) : Option (List (List UInt8)) :=
  match vprintf keep [] fmt ap with
  | .ok _ pf => some pf.clientdata
  | .err _ _ => none
  | .panic => none

/-- What `vsnprintf` leaves in memory for the characters `text`. -/
def printed (buf : ℕ → UInt8) (len : ℕ) (text : List UInt8) : ℕ → UInt8 := fun i =>
  if len = 0 then buf i
  else if i < min (len - 1) text.length then text.getD i 0
  else if i = min (len - 1) text.length then 0
  else buf i

/-- There is one sequence of pieces, whoever it is sent to, and if it comes to fewer than
2^31 characters, `vsnprintf` returns that number and leaves what fits of it in its buffer. -/
def PrintsAlike (fmt : List UInt8) (ap : List PfArg) : Prop :=
  ∃ l, pieces fmt ap = some l ∧
    (∀ (σ : Type) (send : σ → List UInt8 → σ) (client : σ),
      ∃ n pf, vprintf send client fmt ap = .ok n pf ∧ pf.clientdata = l.foldl send client) ∧
    (l.flatten.length < 2147483648 → ∀ (buf : ℕ → UInt8) (len : ℕ),
      vsnprintf buf len fmt ap = some ((l.flatten.length : ℤ), printed buf len l.flatten))

/-! ### A field with an integer -/

def fieldFormat (mods : List UInt8) (conv : UInt8) : List UInt8 := byteOf '%' :: mods ++ [conv]

/-- The digits among the modifiers. -/
def widthDigits (mods : List UInt8) : List UInt8 := mods.filter fun ch => byteOf '0' ≤ ch ∧ ch ≤ byteOf '9'

def fieldWidth (mods : List UInt8) : ℕ := (widthDigits mods).foldl (fun w ch => w * 10 + (ch.toNat - 48)) 0

def fieldSize (mods : List UInt8) : PfSize := mods.foldl sizeAfter .int

/-- The field is to be filled with zeros. -/
def ZeroFilled (mods : List UInt8) : Prop := (widthDigits mods).head? = some (byteOf '0')

/-- The value of the argument of a conversion. -/
def argValue (conv : UInt8) (a : PfArg) : ℤ := if conv = byteOf 'd' then a.signed else a.unsigned

/-- The length of the base prefix. -/
def prefixLength (mods : List UInt8) (conv : UInt8) : ℕ :=
  if byteOf '#' ∈ mods ∨ conv = byteOf 'p' then (if baseOf conv = 16 then 2 else if baseOf conv = 8 then 1 else 0) else 0

/-- The length of the number with its sign and its prefix. -/
def numberLength (mods : List UInt8) (conv : UInt8) (a : PfArg) : ℕ :=
  (if argValue conv a < 0 then 1 else 0) + prefixLength mods conv +
    max 1 (Nat.digits (baseOf conv) (argValue conv a).natAbs).length

/-- The value of a digit. -/
def digitValue (base : ℕ) (ch : UInt8) : Option ℕ :=
  let d := if byteOf '0' ≤ ch ∧ ch ≤ byteOf '9' then ch.toNat - 48 else if byteOf 'a' ≤ ch then ch.toNat - 87 else base
  if d < base then some d else none

/-- A number as it is written, with at least one digit. -/
def readDigits (base : ℕ) (l : List UInt8) : Option ℕ :=
  if l = [] then none else l.foldlM (fun n ch => (digitValue base ch).map (n * base + ·)) 0

/-- A number in hexadecimal may have a prefix; in octal the prefix is a digit. -/
def dropPrefix (base : ℕ) (l : List UInt8) : List UInt8 := if base = 16 ∧ bytesOf "0x" <+: l then l.drop 2 else l

/-- The blanks on both sides are dropped, then there may be a sign. -/
def readBack (base : ℕ) (text : List UInt8) : Option ℤ :=
  let l := (text.dropWhile (· = byteOf ' ')).rdropWhile (· = byteOf ' ')
  if l.head? = some (byteOf '-') then (readDigits base (dropPrefix base l.tail)).map fun n : ℕ => -(n : ℤ)
  else (readDigits base (dropPrefix base l)).map fun n : ℕ => (n : ℤ)

/-- The field is printed, reads back as the value of its argument, and is wide enough. -/
def FieldReads (mods : List UInt8) (conv : UInt8) (a : PfArg) : Prop :=
  ∃ l, pieces (fieldFormat mods conv) [a] = some l ∧ readBack (baseOf conv) l.flatten = some (argValue conv a) ∧
    fieldWidth mods ≤ l.flatten.length

/-- A number that is filled with zeros on its right. -/
def RightZeros (mods : List UInt8) (conv : UInt8) (a : PfArg) : Prop :=
  byteOf '-' ∈ mods ∧ ZeroFilled mods ∧ numberLength mods conv a < fieldWidth mods ∧ argValue conv a ≠ 0

end Printf

end Os161
