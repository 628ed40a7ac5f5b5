import Os161.Spec.Dumbvm

/-! `kern/vm/copyinout.c`: copies between user memory and a buffer of the kernel. A
fault that `vm_fault` cannot resolve goes to `tm_badfaultfunc`, which jumps back to
where the copy was started. Every access is written down, so that one can say what a
copy touches. -/

namespace Os161

inductive CopySide where
  | user
  | kernel
  deriving DecidableEq

/-- A pointer to either side. The kernel's buffers do not run into the end of memory. -/
structure CopyPtr where
  side : CopySide
  addr : ℕ

/-- The address of `p[i]`. -/
def CopyPtr.at (p : CopyPtr) (i : ℕ) : ℕ :=
  match p.side with
  | .user => (p.addr + i) % 4294967296
  | .kernel => p.addr + i

structure CopyMem where
  mem : CopySide → ℕ → UInt8
  /-- user addresses where an access cannot be resolved -/
  faults : ℕ → Bool
  /-- `tm_badfaultfunc` is `copyfail` -/
  badfault : Bool
  /-- the accesses, last first -/
  touched : List (CopySide × ℕ)

/-- What leaves a copy in the middle. -/
inductive Jump where
  /-- `longjmp` to `tm_copyjmp` -/
  | copyfail
  deriving DecidableEq

abbrev CopyM := Op CopyMem Jump

/-- An access to user memory may end in `copyfail`; without it the fault is fatal. -/
def access (p : CopyPtr) (i : ℕ) : CopyM Unit := do
  Op.modify fun m => { m with touched := (p.side, p.at i) :: m.touched }
  let m ← Op.get
  if p.side = .user ∧ m.faults (p.at i) = true then
    if m.badfault then Op.fail .copyfail else Op.panic
  else pure ()

/-- `p[i]`, for a pointer to bytes -/
def loadAt (p : CopyPtr) (i : ℕ) : CopyM UInt8 := do
  access p i
  let m ← Op.get
  pure (m.mem p.side (p.at i))

def storeAt (p : CopyPtr) (i : ℕ) (v : UInt8) : CopyM Unit := do
  access p i
  Op.modify fun m => { m with mem := Function.update m.mem p.side (Function.update (m.mem p.side) (p.at i) v) }

/-- `d[i] = s[i]` for elements of `width` bytes: all of them are read first. -/
def copyElement (dst src : CopyPtr) (width i : ℕ) : CopyM Unit := do
  let bytes ← (List.range width).foldlM (fun bytes k => do
    let v ← loadAt src (i * width + k)
    pure (bytes ++ [v])) []
  (List.range width).foldlM (fun _ k => storeAt dst (i * width + k) (bytes.getD k 0)) ()

/-- `memcpy` goes by words if everything is aligned, and by bytes if not. -/
def memcpy (dst src : CopyPtr) (len : ℕ) : CopyM Unit :=
  let width := if dst.addr % 4 = 0 ∧ src.addr % 4 = 0 ∧ len % 4 = 0 then 4 else 1
  (List.range (len / width)).foldlM (fun _ i => copyElement dst src width i) ()

/-- `copycheck`; the value is what it stores in `*stoplen`. -/
def copycheck (userptr len : UInt32) : Except Errno UInt32 :=
  let bot := userptr
  let top := bot + len - 1
  if top < bot then
    -- addresses wrapped around
    .error .efault
  else if userspacetop ≤ bot.toNat then .error .efault
  else if userspacetop ≤ top.toNat then .ok (UInt32.ofNat userspacetop - bot)
  else .ok len

/-- A copy between `setjmp` and the end of the function. -/
def guarded {α : Type} (x : CopyM α) : Op CopyMem Errno α := fun m =>
  match x { m with badfault := true } with
  | .ok a t => .ok a { t with badfault := false }
  | .err .copyfail t => .err .efault { t with badfault := false }
  | .panic => .panic

/-- The part that `copyin` and `copyout` share: `userptr` is the one of the two pointers
that is checked. -/
def copyBlock (userptr len : UInt32) (dst src : CopyPtr) : Op CopyMem Errno Unit :=
  match copycheck userptr len with
  | .error e => Op.fail e
  | .ok stoplen =>
    -- a single block cannot legally be truncated
    if stoplen ≠ len then Op.fail .efault else guarded (memcpy dst src len.toNat)

def copyin (usersrc : UInt32) (dest : ℕ) (len : UInt32) : Op CopyMem Errno Unit :=
  copyBlock usersrc len ⟨.kernel, dest⟩ ⟨.user, usersrc.toNat⟩

def copyout (src : ℕ) (userdest len : UInt32) : Op CopyMem Errno Unit :=
  copyBlock userdest len ⟨.user, userdest.toNat⟩ ⟨.kernel, src⟩

/-- The loop of `copystr` from index `i` on, with `n` bytes to the nearer limit; the
value is what goes to `*gotlen` if there is a terminator. -/
def copystrLoop (dest src : CopyPtr) : ℕ → ℕ → CopyM (Option ℕ)
  | _, 0 => pure none
  | i, n + 1 => do
    let c ← loadAt src i
    storeAt dest i c
    let c ← loadAt src i
    if c = 0 then pure (some (i + 1)) else copystrLoop dest src (i + 1) n

def copystr (dest src : CopyPtr) (maxlen stoplen : ℕ) : CopyM (Except Errno ℕ) := do
  match ← copystrLoop dest src 0 (min maxlen stoplen) with
  | some gotlen => pure (.ok gotlen)
  | none =>
    -- ran into the user-kernel boundary, or just out of space
    if stoplen < maxlen then pure (.error .efault) else pure (.error .enametoolong)

/-- The part that `copyinstr` and `copyoutstr` share; the value is what goes to `*actual`. -/
def copyString (userptr len : UInt32) (dest src : CopyPtr) : Op CopyMem Errno ℕ :=
  match copycheck userptr len with
  | .error e => Op.fail e
  | .ok stoplen => do
    match ← guarded (copystr dest src len.toNat stoplen.toNat) with
    | .ok actual => pure actual
    | .error e => Op.fail e

def copyinstr (usersrc : UInt32) (dest : ℕ) (len : UInt32) : Op CopyMem Errno ℕ :=
  copyString usersrc len ⟨.kernel, dest⟩ ⟨.user, usersrc.toNat⟩

def copyoutstr (src : ℕ) (userdest len : UInt32) : Op CopyMem Errno ℕ :=
  copyString userdest len ⟨.user, userdest.toNat⟩ ⟨.kernel, src⟩

/-! What the copies are to do. -/

/-- No byte of user space faults. -/
def CopyMem.Resident (m : CopyMem) : Prop := ∀ a < userspacetop, m.faults a = false

/-- Every byte of the region is below `USERSPACETOP`. -/
def InUserspace (addr len : UInt32) : Prop :=
  ∀ a, addr.toNat ≤ a → a < addr.toNat + len.toNat → a < userspacetop

/-- The access is to one of the first `n` bytes at `p`. -/
def CopyPtr.Covers (p : CopyPtr) (n : ℕ) (x : CopySide × ℕ) : Prop :=
  x.1 = p.side ∧ p.addr ≤ x.2 ∧ x.2 < p.addr + n

/-- Memory with the first `n` bytes at `src` also at `dst`. -/
def CopyMem.copied (m : CopyMem) (dst src : CopyPtr) (n : ℕ) : CopySide → ℕ → UInt8 := fun side a =>
  if side = dst.side ∧ dst.addr ≤ a ∧ a < dst.addr + n then m.mem src.side (src.addr + (a - dst.addr))
  else m.mem side a

/-- From `m` to `t` exactly `n` bytes were copied, and nothing else was touched. -/
structure CopyMem.Copied (m : CopyMem) (dst src : CopyPtr) (n : ℕ) (t : CopyMem) : Prop where
  mem : t.mem = m.copied dst src n
  faults : t.faults = m.faults
  touched : ∀ x, x ∈ t.touched ↔ x ∈ m.touched ∨ src.Covers n x ∨ dst.Covers n x

/-- A copy of one block: all of it if it lies in user space, and `EFAULT` with nothing
touched if not. -/
def CopiesBlock (addr len : UInt32) (dst src : CopyPtr) (x : Op CopyMem Errno Unit) (m : CopyMem) : Prop :=
  (InUserspace addr len → ∃ t, x m = .ok () t ∧ m.Copied dst src len.toNat t) ∧
  (¬ InUserspace addr len → x m = .err .efault m)

/-- What `copyin`, `copyout` and `copycheck` promise for one user region. -/
structure CopyExact (addr len : UInt32) (buf : ℕ) (m : CopyMem) : Prop where
  copyin : CopiesBlock addr len ⟨.kernel, buf⟩ ⟨.user, addr.toNat⟩ (copyin addr buf len) m
  copyout : CopiesBlock addr len ⟨.user, addr.toNat⟩ ⟨.kernel, buf⟩ (copyout buf addr len) m
  stoplen : ∀ stoplen, copycheck addr len = .ok stoplen → stoplen ≤ len ∧ (stoplen ≠ len ↔ ¬ InUserspace addr len)

/-- What `copyinstr` and `copyoutstr` promise: `addr` is the user address of the two. -/
structure CopiesString (addr len : UInt32) (dst src : CopyPtr) (x : Op CopyMem Errno ℕ) (m : CopyMem) : Prop where
  /-- the first terminator is at index `i` -/
  found : ∀ i < len.toNat, addr.toNat + i < userspacetop → m.mem src.side (src.addr + i) = 0 →
    (∀ j < i, m.mem src.side (src.addr + j) ≠ 0) → ∃ t, x m = .ok (i + 1) t ∧ m.Copied dst src (i + 1) t
  notFound : (∀ i < len.toNat, addr.toNat + i < userspacetop → m.mem src.side (src.addr + i) ≠ 0) →
    ∃ t, x m = .err (if userspacetop ≤ addr.toNat ∨ userspacetop - addr.toNat < len.toNat then .efault
      else .enametoolong) t
  /-- nothing is read or written behind the buffer or in the kernel's part of memory -/
  within : ∀ t, x.after m = some t → ∀ y ∈ t.touched,
    y ∈ m.touched ∨ (src.Covers len.toNat y ∨ dst.Covers len.toNat y) ∧ (y.1 = .user → y.2 < userspacetop)

end Os161
