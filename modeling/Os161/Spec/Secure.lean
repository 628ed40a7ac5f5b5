import Os161.Lib.Bytes
import Os161.Lib.Op

/-! `common/libtest161/secure.c`: keyed hashes of messages, with a random salt added to the
key. Results and intermediate strings are built in four static buffers that are handed out in
turn, whatever size is asked for. `mbedtls_sha256` is some function of a string of bytes. -/

namespace Os161

/-- `NUM_BUFFERS` is 4. -/
abbrev TempBuffer := Fin 4

/-- `BUFFER_LEN` -/
def bufferLen : ℕ := 1024

/-- The static data, and the buffers that have been handed out, in order. -/
structure Secure where
  tempBuffers : TempBuffer → Bytes bufferLen
  bufNum : TempBuffer
  taken : List TempBuffer

/-- An access past the end of a buffer. -/
inductive SecureFault where
  | overrun (b : TempBuffer)
  deriving DecidableEq

abbrev SecureM := Op Secure SecureFault

/-- A pointer to bytes that the caller has, or to a buffer. -/
inductive SecurePtr where
  | outside (bytes : List UInt8)
  | temp (b : TempBuffer)

namespace Secure

/-- `_alloc`, which ignores the size and never returns `NULL`. -/
def alloc (_size : ℕ) : SecureM TempBuffer := do
  let s ← Op.get
  Op.set { s with bufNum := s.bufNum + 1, taken := s.taken ++ [s.bufNum] }
  pure s.bufNum

/-- Bytes are stored from `offset` on. -/
@[irreducible] def store (b : TempBuffer) (offset : ℕ) (bytes : List UInt8) : SecureM Unit := do
  let s ← Op.get
  if offset + bytes.length ≤ bufferLen then
    Op.set { s with tempBuffers := Function.update s.tempBuffers b ((s.tempBuffers b).splice offset bytes) }
  else Op.fail (.overrun b)

/-- The first `len` bytes. -/
@[irreducible] def load (p : SecurePtr) (len : ℕ) : SecureM (List UInt8) :=
  match p with
  | .outside bytes => pure (bytes.take len)
  | .temp b => do
    let s ← Op.get
    if len ≤ bufferLen then pure ((s.tempBuffers b).slice 0 len) else Op.fail (.overrun b)

/-- The bytes up to the first NUL, if there is one. -/
@[irreducible] def cString (bytes : List UInt8) : Option (List UInt8) :=
  if 0 ∈ bytes then some (bytes.takeWhile (· ≠ 0)) else none

/-- The string at a pointer. -/
def loadString (p : SecurePtr) : SecureM (List UInt8) :=
  match p with
  | .outside bytes => pure (bytes.takeWhile (· ≠ 0))
  | .temp b => do
    let s ← Op.get
    match cString (s.tempBuffers b).toList with
    | some bytes => pure bytes
    | none => Op.fail (.overrun b)

/-- `strcpy` into buffer `b` at `offset`. -/
def strcpy (b : TempBuffer) (offset : ℕ) (src : SecurePtr) : SecureM Unit := do
  let bytes ← loadString src
  store b offset (bytes ++ [0])

def toHex (n : ℕ) : UInt8 := if n < 10 then 48 + UInt8.ofNat n else 97 + UInt8.ofNat (n - 10)

/-- `array_to_hex` -/
@[irreducible] def arrayToHex (a : List UInt8) (res : TempBuffer) : SecureM Unit := do
  let j ← a.foldlM (fun j x => do
    store res j [toHex (x.toNat / 16)]
    store res (j + 1) [toHex (x.toNat % 16)]
    pure (j + 2)) 0
  store res j [0]

/-- The words of the salt as they lie in memory. -/
def saltBytes (salt : UInt32 × UInt32) : List UInt8 := toBe 4 salt.1.toNat ++ toBe 4 salt.2.toNat

/-- `make_salt`, where `random` gives the two words. -/
def makeSalt (salt : UInt32 × UInt32) (saltStr : TempBuffer) : SecureM Unit := arrayToHex (saltBytes salt) saltStr

section
variable (sha256 : List UInt8 → Bytes 32)

/-- `hmac_sha256`; the arrays on the stack are values here. -/
def hmacSha256 (msg : SecurePtr) (msgLen : ℕ) (key : SecurePtr) (keyLen : ℕ) : SecureM (Bytes 32) := do
  let bytes ← load key keyLen
  let k0 : Bytes 64 := Bytes.zero.splice 0 (if keyLen ≤ 64 then bytes else (sha256 bytes).toList)
  let kIpad : Bytes 64 := fun i => k0 i ^^^ 0x36
  let kOpad : Bytes 64 := fun i => k0 i ^^^ 0x5c
  let data ← alloc (msgLen + 64)
  store data 0 kIpad.toList
  let text ← load msg msgLen
  store data 64 text
  let hashed ← load (.temp data) (msgLen + 64)
  let h1 := sha256 hashed
  let inner : Bytes 96 := (Bytes.zero.splice 0 kOpad.toList).splice 64 h1.toList
  pure (sha256 inner.toList)

/-- `hmac`: the buffer with the hash. -/
def hmac (msg : SecurePtr) (msgLen : ℕ) (key : SecurePtr) (keyLen : ℕ) : SecureM TempBuffer := do
  let hashStr ← alloc 65
  let hash ← hmacSha256 sha256 msg msgLen key keyLen
  arrayToHex hash.toList hashStr
  pure hashStr

/-- `hmac_salted` up to the hash: the buffers with the salt and with the key and the salt. -/
def saltKey (salt : UInt32 × UInt32) (key : SecurePtr) (keyLen : ℕ) : SecureM (TempBuffer × TempBuffer) := do
  let saltStr ← alloc 17
  makeSalt salt saltStr
  let key2Len := keyLen + 16
  let key2 ← alloc (key2Len + 1)
  strcpy key2 0 key
  strcpy key2 keyLen (.temp saltStr)
  store key2 key2Len [0]
  pure (saltStr, key2)

/-- `hmac_salted`: the buffers with the hash and with the salt. -/
def hmacSalted (salt : UInt32 × UInt32) (msg : SecurePtr) (msgLen : ℕ) (key : SecurePtr) (keyLen : ℕ) :
    SecureM (TempBuffer × TempBuffer) := do
  let (saltStr, key2) ← saltKey salt key keyLen
  let hashStr ← hmac sha256 msg msgLen (.temp key2) (keyLen + 16)
  pure (hashStr, saltStr)

end

/-! ### What is to hold -/

/-- Two digits for each byte. -/
def hex (l : List UInt8) : List UInt8 := l.flatMap fun x => [toHex (x.toNat / 16), toHex (x.toNat % 16)]

/-- The string in a buffer. -/
def string (s : Secure) (b : TempBuffer) : List UInt8 := (s.tempBuffers b).toList.takeWhile (· ≠ 0)

/-- The key of the standard construction: one that is longer than a block of 64 bytes is
hashed, and it is filled up with zeros to a block. -/
def blockKey (sha256 : List UInt8 → Bytes 32) (key : List UInt8) : List UInt8 :=
  let k := if key.length ≤ 64 then key else (sha256 key).toList
  k ++ List.replicate (64 - k.length) 0

/-- HMAC over SHA-256. -/
def hmacStandard (sha256 : List UInt8 → Bytes 32) (key msg : List UInt8) : Bytes 32 :=
  sha256 ((blockKey sha256 key).map (· ^^^ 0x5c) ++ (sha256 ((blockKey sha256 key).map (· ^^^ 0x36) ++ msg)).toList)

/-- The key with its salt, and the message with its block, fit a buffer. -/
def Fits (key msg : List UInt8) : Prop := key.length ≤ 1007 ∧ msg.length ≤ 960

/-- `hmac_salted` returns the hash under the key and the salt, and that salt, and has used
four buffers, each within its length. -/
def SaltedHash (sha256 : List UInt8 → Bytes 32) (salt : UInt32 × UInt32) (msg key : List UInt8) (s : Secure) : Prop :=
  ∃ hashStr saltStr t, hmacSalted sha256 salt (.outside msg) msg.length (.outside (key ++ [0])) key.length s =
      .ok (hashStr, saltStr) t ∧
    t.string saltStr = hex (saltBytes salt) ∧
    t.string hashStr = hex (hmacStandard sha256 (key ++ t.string saltStr) msg).toList ∧
    ∃ buffers, t.taken = s.taken ++ buffers ∧ buffers.Nodup ∧ buffers.length = 4

end Secure

end Os161
