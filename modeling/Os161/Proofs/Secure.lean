import Os161.Spec.Secure

/-! The salted hash is right as long as the key with its salt and the message with its block
fit the buffers. -/

namespace Os161

open Op

namespace Secure

variable {s t : Secure} {b b' : TempBuffer} {l l' bytes : List UInt8} {sha256 : List UInt8 → Bytes 32}

/-! ### What a buffer begins with -/

def Begins (s : Secure) (b : TempBuffer) (l : List UInt8) : Prop :=
  l.length ≤ bufferLen ∧ (s.tempBuffers b).slice 0 l.length = l

/-- The state after a store. -/
def stored (s : Secure) (b : TempBuffer) (offset : ℕ) (bytes : List UInt8) : Secure :=
  { s with tempBuffers := Function.update s.tempBuffers b ((s.tempBuffers b).splice offset bytes) }

theorem stored_same (s : Secure) (b : TempBuffer) (offset : ℕ) (bytes : List UInt8) :
    (s.stored b offset bytes).tempBuffers b = (s.tempBuffers b).splice offset bytes := Function.update_self ..

theorem stored_other (s : Secure) (hne : b ≠ b') (offset : ℕ) (bytes : List UInt8) :
    (s.stored b' offset bytes).tempBuffers b = s.tempBuffers b := Function.update_of_ne hne ..

theorem begins_nil (s : Secure) (b : TempBuffer) : s.Begins b [] := ⟨Nat.zero_le _, rfl⟩

theorem Begins.init (h : s.Begins b (l ++ l')) : s.Begins b l := by
  obtain ⟨hlen, hslice⟩ := h
  rw [List.length_append] at hlen hslice
  rw [Bytes.slice_append] at hslice
  exact ⟨by omega, (List.append_inj hslice (by simp)).1⟩

theorem Begins.stored (h : s.Begins b l) (hroom : l.length + bytes.length ≤ bufferLen) :
    (s.stored b l.length bytes).Begins b (l ++ bytes) := by
  refine ⟨by rwa [List.length_append], ?_⟩
  rw [stored_same, List.length_append, Bytes.slice_append, Nat.zero_add,
    Bytes.slice_splice_same _ hroom, Bytes.slice_splice_of_disjoint _ (Or.inl (Nat.zero_add _).le), h.2]

theorem takeWhile_ne_zero (h : 0 ∉ l) : (l ++ 0 :: l').takeWhile (· ≠ 0) = l := by
  have hl : ∀ x ∈ l, decide (x ≠ 0) = true := fun x hx => decide_eq_true fun h0 => h (h0 ▸ hx)
  rw [List.takeWhile_append_of_pos hl]
  simp

/-- All of a buffer that begins with a string. -/
theorem Begins.toList (h : s.Begins b l) : ∃ rest, (s.tempBuffers b).toList = l ++ rest := by
  obtain ⟨k, hk⟩ := Nat.exists_eq_add_of_le h.1
  have hsplit := Bytes.slice_append (s.tempBuffers b) 0 l.length k
  rw [h.2, ← hk] at hsplit
  exact ⟨_, hsplit⟩

theorem Begins.zero_mem (h : s.Begins b (l ++ [0])) : 0 ∈ (s.tempBuffers b).toList := by
  obtain ⟨rest, hrest⟩ := h.toList
  rw [hrest]
  simp

theorem Begins.string (h : s.Begins b (l ++ [0])) (hl : 0 ∉ l) : s.string b = l := by
  obtain ⟨rest, hrest⟩ := h.toList
  rw [Secure.string, hrest, List.append_assoc]
  exact takeWhile_ne_zero hl

/-! ### The accesses -/

variable {c : Prop} {E : SecureFault → Secure → Prop}

theorem store_wp {offset : ℕ} {Q : Unit → Secure → Prop} (hok : offset + bytes.length ≤ bufferLen → Q () (s.stored b offset bytes))
    (herr : ¬ offset + bytes.length ≤ bufferLen → E (.overrun b) s) : (store b offset bytes).wp c Q E s := by
  rw [store, wp_bind, wp_get, wp_ite]
  exact ⟨hok, herr⟩

theorem load_temp_wp {Q : List UInt8 → Secure → Prop} (h : s.Begins b l) (hok : Q l s) : (load (.temp b) l.length).wp c Q E s := by
  rw [load, wp_bind, wp_get, wp_ite, wp_pure, h.2]
  exact ⟨fun _ => hok, fun hno => absurd h.1 hno⟩

theorem loadString_temp_wp {Q : List UInt8 → Secure → Prop} (h : s.Begins b (l ++ [0])) (hl : 0 ∉ l) (hok : Q l s) :
    (loadString (.temp b)).wp c Q E s := by
  have hstring : cString (s.tempBuffers b).toList = some l := by
    rw [cString, if_pos h.zero_mem, ← h.string hl]
    rfl
  rw [loadString, wp_bind, wp_get, hstring]
  exact hok

/-! ### Digits -/

theorem hex_append (l l' : List UInt8) : hex (l ++ l') = hex l ++ hex l' := List.flatMap_append

theorem length_hex (l : List UInt8) : (hex l).length = 2 * l.length := by
  induction l with
  | nil => rfl
  | cons x rest ih =>
    have hcons : hex (x :: rest) = toHex (x.toNat / 16) :: toHex (x.toNat % 16) :: hex rest := rfl
    rw [hcons, List.length_cons, List.length_cons, ih, List.length_cons]
    omega

theorem toHex_ne_zero : ∀ n < 16, toHex n ≠ 0 := by decide

theorem zero_notMem_hex (l : List UInt8) : 0 ∉ hex l := by
  intro h
  obtain ⟨x, -, hx⟩ := List.mem_flatMap.mp h
  have hlt := x.toNat_lt
  rcases List.mem_cons.mp hx with h0 | hx
  · exact toHex_ne_zero _ (by omega) h0.symm
  · exact toHex_ne_zero _ (by omega) (List.mem_singleton.mp hx).symm

/-! ### `array_to_hex` and `make_salt` -/

/-- Nothing but buffer `b` has changed. -/
structure OnlyIn (b : TempBuffer) (s t : Secure) : Prop where
  other : ∀ b', b' ≠ b → t.tempBuffers b' = s.tempBuffers b'
  bufNum : t.bufNum = s.bufNum
  taken : t.taken = s.taken

theorem OnlyIn.refl (b : TempBuffer) (s : Secure) : OnlyIn b s s := ⟨fun _ _ => rfl, rfl, rfl⟩

theorem OnlyIn.stored (h : OnlyIn b s t) (offset : ℕ) (bytes : List UInt8) : OnlyIn b s (t.stored b offset bytes) :=
  ⟨fun _ hne => (stored_other t hne _ _).trans (h.other _ hne), h.bufNum, h.taken⟩

theorem Begins.of_only (h : s.Begins b l) (honly : OnlyIn b' s t) (hne : b ≠ b') : t.Begins b l :=
  ⟨h.1, by rw [honly.other b hne]; exact h.2⟩

/-- A store behind what the buffer begins with. -/
theorem store_next_wp {Q : Unit → Secure → Prop} {offset : ℕ} (h : s.Begins b l) (hoffset : offset = l.length)
    (hroom : l.length + bytes.length ≤ bufferLen)
    (hQ : (s.stored b offset bytes).Begins b (l ++ bytes) → Q () (s.stored b offset bytes)) :
    (store b offset bytes).wp c Q E s := by
  subst hoffset
  exact store_wp (fun _ => hQ (h.stored hroom)) fun hno => absurd hroom hno

/-- The loop stores two digits for each byte. -/
theorem arrayToHex_wp {a : List UInt8} {Q : Unit → Secure → Prop} (hroom : 2 * a.length + 1 ≤ bufferLen)
    (hQ : ∀ t, t.Begins b (hex a ++ [0]) → OnlyIn b s t → Q () t) : (arrayToHex a b).wp c Q E s := by
  rw [arrayToHex, wp_bind]
  apply wp_foldlM fun rest j u => ∃ front, a = front ++ rest ∧ j = (hex front).length ∧ u.Begins b (hex front) ∧ OnlyIn b s u
  · rintro x rest j u ⟨front, hsplit, hj, hbegins, honly⟩
    have hlen : (hex front).length + 2 ≤ bufferLen := by
      rw [hsplit, List.length_append, List.length_cons] at hroom
      rw [length_hex]
      omega
    have hhex : hex (front ++ [x]) = hex front ++ [toHex (x.toNat / 16)] ++ [toHex (x.toNat % 16)] := by
      rw [hex_append, List.append_assoc]
      rfl
    rw [wp_bind]
    refine store_next_wp hbegins hj (by rw [List.length_singleton]; omega) fun hfirst => ?_
    rw [wp_bind]
    refine store_next_wp hfirst (by simp [hj]) (by simp only [List.length_append, List.length_singleton]; omega) fun hsecond => ?_
    rw [wp_pure]
    refine ⟨front ++ [x], by rw [hsplit, List.append_assoc]; rfl, ?_, ?_, (honly.stored _ _).stored _ _⟩
    · rw [hhex, hj]
      simp
    · rw [hhex]
      exact hsecond
  · rintro j u ⟨front, hsplit, hj, hbegins, honly⟩
    rw [List.append_nil] at hsplit
    subst hsplit
    have hlen := length_hex a
    exact store_next_wp hbegins hj (by rw [List.length_singleton]; omega) fun hend => hQ _ hend (honly.stored _ _)
  · exact ⟨[], rfl, rfl, begins_nil s b, OnlyIn.refl b s⟩

/-! ### `hmac_sha256` -/

/-- A key that does not fit a block is hashed. -/
theorem length_short (sha256 : List UInt8 → Bytes 32) (key : List UInt8) :
    (if key.length ≤ 64 then key else (sha256 key).toList).length ≤ 64 := by
  split_ifs with h
  · exact h
  · rw [Bytes.length_toList]
    decide

/-- The padded key of the code is the one of the standard. -/
theorem toList_pad (sha256 : List UInt8 → Bytes 32) (key : List UInt8) (x : UInt8) :
    Bytes.toList (fun i => (Bytes.zero.splice 0 (if key.length ≤ 64 then key else (sha256 key).toList) : Bytes 64) i ^^^ x) =
      (blockKey sha256 key).map (· ^^^ x) :=
  (Bytes.toList_map (· ^^^ x) _).trans (congrArg (List.map (· ^^^ x)) (Bytes.toList_ofList_pad (length_short sha256 key)))

theorem length_blockKey (sha256 : List UInt8 → Bytes 32) (key : List UInt8) : (blockKey sha256 key).length = 64 := by
  have hshort := length_short sha256 key
  rw [blockKey, List.length_append, List.length_replicate]
  omega

/-- The block and the inner hash, one behind the other. -/
theorem toList_inner {k h : List UInt8} (hk : k.length = 64) (hh : h.length = 32) :
    ((Bytes.zero.splice 0 k).splice 64 h : Bytes 96).toList = k ++ h := by
  have hsplit := Bytes.slice_append ((Bytes.zero.splice 0 k).splice 64 h : Bytes 96) 0 64 32
  have hfirst := Bytes.slice_splice_same (Bytes.zero : Bytes 96) (o := 0) (l := k) (by omega)
  have hsecond := Bytes.slice_splice_same (Bytes.zero.splice 0 k : Bytes 96) (o := 64) (l := h) (by omega)
  rw [hk] at hfirst
  rw [hh] at hsecond
  have hbefore : ((Bytes.zero.splice 0 k).splice 64 h : Bytes 96).slice 0 64 = (Bytes.zero.splice 0 k : Bytes 96).slice 0 64 :=
    Bytes.slice_splice_of_disjoint _ (Or.inl (by decide))
  rw [hbefore, hfirst, Nat.zero_add, hsecond] at hsplit
  exact hsplit

/-- The next buffer is taken, and nothing but it has changed. -/
structure TookOne (s t : Secure) : Prop where
  other : ∀ b', b' ≠ s.bufNum → t.tempBuffers b' = s.tempBuffers b'
  bufNum : t.bufNum = s.bufNum + 1
  taken : t.taken = s.taken ++ [s.bufNum]

theorem alloc_wp {size : ℕ} {Q : TempBuffer → Secure → Prop}
    (hQ : ∀ t, t.tempBuffers = s.tempBuffers → TookOne s t → Q s.bufNum t) : (alloc size).wp c Q E s := by
  rw [alloc, wp_bind, wp_get, wp_bind, wp_set, wp_pure]
  exact hQ _ rfl ⟨fun _ _ => rfl, rfl, rfl⟩

theorem Begins.of_eq (h : s.Begins b l) (hbuffers : t.tempBuffers = s.tempBuffers) : t.Begins b l := by
  unfold Begins
  rw [hbuffers]
  exact h

theorem hmacSha256_wp {key : List UInt8} (h : s.Begins b key) (msg : List UInt8) :
    (hmacSha256 sha256 (.outside msg) msg.length (.temp b) key.length).wp False
      (fun hash t => 64 + msg.length ≤ bufferLen ∧ hash = hmacStandard sha256 key msg ∧ TookOne s t)
      (fun _ _ => ¬ 64 + msg.length ≤ bufferLen) s := by
  have hipad := toList_pad sha256 key 0x36
  have hopad := toList_pad sha256 key 0x5c
  have hblock (x : UInt8) : ((blockKey sha256 key).map (· ^^^ x)).length = 64 := by
    rw [List.length_map, length_blockKey]
  rw [hmacSha256, wp_bind]
  refine load_temp_wp h ?_
  dsimp only
  rw [wp_bind]
  refine alloc_wp fun u _ htook => ?_
  rw [hipad, hopad, wp_bind]
  refine store_next_wp (begins_nil _ _) rfl ?_ fun hpad => ?_
  · rw [hblock]
    decide
  rw [wp_bind, load, wp_pure, List.take_length, wp_bind]
  refine store_wp (fun hroom => ?_) fun hno => hno
  have hdata := hpad.stored (show _ + msg.length ≤ bufferLen by rw [List.nil_append, hblock]; exact hroom)
  rw [List.nil_append, hblock] at hdata
  have hlen : msg.length + 64 = ((blockKey sha256 key).map (· ^^^ 0x36) ++ msg).length := by
    rw [List.length_append, hblock, Nat.add_comm]
  rw [wp_bind, hlen]
  refine load_temp_wp hdata ?_
  rw [wp_pure, toList_inner (hblock 0x5c) (Bytes.length_toList _)]
  refine ⟨hroom, rfl, fun b' hne => ?_, htook.bufNum, htook.taken⟩
  rw [stored_other _ hne, stored_other _ hne]
  exact htook.other b' hne

/-! ### `hmac_salted` -/

theorem loadString_outside_wp {Q : List UInt8 → Secure → Prop} (hl : 0 ∉ l) (hok : Q l s) :
    (loadString (.outside (l ++ [0]))).wp c Q E s := by
  rw [loadString, wp_pure, takeWhile_ne_zero hl]
  exact hok

theorem length_saltBytes (salt : UInt32 × UInt32) : (saltBytes salt).length = 8 := by
  simp [saltBytes]

/-- The buffers are taken in turn. -/
theorem turn_ne : ∀ b : TempBuffer, b ≠ b + 1 ∧ b ≠ b + 1 + 1 ∧ b ≠ b + 1 + 1 + 1 ∧ b + 1 ≠ b + 1 + 1 ∧
    b + 1 ≠ b + 1 + 1 + 1 ∧ b + 1 + 1 ≠ b + 1 + 1 + 1 := by decide

theorem hmac_wp {key : List UInt8} (h : s.Begins b key) (msg : List UInt8) :
    (hmac sha256 (.outside msg) msg.length (.temp b) key.length).wp False
      (fun hashStr t => 64 + msg.length ≤ bufferLen ∧ hashStr = s.bufNum ∧
        (∀ b', b' ≠ s.bufNum → b' ≠ s.bufNum + 1 → t.tempBuffers b' = s.tempBuffers b') ∧
        t.Begins s.bufNum (hex (hmacStandard sha256 key msg).toList ++ [0]) ∧
        t.taken = s.taken ++ [s.bufNum] ++ [s.bufNum + 1])
      (fun _ _ => ¬ 64 + msg.length ≤ bufferLen) s := by
  rw [hmac, wp_bind]
  refine alloc_wp fun u hbuffers htook => ?_
  rw [wp_bind]
  refine (hmacSha256_wp (h.of_eq hbuffers) msg).mono ?_ fun _ _ hno => hno
  rintro hash v ⟨hroom, rfl, hv⟩
  rw [wp_bind]
  have hlen : 2 * (hmacStandard sha256 key msg).toList.length + 1 ≤ bufferLen := by
    rw [Bytes.length_toList]
    decide
  refine arrayToHex_wp hlen fun w hhash honly => ?_
  rw [wp_pure]
  refine ⟨hroom, rfl, fun b' hne hne' => ?_, hhash, ?_⟩
  · rw [honly.other b' hne, hv.other b' (by rwa [htook.bufNum]), hbuffers]
  · rw [honly.taken, hv.taken, htook.taken, htook.bufNum]

/-- The salted key is put together in the second buffer. -/
theorem strcpy_key_wp {key : List UInt8} (hkey : 0 ∉ key) {Q : Unit → Secure → Prop}
    (hok : key.length + 1 ≤ bufferLen → ∀ t, t.Begins b key → OnlyIn b s t → Q () t)
    (herr : ¬ key.length + 1 ≤ bufferLen → ∀ e, E e s) : (strcpy b 0 (.outside (key ++ [0]))).wp c Q E s := by
  rw [strcpy, wp_bind]
  refine loadString_outside_wp hkey ?_
  have hlen : 0 + (key ++ [0]).length = key.length + 1 := by simp
  refine store_wp (fun hroom => ?_) fun hno => herr (by rwa [← hlen]) _
  have hbegins := (begins_nil s b).stored hroom
  exact hok (by rwa [← hlen]) _ (Begins.init hbegins) ((OnlyIn.refl b s).stored _ _)

theorem strcpy_salt_wp {key salt : List UInt8} (hkey : s.Begins b key) (hsalt : s.Begins b' (salt ++ [0])) (hzero : 0 ∉ salt)
    {Q : Unit → Secure → Prop}
    (hok : key.length + salt.length + 1 ≤ bufferLen → ∀ t, t.Begins b (key ++ salt) → OnlyIn b s t → Q () t)
    (herr : ¬ key.length + salt.length + 1 ≤ bufferLen → ∀ e, E e s) :
    (strcpy b key.length (.temp b')).wp c Q E s := by
  rw [strcpy, wp_bind]
  refine loadString_temp_wp hsalt hzero ?_
  have hlen : key.length + (salt ++ [0]).length = key.length + salt.length + 1 := by simp [Nat.add_assoc]
  refine store_wp (fun hroom => ?_) fun hno => herr (by rwa [← hlen]) _
  have hbegins := hkey.stored hroom
  rw [← List.append_assoc] at hbegins
  exact hok (by rwa [← hlen]) _ hbegins.init ((OnlyIn.refl b s).stored _ _)

/-- The first two buffers after the salt and the key. -/
structure SaltedKey (salt key : List UInt8) (s t : Secure) : Prop where
  saltStr : t.Begins s.bufNum (salt ++ [0])
  key2 : t.Begins (s.bufNum + 1) (key ++ salt)
  bufNum : t.bufNum = s.bufNum + 1 + 1
  taken : t.taken = s.taken ++ [s.bufNum, s.bufNum + 1]

theorem saltKey_wp {key : List UInt8} (hkey : 0 ∉ key) (salt : UInt32 × UInt32) :
    (saltKey salt (.outside (key ++ [0])) key.length).wp False
      (fun r t => key.length ≤ 1007 ∧ r = (s.bufNum, s.bufNum + 1) ∧ SaltedKey (hex (saltBytes salt)) key s t)
      (fun _ _ => ¬ key.length ≤ 1007) s := by
  have hlen : bufferLen = 1024 := rfl
  have hsaltlen : (hex (saltBytes salt)).length = 16 := by rw [length_hex, length_saltBytes]
  have hzero := zero_notMem_hex (saltBytes salt)
  have h01 := (turn_ne s.bufNum).1
  rw [saltKey, wp_bind]
  refine alloc_wp fun u _ hu => ?_
  rw [wp_bind, makeSalt]
  refine arrayToHex_wp (by rw [length_saltBytes]; decide) fun v hsalt hv => ?_
  rw [wp_bind]
  refine alloc_wp fun w hbuffers hw => ?_
  rw [hv.bufNum, hu.bufNum, wp_bind]
  refine strcpy_key_wp hkey (fun _ x hkey2 hx => ?_) fun hno _ => by omega
  have hsaltx := (hsalt.of_eq hbuffers).of_only hx h01
  rw [wp_bind]
  refine strcpy_salt_wp hkey2 hsaltx hzero (fun hroom y hboth hy => ?_) fun hno _ => by omega
  have hbothlen : key.length + 16 = (key ++ hex (saltBytes salt)).length := by rw [List.length_append, hsaltlen]
  rw [hbothlen, wp_bind]
  refine store_next_wp hboth rfl (by rw [← hbothlen, List.length_singleton]; omega) fun hkey3 => ?_
  rw [wp_pure]
  have honly := hy.stored (key ++ hex (saltBytes salt)).length [0]
  refine ⟨by omega, rfl, hsaltx.of_only honly h01, hkey3.init, ?_, ?_⟩
  · rw [honly.bufNum, hx.bufNum, hw.bufNum, hv.bufNum, hu.bufNum]
  · rw [honly.taken, hx.taken, hw.taken, hv.taken, hu.taken, hv.bufNum, hu.bufNum, List.append_assoc]
    rfl

theorem hmacSalted_wp (sha256 : List UInt8 → Bytes 32) {key : List UInt8} (hkey : 0 ∉ key) (salt : UInt32 × UInt32)
    (msg : List UInt8) (s : Secure) :
    (hmacSalted sha256 salt (.outside msg) msg.length (.outside (key ++ [0])) key.length).wp False
      (fun r t => Fits key msg ∧ t.string r.2 = hex (saltBytes salt) ∧
        t.string r.1 = hex (hmacStandard sha256 (key ++ t.string r.2) msg).toList ∧
        ∃ buffers, t.taken = s.taken ++ buffers ∧ buffers.Nodup ∧ buffers.length = 4)
      (fun _ _ => ¬ Fits key msg) s := by
  have hlen : bufferLen = 1024 := rfl
  have hsaltlen : (hex (saltBytes salt)).length = 16 := by rw [length_hex, length_saltBytes]
  obtain ⟨h01, h02, h03, h12, h13, h23⟩ := turn_ne s.bufNum
  rw [hmacSalted, wp_bind]
  refine (saltKey_wp hkey salt).mono ?_ fun _ _ hno hfits => hno hfits.1
  rintro r t ⟨hshort, rfl, ht⟩
  have hbothlen : key.length + 16 = (key ++ hex (saltBytes salt)).length := by rw [List.length_append, hsaltlen]
  rw [hbothlen, wp_bind]
  refine (hmac_wp ht.key2 msg).mono ?_ ?_
  · rintro hashStr z ⟨hmsg, rfl, hother, hhash, htook⟩
    rw [ht.bufNum] at hother hhash htook ⊢
    have hsaltz : z.Begins s.bufNum (hex (saltBytes salt) ++ [0]) := by
      refine ⟨ht.saltStr.1, ?_⟩
      rw [hother _ h02 h03]
      exact ht.saltStr.2
    have hsaltstring := hsaltz.string (zero_notMem_hex _)
    rw [wp_pure, hsaltstring]
    refine ⟨⟨hshort, by omega⟩, rfl, hhash.string (zero_notMem_hex _), ?_⟩
    refine ⟨[s.bufNum, s.bufNum + 1, s.bufNum + 1 + 1, s.bufNum + 1 + 1 + 1], ?_, ?_, rfl⟩
    · rw [htook, ht.taken]
      simp
    · simp [h01, h02, h03, h12, h13, h23]
  · intro _ _ hno hfits
    have hmsg := hfits.2
    omega

/-- For every message and key without NUL, every salt and every state of the buffers:
`hmac_salted` returns the hash under the key and the salt, and that salt, within its four
buffers, exactly if both strings are short enough. -/
theorem hmacSalted_correct_iff (sha256 : List UInt8 → Bytes 32) (salt : UInt32 × UInt32) (msg key : List UInt8)
    (hkey : 0 ∉ key) (s : Secure) : SaltedHash sha256 salt msg key s ↔ Fits key msg := by
  have hwp := hmacSalted_wp sha256 hkey salt msg s
  constructor
  · rintro ⟨hashStr, saltStr, t, hrun, -⟩
    rw [Op.wp, hrun] at hwp
    exact hwp.1
  · intro hfits
    obtain ⟨r, t, hrun, -, hpost⟩ | ⟨_, _, _, hno⟩ | ⟨_, hno⟩ := hwp.cases
    · exact ⟨r.1, r.2, t, hrun, hpost⟩
    · exact absurd hfits hno
    · exact hno.elim

/-- The static data at the start, with the buffer to hand out next. -/
def start (next : TempBuffer) : Secure := ⟨fun _ => Bytes.zero, next, []⟩

theorem hmacSalted_correct_iff_short : (0 : UInt8) ∉ [107, 101, 121] ∧
    (SaltedHash (fun _ => Bytes.zero) (7, 8) [109, 115, 103] [107, 101, 121] (start 0) ↔ Fits [107, 101, 121] [109, 115, 103]) :=
  ⟨by decide, hmacSalted_correct_iff _ (7, 8) _ _ (by decide) (start 0)⟩

/-- A key of 1008 letters: the salt is copied behind it, and the NUL goes past the end of
the buffer. -/
theorem hmacSalted_overruns_long_key :
    ¬ SaltedHash (fun _ => Bytes.zero) (7, 8) [109, 115, 103] (List.replicate 1008 97) (start 0) := by
  have hkey : (0 : UInt8) ∉ List.replicate 1008 97 := fun h => absurd (List.eq_of_mem_replicate h) (by decide)
  rintro ⟨hashStr, saltStr, t, hrun, -⟩
  have hwp := hmacSalted_wp (fun _ => Bytes.zero) hkey (7, 8) [109, 115, 103] (start 0)
  rw [Op.wp, hrun] at hwp
  have hshort := hwp.1.1
  rw [List.length_replicate] at hshort
  exact absurd hshort (by decide)

end Secure

end Os161
