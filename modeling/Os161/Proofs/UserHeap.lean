import Os161.Proofs.Uio
import Os161.Spec.Malloc

/-! The heap of the C library as a list of blocks: the headers in memory represent it,
and splitting, merging and extending blocks are operations on the list. -/

namespace Os161

open Op

/-! ### Stores to headers -/

section
variable {c p : Prop} {Q : Unit → Uheap → Prop} {E : MallocExit → Uheap → Prop} {h : Uheap}

theorem wp_errxIf [Decidable p] (e : MallocExit) (hp : ¬ p) : (errxIf p e).wp c Q E h ↔ Q () h := by
  unfold errxIf
  rw [if_neg hp, wp_pure]

@[simp] theorem wp_poke (f : (ℕ → ℕ) → ℕ → ℕ) : (poke f).wp c Q E h ↔ Q () { h with mem := f h.mem } := Iff.rfl

end

/-- A block: its size with the header, in units of 8 bytes. -/
structure Ublock where
  n : ℕ
  used : Bool
  pos : 0 < n

def Ublock.len (b : Ublock) : ℕ := 8 * b.n

/-- The words of a header. -/
def Hdr (m : ℕ → ℕ) (x prev : ℕ) (b : Ublock) : Prop :=
  m x = prev * 8 + 2 ∧ m (x + 4) = b.n * 8 + b.used.toNat * 4 + 2

section
variable {m m' : ℕ → ℕ} {x y p q k : ℕ} {b b' : Ublock}

namespace Hdr

theorem prevblock (h : Hdr m x p b) (hp : p < 2 ^ 29) : mhPrevblock m x = p := by
  rw [mhPrevblock, h.1]
  omega

theorem nextblock (h : Hdr m x p b) (hn : b.n < 2 ^ 29) : mhNextblock m x = b.n := by
  have := b.used.toNat_lt
  rw [mhNextblock, h.2]
  omega

theorem inuse (h : Hdr m x p b) : mhInuse m x = b.used.toNat := by
  have := b.used.toNat_lt
  rw [mhInuse, h.2]
  omega

theorem ok (h : Hdr m x p b) : mOk m x := by
  have := b.used.toNat_lt
  rw [mOk, mhMagic1, mhMagic2, h.1, h.2, mmagic]
  omega

theorem nextoff (h : Hdr m x p b) (hn : b.n < 2 ^ 29) : mNextoff m x = b.len := by
  rw [mNextoff, h.nextblock hn, Ublock.len, Nat.mul_comm]

theorem prevoff (h : Hdr m x p b) (hp : p < 2 ^ 29) : mPrevoff m x = 8 * p := by
  rw [mPrevoff, h.prevblock hp, Nat.mul_comm]

theorem size (h : Hdr m x p b) (hn : b.n < 2 ^ 29) : mSize m x = b.len - 8 := by
  have := b.pos
  rw [mSize, h.nextoff hn, Ublock.len]
  unfold u32
  omega

theorem next (h : Hdr m x p b) (hn : b.n < 2 ^ 29) (hx : x + b.len < 2 ^ 32) : mNext m x = x + b.len := by
  rw [mNext, h.nextoff hn, ← Nat.cast_add, u32_natCast hx]

theorem congr (h : Hdr m x p b) (h0 : m' x = m x) (h4 : m' (x + 4) = m (x + 4)) : Hdr m' x p b :=
  ⟨h0.trans h.1, h4.trans h.2⟩

theorem setPrevblock_eq (h : Hdr m x p b) (hq : q < 2 ^ 29) : setPrevblock x q m = Function.update m x (q * 8 + 2) := by
  rw [setPrevblock, h.1, Nat.mod_eq_of_lt hq]
  congr 1
  omega

theorem setNextblock_eq (h : Hdr m x p b) (hk : k < 2 ^ 29) :
    setNextblock x k m = Function.update m (x + 4) (k * 8 + b.used.toNat * 4 + 2) := by
  have := b.used.toNat_lt
  rw [setNextblock, h.2, Nat.mod_eq_of_lt hk]
  congr 1
  omega

theorem setInuse_eq (h : Hdr m x p b) (u : Bool) :
    setInuse x u.toNat m = Function.update m (x + 4) (b.n * 8 + u.toNat * 4 + 2) := by
  have := b.used.toNat_lt
  have := u.toNat_lt
  rw [setInuse, h.2]
  congr 1
  omega

end Hdr

/-- The stores of `__malloc_split` make a header whatever was there. -/
theorem newHeader_eq (hp : p < 2 ^ 29) (hk : k < 2 ^ 29) :
    setMagic2 x mmagic (setInuse x 0 (setNextblock x k (setMagic1 x mmagic (setPad x 0 (setPrevblock x p m))))) =
      Function.update (Function.update m x (p * 8 + 2)) (x + 4) (k * 8 + 2) := by
  have hne : x ≠ x + 4 := by omega
  unfold setMagic2 setInuse setNextblock setMagic1 setPad setPrevblock mmagic
  simp only [Function.update_self, Function.update_idem, Function.update_of_ne hne.symm]
  congr 1
  · congr 1
    omega
  · omega

/-- So do those at the end of `malloc`. -/
theorem topHeader_eq (hp : p < 2 ^ 29) (hk : k < 2 ^ 29) :
    setNextblock x k (setInuse x 1 (setPad x 0 (setMagic2 x mmagic (setMagic1 x mmagic (setPrevblock x p m))))) =
      Function.update (Function.update m x (p * 8 + 2)) (x + 4) (k * 8 + 4 + 2) := by
  have hne : x ≠ x + 4 := by omega
  funext y
  unfold setMagic2 setInuse setNextblock setMagic1 setPad setPrevblock mmagic
  simp only [Function.update_self, Function.update_idem, Function.update_of_ne hne, Function.update_of_ne hne.symm]
  by_cases h4 : y = x + 4
  · subst h4
    simp only [Function.update_self]
    omega
  · simp only [Function.update_of_ne h4]
    by_cases h0 : y = x
    · subst h0
      simp only [Function.update_self]
      omega
    · simp only [Function.update_of_ne h0, Function.update_of_ne h4]

end

/-! ### Tilings -/

/-- Headers for the blocks lie one behind the other from `x` on; `p` is the size of the
block in front. -/
def Tiles (m : ℕ → ℕ) : ℕ → ℕ → List Ublock → Prop
  | _, _, [] => True
  | x, p, b :: bs => Hdr m x p b ∧ Tiles m (x + b.len) b.n bs

/-- The size of the last block, `p` if there is none. -/
def lastN : ℕ → List Ublock → ℕ
  | p, [] => p
  | _, b :: bs => lastN b.n bs

section
variable {m m' : ℕ → ℕ} {x y p q k : ℕ} {a b : Ublock} {A B bs : List Ublock}

theorem Ublock.len_pos (b : Ublock) : 8 ≤ b.len := by
  have := b.pos
  unfold Ublock.len
  omega

theorem room_mod (A : List Ublock) : room Ublock.len A % 8 = 0 := by
  induction A with
  | nil => rfl
  | cons b A ih =>
    rw [room_cons, Ublock.len]
    omega

theorem lastN_concat : lastN p (A ++ [b]) = b.n := by
  induction A generalizing p with
  | nil => rfl
  | cons c A ih => exact ih

theorem lastN_le (p : ℕ) (A : List Ublock) : lastN p A = p ∨ 8 * lastN p A ≤ room Ublock.len A := by
  induction A generalizing p with
  | nil => exact Or.inl rfl
  | cons b A ih =>
    right
    rw [lastN, room_cons, Ublock.len]
    rcases ih b.n with h | h <;> omega

theorem tiles_append :
    Tiles m x p (A ++ B) ↔ Tiles m x p A ∧ Tiles m (x + room Ublock.len A) (lastN p A) B := by
  induction A generalizing x p with
  | nil => simp [Tiles, lastN]
  | cons b A ih =>
    rw [List.cons_append, Tiles, Tiles, ih, lastN, room_cons, Nat.add_assoc, and_assoc]

theorem Tiles.congr (h : Tiles m x p bs)
    (hm : ∀ r ∈ laid Ublock.len x bs, m' r.1 = m r.1 ∧ m' (r.1 + 4) = m (r.1 + 4)) : Tiles m' x p bs := by
  induction bs generalizing x p with
  | nil => trivial
  | cons b bs ih =>
    obtain ⟨h0, h4⟩ := hm (x, b) List.mem_cons_self
    exact ⟨h.1.congr h0 h4, ih h.2 fun r hr => hm r (List.mem_cons_of_mem _ hr)⟩

/-- Stores outside the blocks. -/
theorem Tiles.frame (h : Tiles m x p bs) (hm : ∀ y, x ≤ y → y < x + room Ublock.len bs → m' y = m y) :
    Tiles m' x p bs := by
  refine h.congr fun r hr => ?_
  have hbounds := laid_bounds hr
  have hlen := r.2.len_pos
  exact ⟨hm _ (by omega) (by omega), hm _ (by omega) (by omega)⟩

/-- The first header is given another size for the block in front. -/
theorem Tiles.relink (h : Tiles m x p bs) (hx : bs ≠ [] → m' x = q * 8 + 2)
    (hm : ∀ y, x < y → y < x + room Ublock.len bs → m' y = m y) : Tiles m' x q bs := by
  cases bs with
  | nil => trivial
  | cons b bs =>
    have hlen := b.len_pos
    rw [room_cons] at hm
    exact ⟨⟨hx (by simp), (hm _ (by omega) (by omega)).trans h.1.2⟩,
      h.2.frame fun y h1 h2 => hm y (by omega) (by omega)⟩

theorem Tiles.hdr (h : Tiles m x p bs) (hb : (y, b) ∈ laid Ublock.len x bs) : ∃ q, Hdr m y q b := by
  obtain ⟨A, B, rfl, rfl⟩ := exists_split hb
  exact ⟨_, (tiles_append.mp h).2.1⟩

end

/-! ### The heap -/

/-- The heap consists of the blocks `bs`. -/
structure Uheap.Repr (h : Uheap) (bs : List Ublock) : Prop where
  base : 0 < h.heapbase
  aligned : h.heapbase % 8 = 0
  top : h.heaptop = h.heapbase + room Ublock.len bs
  brk : h.brk = h.heaptop
  start : h.start ≤ h.heapbase
  lt : h.heaptop < 2 ^ 32
  total : h.heaptop < h.start + 2 ^ 31
  tiles : Tiles h.mem h.heapbase 0 bs
  /-- an empty block is not the last one -/
  last : ∀ b ∈ bs.getLast?, 2 ≤ b.n

/-- The address of the block behind `A`. -/
def Uheap.addr (h : Uheap) (A : List Ublock) : ℕ := h.heapbase + room Ublock.len A

/-- The words of the headers. -/
def Uheap.HeaderWord (h : Uheap) (bs : List Ublock) (y : ℕ) : Prop :=
  ∃ r ∈ laid Ublock.len h.heapbase bs, y = r.1 ∨ y = r.1 + 4

namespace Uheap.Repr

variable {h : Uheap} {A B bs : List Ublock} {a b : Ublock} {y : ℕ}

/-- What is known of one block. -/
theorem block (hr : h.Repr (A ++ b :: B)) :
    Hdr h.mem (h.addr A) (lastN 0 A) b ∧ h.addr A + b.len + room Ublock.len B = h.heaptop ∧ b.n < 2 ^ 29 ∧
      lastN 0 A < 2 ^ 29 ∧ h.addr A + b.len < 2 ^ 32 ∧ h.addr A % 8 = 0 ∧ h.heapbase ≤ h.addr A := by
  have h1 := hr.top
  have h2 := hr.lt
  have h3 := hr.total
  have h4 := hr.start
  have h5 := hr.aligned
  have h6 := room_mod A
  have h7 := lastN_le 0 A
  have haddr : h.addr A = h.heapbase + room Ublock.len A := rfl
  have hlen : b.len = 8 * b.n := rfl
  rw [room_append, room_cons] at h1
  refine ⟨(tiles_append.mp hr.tiles).2.1, ?_, ?_, ?_, ?_, ?_, ?_⟩ <;> omega

theorem tiles_before (hr : h.Repr (A ++ B)) : Tiles h.mem h.heapbase 0 A := (tiles_append.mp hr.tiles).1

theorem tiles_behind (hr : h.Repr (A ++ b :: B)) : Tiles h.mem (h.addr A + b.len) b.n B :=
  (tiles_append.mp hr.tiles).2.2

/-- A header behind the block is a header. -/
theorem headerWord_behind (hB : B ≠ []) : h.HeaderWord (A ++ b :: B) (h.addr A + b.len) := by
  obtain ⟨c, B, rfl⟩ := List.exists_cons_of_ne_nil hB
  refine ⟨(h.addr A + b.len, c), ?_, Or.inl rfl⟩
  rw [laid_append]
  exact List.mem_append_right _ (List.mem_cons_of_mem _ List.mem_cons_self)

theorem headerWord_self : h.HeaderWord (A ++ b :: B) (h.addr A) :=
  ⟨(h.addr A, b), laid_middle, Or.inl rfl⟩

theorem headerWord_self4 : h.HeaderWord (A ++ b :: B) (h.addr A + 4) :=
  ⟨(h.addr A, b), laid_middle, Or.inr rfl⟩

end Uheap.Repr

/-! ### Operations on the blocks -/

section
variable {h : Uheap} {A B : List Ublock} {a b : Ublock} {k size : ℕ} {c : Prop} {Q : Unit → Uheap → Prop}
  {E : MallocExit → Uheap → Prop}

/-- Some blocks are replaced by others that take the same room; the header behind them
is linked to the last one. -/
theorem Uheap.Repr.splice {C C' : List Ublock} (hr : h.Repr (A ++ C ++ B)) {m : ℕ → ℕ}
    (hroom : room Ublock.len C' = room Ublock.len C) (hbefore : ∀ y < h.addr A, m y = h.mem y)
    (hC : Tiles m (h.addr A) (lastN 0 A) C')
    (hnext : B ≠ [] → m (h.addr A + room Ublock.len C) = lastN (lastN 0 A) C' * 8 + 2)
    (hbehind : ∀ y, h.addr A + room Ublock.len C < y → m y = h.mem y)
    (hlast : B = [] → ∀ d ∈ (A ++ C').getLast?, 2 ≤ d.n) : { h with mem := m }.Repr (A ++ C' ++ B) := by
  have ht := hr.tiles
  rw [List.append_assoc, tiles_append, tiles_append] at ht
  refine ⟨hr.base, hr.aligned, ?_, hr.brk, hr.start, hr.lt, hr.total, ?_, ?_⟩
  · rw [hr.top]
    simp only [room_append, hroom]
  · rw [List.append_assoc, tiles_append, tiles_append, hroom]
    refine ⟨ht.1.frame fun y _ hy => hbefore y hy, hC, ht.2.2.relink hnext fun y hy _ => hbehind y hy⟩
  · by_cases hB : B = []
    · rw [hB, List.append_nil]
      exact hlast hB
    · have hold := hr.last
      rw [List.getLast?_append_of_ne_nil _ hB] at hold ⊢
      exact hold

/-- The first part of a block with `k` units of data stays, and the rest becomes a free
block, if it has room for a header and data. -/
theorem mallocSplit_wp (hr : h.Repr (A ++ [b] ++ B)) (hk : size = 8 * k) (hkn : k + 1 ≤ b.n)
    (hwhole : b.n < k + 3 → Q () h)
    (hcut : ∀ m (b' r : Ublock), k + 3 ≤ b.n → b'.n = k + 1 → b'.used = b.used → r.n = b.n - (k + 1) →
      r.used = false → { h with mem := m }.Repr (A ++ [b', r] ++ B) →
      (∀ y, y < h.addr A ∨ h.addr A + b.len ≤ y → ¬ h.HeaderWord (A ++ [b] ++ B) y → m y = h.mem y) →
      Q () { h with mem := m }) : (mallocSplit (h.addr A) size).wp c Q E h := by
  have hr' := hr
  rw [List.append_assoc, List.singleton_append] at hr'
  obtain ⟨hdr, htop, hn, hlast, hlt, hal, -⟩ := hr'.block
  have hlen : b.len = 8 * b.n := rfl
  unfold mallocSplit
  simp only [wp_bind, wp_get]
  refine (wp_errxIf _ (by omega)).mpr ?_
  have hsize : u32 (mSize h.mem (h.addr A) - size) = b.len - 8 - size := by
    rw [hdr.size hn, u32_sub (by omega) (by omega)]
  rw [hsize, wp_ite]
  refine ⟨fun hsmall => hwhole (by omega), fun hroom => ?_⟩
  have hfield : mMkfield (u32 (size + 8)) = k + 1 := by
    unfold mMkfield u32
    omega
  have hrest : mMkfield (b.len - 8 - size) = b.n - (k + 1) := by
    unfold mMkfield
    omega
  obtain ⟨b', hb'n, hb'u⟩ : ∃ b' : Ublock, b'.n = k + 1 ∧ b'.used = b.used :=
    ⟨⟨k + 1, b.used, Nat.succ_pos k⟩, rfl, rfl⟩
  obtain ⟨r, hrn, hru⟩ : ∃ r : Ublock, r.n = b.n - (k + 1) ∧ r.used = false :=
    ⟨⟨b.n - (k + 1), false, by omega⟩, rfl, rfl⟩
  have hb'len : b'.len = 8 * b'.n := rfl
  have hrlen : r.len = 8 * r.n := rfl
  -- the block is shortened
  let m₁ := Function.update h.mem (h.addr A + 4) (b'.n * 8 + b.used.toNat * 4 + 2)
  have hm₁ : setNextblock (h.addr A) b'.n h.mem = m₁ := hdr.setNextblock_eq (by omega)
  have hdr₁ : Hdr m₁ (h.addr A) (lastN 0 A) b' := by
    refine ⟨(Function.update_of_ne (by omega) ..).trans hdr.1, ?_⟩
    rw [hb'u]
    exact Function.update_self ..
  have hnew : mNext m₁ (h.addr A) = h.addr A + b'.len := hdr₁.next (by omega) (by omega)
  -- the rest gets a header of its own
  let m₂ := Function.update (Function.update m₁ (h.addr A + b'.len) (b'.n * 8 + 2)) (h.addr A + b'.len + 4) (r.n * 8 + 2)
  have hm₂ (y : ℕ) (h1 : y ≠ h.addr A + 4) (h2 : y ≠ h.addr A + b'.len) (h3 : y ≠ h.addr A + b'.len + 4) :
      m₂ y = h.mem y := by
    simp only [m₂, m₁, Function.update_of_ne h3, Function.update_of_ne h2, Function.update_of_ne h1]
  have hdr₂ : Hdr m₂ (h.addr A) (lastN 0 A) b' := by
    refine hdr₁.congr ?_ ?_ <;> simp only [m₂] <;> rw [Function.update_of_ne (by omega), Function.update_of_ne (by omega)]
  have hdr₃ : Hdr m₂ (h.addr A + b'.len) b'.n r := by
    refine ⟨?_, ?_⟩
    · simp only [m₂]
      rw [Function.update_of_ne (by omega), Function.update_self]
    · rw [hru]
      exact Function.update_self ..
  -- the header behind, if there is one, is linked to the rest
  have hfinish (m : ℕ → ℕ) (hm : ∀ y, y ≠ h.addr A + b.len → m y = m₂ y)
      (hx : B ≠ [] → m (h.addr A + b.len) = r.n * 8 + 2)
      (hx' : B = [] → m (h.addr A + b.len) = m₂ (h.addr A + b.len)) : Q () { h with mem := m } := by
    refine hcut m b' r (by omega) hb'n hb'u hrn hru
      (hr.splice ?_ (fun y hy => ?_) ⟨?_, ?_, trivial⟩ hx (fun y hy => ?_) fun _ d hd => ?_) fun y hy hnot => ?_
    · simp only [room_cons, room_nil]
      omega
    · rw [hm y (by omega), hm₂ y (by omega) (by omega) (by omega)]
    · exact hdr₂.congr (hm _ (by omega)) (hm _ (by omega))
    · exact hdr₃.congr (hm _ (by omega)) (hm _ (by omega))
    · simp only [room_cons, room_nil] at hy
      rw [hm y (by omega), hm₂ y (by omega) (by omega) (by omega)]
    · rw [List.getLast?_append_of_ne_nil _ (List.cons_ne_nil b' [r])] at hd
      obtain rfl : r = d := Option.some.inj hd
      omega
    · by_cases hye : y = h.addr A + b.len
      · by_cases hB : B = []
        · rw [hye, hx' hB, hm₂ _ (by omega) (by omega) (by omega)]
        · refine absurd ?_ hnot
          rw [hye, List.append_assoc]
          exact Uheap.Repr.headerWord_behind hB
      · rw [hm y hye, hm₂ y (by omega) (by omega) (by omega)]
  rw [← hb'n] at hfield
  rw [← hrn] at hrest
  simp only [wp_bind, wp_poke, wp_get, hfield, hrest, hdr.next hn hlt, hm₁, hnew]
  refine (wp_errxIf _ (by rw [hm₁, hnew, hdr.next hn hlt]; omega)).mpr ?_
  rw [newHeader_eq (by omega) (by omega), wp_ite]
  refine ⟨fun hnot => ?_, fun htopped => ?_⟩
  · have hB : B ≠ [] := fun hB => hnot (by rw [hB, room_nil] at htop; exact htop)
    obtain ⟨d, B', rfl⟩ := List.exists_cons_of_ne_nil hB
    simp only [wp_bind, wp_get, wp_poke]
    have hdrB : Hdr m₂ (h.addr A + b.len) b.n d :=
      hr'.tiles_behind.1.congr (hm₂ _ (by omega) (by omega) (by omega)) (hm₂ _ (by omega) (by omega) (by omega))
    rw [hdr₃.nextblock (by omega), hdrB.setPrevblock_eq (by omega)]
    exact hfinish _ (fun y hy => Function.update_of_ne hy ..) (fun _ => Function.update_self ..) (by simp)
  · have hB : B = [] := by
      by_contra hB
      obtain ⟨d, B', rfl⟩ := List.exists_cons_of_ne_nil hB
      have hd := d.len_pos
      rw [not_not] at htopped
      rw [room_cons] at htop
      omega
    exact hfinish m₂ (fun _ _ => rfl) (fun hne => absurd hB hne) fun _ => rfl

/-- A block is marked. -/
theorem Uheap.Repr.setUsed (hr : h.Repr (A ++ [b] ++ B)) (u : Bool) (hn : a.n = b.n) (hu : a.used = u) :
    { h with mem := setInuse (h.addr A) u.toNat h.mem }.Repr (A ++ [a] ++ B) ∧
      ∀ y, y ≠ h.addr A + 4 → setInuse (h.addr A) u.toNat h.mem y = h.mem y := by
  have hr' := hr
  rw [List.append_assoc, List.singleton_append] at hr'
  obtain ⟨hdr, -⟩ := hr'.block
  have hlen : a.len = b.len := by rw [Ublock.len, Ublock.len, hn]
  have hpos := b.len_pos
  rw [hdr.setInuse_eq u]
  have hframe (y : ℕ) (hy : y ≠ h.addr A + 4) :
      Function.update h.mem (h.addr A + 4) (b.n * 8 + u.toNat * 4 + 2) y = h.mem y := Function.update_of_ne hy ..
  refine ⟨hr.splice ?_ (fun y hy => hframe y (by omega)) ⟨⟨?_, ?_⟩, trivial⟩ (fun hB => ?_) (fun y hy => ?_)
    fun hB d hd => ?_, hframe⟩
  · simp only [room_cons, hlen]
  · exact (hframe _ (by omega)).trans hdr.1
  · rw [hn, hu]
    exact Function.update_self ..
  · obtain ⟨d, B', rfl⟩ := List.exists_cons_of_ne_nil hB
    simp only [room_cons, room_nil, Nat.add_zero]
    rw [hframe _ (by omega), hr'.tiles_behind.1.1, lastN, lastN, hn]
  · simp only [room_cons, room_nil] at hy
    exact hframe y (by omega)
  · rw [List.getLast?_append_of_ne_nil _ (List.cons_ne_nil a [])] at hd
    obtain rfl : a = d := Option.some.inj hd
    rw [hn]
    refine hr.last b ?_
    rw [hB, List.append_nil, List.getLast?_concat]
    rfl

theorem mallocDeadbeef_frame {m : ℕ → ℕ} {ptr y : ℕ} (hy : ∀ i < size / 4, y ≠ ptr + 4 * i) :
    mallocDeadbeef ptr size m y = m y := by
  have hfold (l : List ℕ) (hl : ∀ i ∈ l, i < size / 4) (m : ℕ → ℕ) :
      l.foldl (fun m i => Function.update m (ptr + 4 * i) 0xdeadbeef) m y = m y := by
    induction l generalizing m with
    | nil => rfl
    | cons i l ih =>
      have hi := hl i List.mem_cons_self
      rw [List.foldl_cons, ih fun j hj => hl j (List.mem_cons_of_mem i hj), Function.update_of_ne (hy i hi)]
  exact hfold _ (fun i hi => List.mem_range.mp hi) m

/-- Two free blocks side by side become one. -/
theorem mallocTrymerge_wp (hr : h.Repr (A ++ [a, b] ++ B)) (hkeep : a.used = true ∨ b.used = true → Q () h)
    (hmerge : ∀ m (d : Ublock), a.used = false → b.used = false → d.n = a.n + b.n → d.used = false →
      { h with mem := m }.Repr (A ++ [d] ++ B) →
      (∀ y, ¬ h.HeaderWord (A ++ [a, b] ++ B) y → m y = h.mem y) → Q () { h with mem := m }) :
    (mallocTrymerge (h.addr A) (h.addr A + a.len)).wp c Q E h := by
  have hra : h.Repr (A ++ a :: b :: B) := by simpa using hr
  have hrb : h.Repr ((A ++ [a]) ++ b :: B) := by simpa using hr
  obtain ⟨hdra, -, hna, hlasta, hlta, -, -⟩ := hra.block
  obtain ⟨hdrb, htop, hnb, -, hltb, -, -⟩ := hrb.block
  have haddr : h.addr (A ++ [a]) = h.addr A + a.len := by
    simp only [Uheap.addr, room_append, room_cons, room_nil]
    omega
  rw [haddr] at hdrb htop hltb
  rw [lastN_concat] at hdrb
  have hlena : a.len = 8 * a.n := rfl
  have hlenb : b.len = 8 * b.n := rfl
  have hposa := a.len_pos
  have hposb := b.len_pos
  have hn : a.n + b.n < 2 ^ 29 := by omega
  unfold mallocTrymerge
  simp only [wp_bind, wp_get]
  refine (wp_errxIf _ ?_).mpr ?_
  · rw [hdra.nextblock hna, hdrb.prevblock hna]
    exact fun hne => hne rfl
  rw [wp_ite, hdra.inuse, hdrb.inuse]
  refine ⟨fun hused => hkeep ?_, fun hfree => ?_⟩
  · cases hau : a.used <;> cases hbu : b.used <;> simp_all
  have hau : a.used = false := by
    cases hau : a.used <;> simp_all
  have hbu : b.used = false := by
    cases hbu : b.used <;> simp_all
  obtain ⟨d, hdn, hdu⟩ : ∃ d : Ublock, d.n = a.n + b.n ∧ d.used = false :=
    ⟨⟨a.n + b.n, false, Nat.add_pos_left a.pos _⟩, rfl, rfl⟩
  have hdlen : d.len = a.len + b.len := by
    rw [Ublock.len, hdn]
    omega
  have hfield : mMkfield (u32 (8 + mSize h.mem (h.addr A) + 8 + mSize h.mem (h.addr A + a.len))) = d.n := by
    rw [hdra.size hna, hdrb.size hnb]
    unfold mMkfield u32
    omega
  let m₁ := Function.update h.mem (h.addr A + 4) (d.n * 8 + a.used.toNat * 4 + 2)
  have hm₁ : setNextblock (h.addr A) d.n h.mem = m₁ := hdra.setNextblock_eq (by omega)
  have hframe₁ (y : ℕ) (hy : y ≠ h.addr A + 4) : m₁ y = h.mem y := Function.update_of_ne hy ..
  have hdr₁ : Hdr m₁ (h.addr A) (lastN 0 A) d := by
    refine ⟨(hframe₁ _ (by omega)).trans hdra.1, ?_⟩
    rw [hdu, ← hau]
    exact Function.update_self ..
  -- the old header of the upper block is wiped
  have hfinish (m : ℕ → ℕ) (hm : ∀ y, y ≠ h.addr A + d.len → m y = m₁ y)
      (hx : B ≠ [] → m (h.addr A + d.len) = d.n * 8 + 2) (hx' : B = [] → m (h.addr A + d.len) = m₁ (h.addr A + d.len)) :
      Q () { h with mem := mallocDeadbeef (h.addr A + a.len) 8 m } := by
    have hbeef (y : ℕ) (h0 : y ≠ h.addr A + a.len) (h4 : y ≠ h.addr A + a.len + 4) :
        mallocDeadbeef (h.addr A + a.len) 8 m y = m y := mallocDeadbeef_frame fun i hi => by omega
    refine hmerge _ d hau hbu hdn hdu
      (hr.splice ?_ (fun y hy => ?_) ⟨?_, trivial⟩ (fun hB => ?_) (fun y hy => ?_) fun hB e he => ?_) fun y hnot => ?_
    · simp only [room_cons, room_nil]
      omega
    · rw [hbeef y (by omega) (by omega), hm y (by omega), hframe₁ y (by omega)]
    · exact hdr₁.congr ((hbeef _ (by omega) (by omega)).trans (hm _ (by omega)))
        ((hbeef _ (by omega) (by omega)).trans (hm _ (by omega)))
    · simp only [room_cons, room_nil, Nat.add_zero]
      rw [← hdlen, hbeef _ (by omega) (by omega), hx hB]
      rfl
    · simp only [room_cons, room_nil] at hy
      rw [hbeef y (by omega) (by omega), hm y (by omega), hframe₁ y (by omega)]
    · rw [List.getLast?_append_of_ne_nil _ (List.cons_ne_nil d [])] at he
      obtain rfl : d = e := Option.some.inj he
      have := a.pos
      have := b.pos
      omega
    · have hlower : y ≠ h.addr A + 4 := fun he => hnot (by
        rw [he, List.append_assoc]
        exact Uheap.Repr.headerWord_self4)
      have hupper : y ≠ h.addr A + a.len ∧ y ≠ h.addr A + a.len + 4 := by
        rw [← haddr]
        rw [show A ++ [a, b] ++ B = A ++ [a] ++ b :: B by simp] at hnot
        exact ⟨fun he => hnot (he ▸ Uheap.Repr.headerWord_self), fun he => hnot (he ▸ Uheap.Repr.headerWord_self4)⟩
      rw [hbeef y hupper.1 hupper.2]
      by_cases hye : y = h.addr A + d.len
      · by_cases hB : B = []
        · rw [hye, hx' hB, hframe₁ _ (by omega)]
        · refine absurd ?_ hnot
          have hword := Uheap.Repr.headerWord_behind (h := h) (A := A ++ [a]) (b := b) hB
          rw [haddr] at hword
          rw [hye, hdlen, ← Nat.add_assoc, show A ++ [a, b] ++ B = A ++ [a] ++ b :: B by simp]
          exact hword
      · rw [hm y hye, hframe₁ y hlower]
  simp only [wp_bind, wp_poke, hfield, hm₁, hdrb.next hnb hltb]
  rw [wp_ite]
  refine ⟨fun hnot => ?_, fun htopped => ?_⟩
  · have hB : B ≠ [] := fun hB => hnot (by rw [hB, room_nil] at htop; exact htop)
    obtain ⟨e, B', rfl⟩ := List.exists_cons_of_ne_nil hB
    have hdre := hrb.tiles_behind.1
    rw [haddr, Nat.add_assoc, ← hdlen] at hdre
    simp only [wp_bind, wp_get, wp_poke]
    rw [hdr₁.nextblock (by omega), Nat.add_assoc, ← hdlen,
      (hdre.congr (hframe₁ _ (by omega)) (hframe₁ _ (by omega))).setPrevblock_eq (by omega)]
    exact hfinish _ (fun y hy => Function.update_of_ne hy ..) (fun _ => Function.update_self ..) (by simp)
  · have hB : B = [] := by
      by_contra hB
      obtain ⟨e, B', rfl⟩ := List.exists_cons_of_ne_nil hB
      have he := e.len_pos
      rw [not_not] at htopped
      rw [room_cons] at htop
      omega
    exact hfinish m₁ (fun _ _ => rfl) (fun hne => absurd hB hne) fun _ => rfl

end

/-! ### The headers in memory -/

section
variable {h : Uheap} {bs : List Ublock} {x z : ℕ} {d : Ublock}

theorem linked_of_tiles {m : ℕ → ℕ} {p : ℕ} (ht : Tiles m x p bs) (hn : ∀ b ∈ bs, b.n < 2 ^ 29) :
    Linked (x + room Ublock.len bs) (fun mh => mh + mNextoff m mh) x ((laid Ublock.len x bs).map Prod.fst) := by
  induction bs generalizing x p with
  | nil => rfl
  | cons b bs ih =>
    have hlen := b.len_pos
    refine ⟨rfl, by rw [room_cons]; omega, ?_⟩
    change Linked _ _ (x + mNextoff m x) _
    rw [ht.1.nextoff (hn b List.mem_cons_self), room_cons, ← Nat.add_assoc]
    exact ih ht.2 fun d hd => hn d (List.mem_cons_of_mem b hd)

theorem Uheap.Repr.tiled (hr : h.Repr bs) : h.Tiled ((laid Ublock.len h.heapbase bs).map Prod.fst) := by
  have hn (b : Ublock) (hb : b ∈ bs) : b.n < 2 ^ 29 := by
    obtain ⟨A, B, rfl⟩ := List.append_of_mem hb
    exact hr.block.2.2.1
  refine ⟨?_, fun mh hmh => ?_, fun mh hmh => ?_, fun mh hmh hne => ?_, fun mh hmh => ?_⟩
  · rw [hr.top]
    exact linked_of_tiles hr.tiles hn
  · obtain ⟨⟨z, b⟩, hd, rfl⟩ := List.mem_map.mp hmh
    obtain ⟨A, B, rfl, rfl⟩ := exists_split hd
    obtain ⟨hdr, -, hbn, -⟩ := hr.block
    change 0 < mNextoff h.mem (h.addr A)
    rw [hdr.nextoff hbn]
    exact Nat.lt_of_lt_of_le (by decide) b.len_pos
  · cases bs with
    | nil => exact absurd hmh (by simp [laid])
    | cons b bs =>
      obtain rfl : h.heapbase = mh := Option.some.inj hmh
      exact hr.tiles.1.prevblock (by decide)
  · obtain ⟨⟨z, b⟩, hd, rfl⟩ := List.mem_map.mp hmh
    obtain ⟨A, B, rfl, rfl⟩ := exists_split hd
    obtain ⟨hdr, htop, hbn, -⟩ := hr.block
    change Hdr h.mem (h.heapbase + room Ublock.len A) _ b at hdr
    change h.heapbase + room Ublock.len A + b.len + _ = _ at htop
    simp only [hdr.nextoff hbn, hdr.nextblock hbn] at hne ⊢
    cases B with
    | nil => exact absurd htop hne
    | cons e B => exact hr.tiles_behind.1.prevblock hbn
  · obtain ⟨⟨z, b⟩, hd, rfl⟩ := List.mem_map.mp hmh
    obtain ⟨q, hq⟩ := hr.tiles.hdr hd
    exact hq.ok

/-- The headers tell which blocks are in use. -/
theorem Uheap.Repr.mhInuse_eq (hr : h.Repr bs) (hd : (z, d) ∈ laid Ublock.len h.heapbase bs) :
    mhInuse h.mem z = d.used.toNat := by
  obtain ⟨q, hq⟩ := hr.tiles.hdr hd
  exact hq.inuse

theorem Uheap.Repr.mSize_eq (hr : h.Repr bs) (hd : (z, d) ∈ laid Ublock.len h.heapbase bs) :
    mSize h.mem z = d.len - 8 := by
  obtain ⟨A, B, rfl, rfl⟩ := exists_split hd
  obtain ⟨hdr, -, hn, -⟩ := hr.block
  exact hdr.size hn

theorem mhInuse_ne_zero (hr : h.Repr bs) (hd : (z, d) ∈ laid Ublock.len h.heapbase bs) (hu : d.used = true) :
    mhInuse h.mem z ≠ 0 := by
  rw [hr.mhInuse_eq hd, hu]
  exact Nat.one_ne_zero

end

end Os161
