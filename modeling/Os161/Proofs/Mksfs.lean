import Os161.Proofs.Bitmap
import Os161.Spec.Mksfs

/-! A volume as `mksfs` makes it and `sfs_domount` finds it: the same bits of the
free block bitmap, written by the one and read by the other. -/

namespace Os161

open Op

theorem reserved_iff {n b : ℕ} : Reserved n b ↔ b < 2 + sfsFreemapblocks n ∨ n ≤ b := by
  unfold Reserved
  omega

theorem sfsFreemapbits_eq (n : ℕ) : sfsFreemapbits n = 4096 * sfsFreemapblocks n := by
  unfold sfsFreemapblocks sfsFreemapbits
  omega

/-- A volume size that `mksfs` can format, with room for all it writes. -/
structure Fitting (n : ℕ) : Prop where
  covered : n ≤ sfsFreemapbits n
  room : 2 + sfsFreemapblocks n ≤ n
  max : sfsFreemapblocks n ≤ 32

theorem fitting_of_le {n : ℕ} (h3 : 3 ≤ n) (hn : n ≤ 32 * 4096) : Fitting n := by
  have hbits : sfsFreemapbits n = (n + 4095) / 4096 * 4096 := by
    unfold sfsFreemapbits
    rw [Nat.mod_eq_of_lt (by omega)]
  have hblocks : sfsFreemapblocks n = (n + 4095) / 4096 := by
    rw [sfsFreemapblocks, hbits, Nat.mul_div_cancel _ (by decide)]
  exact ⟨by omega, by omega, by omega⟩

namespace Mksfs

variable {s : Mksfs} {n k : ℕ} {c : Prop} {disk : ℕ → Block}

/-- The state after a block was written. -/
def wrote (s : Mksfs) (b : ℕ) (x : Block) : Mksfs := { s with disk := Function.update s.disk b x }

theorem wrote_self (b : ℕ) (x : Block) : (s.wrote b x).disk b = x := Function.update_self ..

theorem wrote_of_ne {b b' : ℕ} (h : b' ≠ b) (x : Block) : (s.wrote b x).disk b' = s.disk b' :=
  Function.update_of_ne h ..

theorem diskwrite_wp {b : ℕ} (hb : b < 8388608) (x : Block) {Q : Unit → Mksfs → Prop}
    {E : MksfsError → Mksfs → Prop} : (diskwrite x b).wp c Q E s ↔ Q () (s.wrote b x) := by
  have hseek : diskSeek b = b := by
    unfold diskSeek
    omega
  unfold diskwrite
  rw [wp_modify, hseek]
  rfl

/-! ### The bitmap in memory -/

theorem allocblock_wp (hlen : s.freemapbuf.length = 32 * 512) (hk : k < 8 * (32 * 512))
    (hbit : bitOf s.freemapbuf k = false) {Q : Unit → Mksfs → Prop} {E : MksfsError → Mksfs → Prop}
    (hQ : ∀ t, t.nblocks = s.nblocks → t.disk = s.disk → t.freemapbuf.length = 32 * 512 →
      bitOf t.freemapbuf = Function.update (bitOf s.freemapbuf) k true → Q () t) : (allocblock k).wp c Q E s := by
  unfold allocblock
  have hclear : s.freemapbuf.getD (k / 8) 0 &&& bitMask (k % 8) = 0 := (and_bitMask_eq_zero (by omega)).mpr hbit
  rw [wp_bind, wp_get, wp_bind, wp_kassert_of hclear, wp_set]
  exact hQ _ rfl rfl (by rw [length_setBit, hlen]) (bitOf_setBit (by omega))

/-- `freemapbuf` marks the blocks of `R`, and nothing was written yet. -/
structure Marked (s : Mksfs) (n : ℕ) (disk : ℕ → Block) (R : ℕ → Prop) : Prop where
  nblocks : s.nblocks = n
  disk : s.disk = disk
  length : s.freemapbuf.length = 32 * 512
  bits : ∀ b, bitOf s.freemapbuf b = true ↔ R b

theorem Marked.allocblock_wp {R : ℕ → Prop} (h : s.Marked n disk R) (hk : k < 32 * 4096) (hR : ¬ R k)
    {Q : Unit → Mksfs → Prop} {E : MksfsError → Mksfs → Prop}
    (hQ : ∀ t, t.Marked n disk (fun b => R b ∨ b = k) → Q () t) : (allocblock k).wp c Q E s := by
  have hbit : bitOf s.freemapbuf k = false := by
    rw [← Bool.not_eq_true, h.bits]
    exact hR
  apply Mksfs.allocblock_wp h.length (by omega) hbit
  intro t hn hd hlen hbits
  refine hQ t ⟨hn.trans h.nblocks, hd.trans h.disk, hlen, fun b => ?_⟩
  rw [hbits]
  by_cases hbk : b = k
  · simp [hbk]
  · rw [Function.update_of_ne hbk, h.bits]
    simp [hbk]

theorem Marked.congr {R R' : ℕ → Prop} (h : s.Marked n disk R) (hR : ∀ b, R b ↔ R' b) : s.Marked n disk R' :=
  ⟨h.nblocks, h.disk, h.length, fun b => (h.bits b).trans (hR b)⟩

/-- A range of blocks is marked, one after the other. -/
theorem Marked.allocblocks_wp {R : ℕ → Prop} {o m : ℕ} (h : s.Marked n disk R) (hm : o + m ≤ 32 * 4096)
    (hR : ∀ b, o ≤ b → b < o + m → ¬ R b) {Q : Unit → Mksfs → Prop} {E : MksfsError → Mksfs → Prop}
    (hQ : ∀ t, t.Marked n disk (fun b => R b ∨ (o ≤ b ∧ b < o + m)) → Q () t) :
    ((List.range m).foldlM (fun _ i => allocblock (o + i)) ()).wp c Q E s := by
  apply wp_foldlM_range fun i _ t => t.Marked n disk fun b => R b ∨ (o ≤ b ∧ b < o + i)
  · intro i hi _ t ht
    apply ht.allocblock_wp (by omega)
    · rintro (hno | hno)
      · exact hR _ (by omega) (by omega) hno
      · omega
    · intro u hu
      refine hu.congr fun b => ?_
      rw [or_assoc]
      refine or_congr_right ?_
      omega
  · intro _ t ht
    exact hQ t ht
  · refine h.congr fun b => ?_
    simp only [Nat.add_zero]
    constructor
    · exact Or.inl
    · rintro (hb | hb)
      · exact hb
      · omega

theorem initfreemap_wp (h : Fitting n) {Q : Unit → Mksfs → Prop} {E : MksfsError → Mksfs → Prop}
    (hQ : ∀ t, t.Marked n disk (fun b => Reserved n b ∧ b < sfsFreemapbits n) → Q () t) :
    (initfreemap n).wp c Q E (start n disk) := by
  have hcov := h.covered
  have hroom := h.room
  have hmax := h.max
  have hbits := sfsFreemapbits_eq n
  have hstart : (start n disk).Marked n disk fun _ => False :=
    ⟨rfl, rfl, List.length_replicate, fun b => by rw [start, bitOf_replicate_zero, Bool.false_eq_true]⟩
  unfold initfreemap
  rw [if_neg (by omega), wp_bind]
  apply hstart.allocblock_wp (by omega) id
  intro t₁ ht₁
  rw [wp_bind]
  apply ht₁.allocblock_wp (by omega) (by simp)
  intro t₂ ht₂
  rw [wp_bind]
  apply ht₂.allocblocks_wp (by omega) (by simp only [false_or]; omega)
  intro t₃ ht₃
  apply ht₃.allocblocks_wp (by omega) (by simp only [false_or]; omega)
  intro t ht
  apply hQ
  refine ht.congr fun b => ?_
  rw [reserved_iff]
  simp only [false_or]
  omega

/-! ### The disk -/

theorem volumeName_wp {arg : List UInt8} {Q : List UInt8 → Mksfs → Prop} {E : MksfsError → Mksfs → Prop}
    (hQ : 47 ∉ arg.take (arg.idxOf 58) → Q (arg.take (arg.idxOf 58)) s) (hE : ∀ e t, ¬ GoodName arg → E e t) :
    (volumeName arg).wp c Q E s := by
  have hslash (hcolon : 58 ∈ arg → arg.idxOf 58 + 1 = arg.length) :
      (if 47 ∈ arg.take (arg.idxOf 58) then Op.fail (.illegalName (arg.take (arg.idxOf 58)))
        else pure (arg.take (arg.idxOf 58)) : MksfsM (List UInt8)).wp c Q E s := by
    rw [wp_ite]
    refine ⟨fun hs => hE _ _ fun hgood => hgood.2.1 hs, fun hs => hQ hs⟩
  unfold volumeName
  by_cases hcolon : 58 ∈ arg
  · rw [if_pos hcolon, wp_bind, wp_ite]
    refine ⟨fun hne => hE _ _ fun hgood => hne (hgood.1 hcolon), fun heq => ?_⟩
    rw [wp_pure]
    exact hslash fun _ => not_not.mp heq
  · have htake : arg.take (arg.idxOf 58) = arg := by
      rw [List.idxOf_eq_length hcolon, List.take_length]
    rw [if_neg hcolon, wp_bind, wp_pure]
    rw [htake] at hslash
    exact hslash fun h => absurd h hcolon

theorem sbMagic_newSuper (volname : List UInt8) (n : ℕ) : (newSuper volname n).sbMagic = sfsMagic := by
  rw [Bytes.sbMagic, Bytes.num, newSuper, Bytes.slice_splice_of_disjoint _ (Or.inl (by omega))]
  rw [← Bytes.num, Bytes.num_setNum_of_disjoint _ (Or.inl (by omega)), Bytes.num_setNum_same _ (by omega) (by decide)]

theorem sbNblocks_newSuper (volname : List UInt8) (hn : n < 4294967296) : (newSuper volname n).sbNblocks = n := by
  rw [Bytes.sbNblocks, Bytes.num, newSuper, Bytes.slice_splice_of_disjoint _ (Or.inl (by omega))]
  rw [← Bytes.num, Bytes.num_setNum_same _ (by omega) (by omega)]

/-- The disk of a new volume. -/
structure Formatted (n : ℕ) (disk : ℕ → Block) (volname : List UInt8) (new : ℕ → Block) : Prop where
  super : new 0 = newSuper volname n
  root : new 1 = newRoot
  freemap : ∀ j < sfsFreemapblocks n, ∀ k < 4096, (new (2 + j)).bit k = true ↔ Reserved n (4096 * j + k)
  other : ∀ b, 2 + sfsFreemapblocks n ≤ b → new b = disk b

theorem writefreemap_wp (h : Fitting n) {R : ℕ → Prop} (hlen : s.freemapbuf.length = 32 * 512)
    (hR : ∀ b, bitOf s.freemapbuf b = true ↔ R b) {Q : Unit → Mksfs → Prop} {E : MksfsError → Mksfs → Prop}
    (hQ : ∀ t, (∀ j < sfsFreemapblocks n, ∀ k < 4096, (t.disk (2 + j)).bit k = true ↔ R (4096 * j + k)) →
      (∀ b, b < 2 ∨ 2 + sfsFreemapblocks n ≤ b → t.disk b = s.disk b) → Q () t) : (writefreemap n).wp c Q E s := by
  have hmax := h.max
  unfold writefreemap
  apply wp_foldlM_range fun i _ t => t.freemapbuf = s.freemapbuf ∧
    (∀ j < i, ∀ k < 4096, (t.disk (2 + j)).bit k = true ↔ R (4096 * j + k)) ∧
    ∀ b, b < 2 ∨ 2 + i ≤ b → t.disk b = s.disk b
  · rintro i hi _ t ⟨hbuf, hwritten, hrest⟩
    rw [wp_bind, wp_get, diskwrite_wp (by omega), hbuf]
    refine ⟨hbuf, fun j hj k hk => ?_, fun b hb => ?_⟩
    · by_cases hji : j = i
      · subst hji
        rw [wrote_self, Bytes.bit_ofList_drop _ _ (by omega) (by omega), hR,
          show 8 * (j * 512) + k = 4096 * j + k by omega]
      · rw [wrote_of_ne (by omega)]
        exact hwritten j (by omega) k hk
    · rw [wrote_of_ne (by omega)]
      exact hrest b (by omega)
  · rintro _ t ⟨-, hwritten, hrest⟩
    exact hQ t hwritten hrest
  · refine ⟨rfl, fun j hj => ?_, fun b _ => rfl⟩
    omega

/-- `mksfs` formats every volume of a size that fits, if it likes the name. -/
theorem main_wp (h : Fitting n) (arg : CStr) {Q : Unit → Mksfs → Prop} {E : MksfsError → Mksfs → Prop}
    (hQ : ∀ t, Formatted n disk (arg.chars.take (arg.chars.idxOf 58)) t.disk → Q () t)
    (hE : ∀ e t, ¬ GoodName arg.chars → E e t) : (main arg).wp c Q E (start n disk) := by
  have hn : (start n disk).nblocks = n := rfl
  unfold main
  rw [wp_bind]
  apply volumeName_wp _ hE
  intro _
  rw [wp_bind, wp_get, wp_bind, hn]
  apply initfreemap_wp h
  intro t ht
  unfold writesuper writerootdir
  rw [wp_bind, wp_ite]
  refine ⟨fun hlong => hE _ _ fun hgood => absurd hgood.2.2 (by omega), fun _ => ?_⟩
  rw [diskwrite_wp (by omega), wp_bind]
  apply writefreemap_wp (s := t.wrote 0 _) h ht.length ht.bits
  intro u hbits hrest
  rw [diskwrite_wp (by omega)]
  have hcov := h.covered
  have hroom := h.room
  have hfm := sfsFreemapbits_eq n
  refine hQ _ ⟨?_, wrote_self 1 _, fun j hj k hk => ?_, fun b hb => ?_⟩
  · rw [wrote_of_ne (by omega), hrest 0 (by omega), wrote_self]
  · rw [wrote_of_ne (by omega), hbits j hj k hk]
    exact and_iff_left (by omega)
  · rw [wrote_of_ne (by omega), hrest b (by omega), wrote_of_ne (by omega), ht.disk]

end Mksfs

end Os161
