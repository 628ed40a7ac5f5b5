import Os161.Proofs.UserMalloc
import Os161.Spec.Dumbvm

/-! `malloc` over all sizes. What is missing at the top of the heap may be more than the
signed argument of `sbrk` can say; then the break goes down, or stays. -/

namespace Os161

open Op

variable {h : Uheap} {A bs : List Ublock} {b : Ublock} {k size mh : ℕ} {c : Prop} {grant : ℕ → Bool}
  {E : MallocExit → Uheap → Prop}

/-- Where `malloc` does what it should. Sizes above 2^32 - 8 are rounded to 0. -/
def MallocFits (brk start : ℕ) (bs : List Ublock) (size : ℕ) : Prop :=
  let data := (size + 7) / 8 * 8
  if size ≤ 2 ^ 32 - 8 then
    (∃ b ∈ bs, b.used = false ∧ data + 8 ≤ b.len) ∨ shortfall bs data + 4096 ≤ 2 ^ 31 ∨
      (shortfall bs data + 4096 ≤ 2 ^ 32 ∧ brk + wholePages (shortfall bs data) < start + 2 ^ 32)
  else (∀ b ∈ bs, b.used = true) ∧ ¬ (brk + 4096 < 2 ^ 32 ∧ brk + 4096 < start + 2 ^ 31)

/-! ### Amounts that are not positive -/

/-- The amount `malloc` asks `sbrk` for. -/
def askedFor (need : ℕ) : ℕ := u32 (4096 * (u32 (need + 4096 - 1) / 4096 : ℕ))

theorem askedFor_u32 (x : ℤ) : askedFor (u32 x) = u32 (4096 * (u32 (x + 4096 - 1) / 4096 : ℕ)) := by
  have h : u32 ((u32 x : ℕ) + 4096 - 1) = u32 (x + 4096 - 1) := by
    unfold u32
    omega
  rw [askedFor, h]

theorem askedFor_eq (need : ℕ) (hbeyond : 2 ^ 31 < need + 4096) (hle : need ≤ 2 ^ 32) :
    (need + 4096 ≤ 2 ^ 32 ∧ askedFor need = wholePages need ∧ 2 ^ 31 ≤ askedFor need ∧ askedFor need < 2 ^ 32) ∨
      (2 ^ 32 < need + 4096 ∧ askedFor need = 0) := by
  unfold askedFor u32 wholePages
  omega

theorem Uheap.allows_beyond (hbrk : h.brk < 2 ^ 32) (htotal : h.brk < h.start + 2 ^ 31) {amount : ℕ}
    (hge : 2 ^ 31 ≤ amount) (hlt : amount < 2 ^ 32) : h.Allows amount ↔ h.start + 2 ^ 32 ≤ h.brk + amount := by
  unfold Uheap.Allows Uheap.newBrk
  rw [if_neg (by omega)]
  omega

/-- The top of the heap does not go up. -/
theorem Uheap.Repr.top_le (hr : h.Repr bs) {amount : ℕ} (ha : amount = 0 ∨ (2 ^ 31 ≤ amount ∧ amount < 2 ^ 32))
    (hallows : h.Allows amount) : u32 (h.heaptop + amount) ≤ h.heaptop := by
  have hlt := hr.lt
  have htotal := hr.total
  have hbrk := hr.brk
  rcases ha with rfl | ⟨hge, ha⟩
  · unfold u32
    omega
  · rw [Uheap.allows_beyond (by omega) (by omega) hge ha] at hallows
    unfold u32
    omega

/-- Whatever is in memory, `__malloc_split` does nothing but write to it. -/
theorem mallocSplit_any {Q : Unit → Uheap → Prop} (hQ : ∀ m, Q () { h with mem := m })
    (hE : ∀ m e, e = .splitSize ∨ e = .splitScrewedUp → E e { h with mem := m }) : (mallocSplit mh size).wp c Q E h := by
  unfold mallocSplit
  rw [wp_bind]
  refine wp_errxIf_cases (fun _ => hE h.mem _ (Or.inl rfl)) fun _ => ?_
  simp only [wp_bind, wp_get]
  rw [wp_ite]
  refine ⟨fun _ => hQ h.mem, fun _ => ?_⟩
  simp only [wp_bind, wp_poke, wp_get]
  refine wp_errxIf_cases (fun _ => hE _ _ (Or.inr rfl)) fun _ => ?_
  rw [wp_ite]
  exact ⟨fun _ => hQ _, fun _ => hQ _⟩

/-- More is missing than `sbrk` can be asked for: it refuses, or the pointer points
beyond the heap. -/
theorem mallocExpand_beyond (hr : h.Repr bs) (hmh : h.LastAt bs mh) (htop : h.heaptop ≤ 2 ^ 31) (hk : size = 8 * k)
    (hsize : size < 2 ^ 32) (hbeyond : 2 ^ 31 < shortfall bs size + 4096)
    (hall : ∀ b ∈ bs, b.used = false → b.len < size + 8) {Q : ℕ → Uheap → Prop}
    (hnull : ¬ (grant (askedFor (shortfall bs size)) = true ∧ h.Allows (askedFor (shortfall bs size))) → Q 0 h)
    (hbad : h.Allows (askedFor (shortfall bs size)) → ∀ ptr h', ptr ≠ 0 → h'.heaptop + 8 ≤ ptr + size → Q ptr h')
    (hexit : h.Allows (askedFor (shortfall bs size)) → ∀ e h', e = .splitSize ∨ e = .splitScrewedUp → E e h') :
    (mallocExpand grant size mh (lastN 0 bs)).wp c Q E h := by
  have hbase := hr.base
  have htop' := hr.top
  have hasked : askedFor (shortfall bs size) = 0 ∨
      (2 ^ 31 ≤ askedFor (shortfall bs size) ∧ askedFor (shortfall bs size) < 2 ^ 32) := by
    rcases askedFor_eq _ hbeyond (by have := shortfall_le bs size; omega) with h | h
    · exact Or.inr h.2.2
    · exact Or.inl h.2
  unfold mallocExpand
  simp only [wp_bind, wp_get]
  rcases hmh.cases hr size with ⟨A, b, rfl, hbu, rfl⟩ | ⟨hmh, hneed⟩
  · obtain ⟨hdr, hend, hn, -, -, -, hle⟩ := hr.block
    have hsmall := hall b (by simp) hbu
    have hlen : b.len = 8 * b.n := rfl
    have hpos := b.len_pos
    have hcond : h.addr A ≠ 0 ∧ mhInuse h.mem (h.addr A) = 0 := ⟨by omega, by rw [hdr.inuse, hbu]; rfl⟩
    have hlt : mSize h.mem (h.addr A) < size := by
      rw [hdr.size hn]
      omega
    have hneed : u32 (size - mSize h.mem (h.addr A)) = shortfall (A ++ [b]) size := by
      rw [shortfall_free hbu, hdr.size hn, u32_sub (by omega) (by omega)]
      omega
    rw [if_pos hcond, wp_bind]
    refine (wp_errxIf _ (not_not.mpr hlt)).mpr ?_
    rw [if_pos hcond, hneed, wp_bind]
    refine mallocSbrk_wp hr (fun hnot => ?_) fun hallows => ?_
    · rw [if_pos rfl, wp_pure]
      exact hnull hnot
    have hle := hr.top_le hasked hallows
    rw [room_nil] at hend
    rw [if_neg (by omega), if_pos hcond]
    simp only [wp_bind, wp_poke, wp_pure]
    rw [← List.append_nil (A ++ [b])] at hr
    rw [hr.addr_lt]
    refine mallocSplit_any (fun m => hbad hallows _ _ (by omega) ?_) fun m e he => hexit hallows _ _ he
    exact (Nat.add_le_add_right hle 8).trans (by omega)
  · have hcond : ¬ (mh ≠ 0 ∧ mhInuse h.mem mh = 0) := by tauto
    rw [if_neg hcond, if_neg hcond, wp_bind]
    have hamount : u32 (4096 * (u32 ((u32 (8 + size) : ℕ) + 4096 - 1) / 4096 : ℕ)) = askedFor (shortfall bs size) := by
      refine (askedFor_u32 (8 + size)).trans ?_
      rw [hneed, askedFor, Nat.cast_add, add_comm (8 : ℤ)]
      rfl
    rw [hamount]
    refine mallocSbrk_wp hr (fun hnot => ?_) fun hallows => ?_
    · rw [if_pos rfl, wp_pure]
      exact hnull hnot
    have hle := hr.top_le hasked hallows
    rw [if_neg (by omega), if_neg hcond]
    simp only [wp_bind, wp_poke, wp_pure]
    have hdata : mData h.heaptop = h.heaptop + 8 := by
      unfold mData u32
      omega
    rw [hdata]
    refine mallocSplit_any (fun m => hbad hallows _ _ (by omega) ?_) fun m e he => hexit hallows _ _ he
    exact (Nat.add_le_add_right hle 8).trans (by omega)

/-! ### All sizes -/

theorem round_small (hsize : size ≤ 2 ^ 32 - 8) :
    u32 (size + 8 - 1) / 8 * 8 = 8 * ((size + 7) / 8) ∧ (size + 7) / 8 * 8 = 8 * ((size + 7) / 8) := by
  unfold u32
  omega

theorem round_large (hsize : 2 ^ 32 - 8 < size) (hlt : size < 2 ^ 32) : u32 (size + 8 - 1) / 8 * 8 = 8 * 0 := by
  unfold u32
  omega

/-- A block that `malloc` got. -/
theorem Uheap.Got.holds {h' : Uheap} {bs' : List Ublock} {x : ℕ} (hg : h.Got h' bs x k bs') (hsize : size ≤ 8 * k) :
    h'.Holds (x + 8) size := by
  obtain ⟨d, hd, hu, hn⟩ := hg.got
  rw [← hg.base] at hd
  have hbounds := laid_bounds hd
  have htop := hg.repr.top
  have hlen : d.len = 8 * d.n := rfl
  refine ⟨⟨by omega, by omega⟩, ⟨by omega, _, hg.repr.tiled, List.mem_map.mpr ⟨_, hd, rfl⟩⟩, ?_, ?_⟩
  · exact mhInuse_ne_zero hg.repr hd hu
  · obtain ⟨A, B, rfl, rfl⟩ := exists_split hd
    obtain ⟨hdr, -, hdn, -⟩ := hg.repr.block
    have hoff : mNextoff h'.mem (h'.heapbase + room Ublock.len A) = d.len := hdr.nextoff hdn
    rw [Nat.add_sub_cancel, hoff]
    omega

theorem shortfall_none (hall : ∀ b ∈ bs, b.used = true) : shortfall bs size = size + 8 :=
  shortfall_used fun b hb => hall b (List.mem_of_getLast? hb)

/-- A number that `sbrk` takes for a negative one, or for 0. -/
theorem allows_asked (hr : h.Repr bs) (hbeyond : 2 ^ 31 < shortfall bs size + 4096) (hsize : size + 8 ≤ 2 ^ 32) :
    h.Allows (askedFor (shortfall bs size)) ↔
      ¬ (shortfall bs size + 4096 ≤ 2 ^ 32 ∧ h.brk + wholePages (shortfall bs size) < h.start + 2 ^ 32) := by
  have hlt := hr.lt
  have htotal := hr.total
  have hstart := hr.start
  have htop := hr.top
  have hle := shortfall_le bs size
  have hbrk := hr.brk
  rcases askedFor_eq _ hbeyond (by omega) with ⟨hfew, heq, hge, hlt32⟩ | ⟨hmany, heq⟩
  · rw [Uheap.allows_beyond (by omega) (by omega) hge hlt32, heq]
    omega
  · rw [heq, Uheap.allows_iff (by decide)]
    omega

theorem mallocReady_right (hr : h.Repr bs) (htop : h.heaptop ≤ 2 ^ 31) (hsize : size < 2 ^ 32)
    (hfits : MallocFits h.brk h.start bs size) :
    (mallocReady grant size).wp False (fun ptr h' => if ptr = 0 then h' = h else h'.Holds ptr size) (fun _ _ => False) h := by
  unfold MallocFits at hfits
  have hgot (h' : Uheap) (bs' : List Ublock) (x k : ℕ) (hg : h.Got h' bs x k bs') (hk : size ≤ 8 * k) :
      if x + 8 = 0 then h' = h else h'.Holds (x + 8) size := by
    rw [if_neg (by omega)]
    exact hg.holds hk
  by_cases hle : size ≤ 2 ^ 32 - 8
  · obtain ⟨hk, hdata⟩ := round_small hle
    have hbig : size ≤ 8 * ((size + 7) / 8) := by omega
    simp only [if_pos hle, hdata] at hfits
    refine mallocReady_cases hr hk (fun A b B hbs hfree hn => ?_) fun mh hmh hall => ?_
    · subst hbs
      exact mallocFound_wp hr hfree rfl hn fun h' bs' hg => hgot h' bs' _ _ hg hbig
    · by_cases hshort : shortfall bs (8 * ((size + 7) / 8)) + 4096 ≤ 2 ^ 31
      · exact mallocExpand_wp hr hmh rfl hshort hall (fun _ => rfl) fun _ h' bs' x hg => hgot h' bs' x _ hg hbig
      · -- `sbrk` refuses to go below the start of the heap
        have hnot : ¬ h.Allows (askedFor (shortfall bs (8 * ((size + 7) / 8)))) := by
          rw [allows_asked hr (by omega) (by omega), not_not]
          rcases hfits with ⟨b, hb, hfree, hroom⟩ | hshort' | hrefused
          · exact absurd (hall b hb hfree) (by omega)
          · exact absurd hshort' hshort
          · exact hrefused
        exact mallocExpand_beyond hr hmh htop rfl (by omega) (by omega) hall (fun _ => rfl)
          (fun hallows => absurd hallows hnot) fun hallows => absurd hallows hnot
  · simp only [if_neg hle] at hfits
    obtain ⟨hused, hfull⟩ := hfits
    have hshort : shortfall bs (8 * 0) = 8 := shortfall_none hused
    refine mallocReady_cases hr (round_large (by omega) hsize) (fun A b B hbs hfree hn => ?_) fun mh hmh hall => ?_
    · rw [hused b (by simp [hbs])] at hfree
      exact absurd hfree.symm Bool.false_ne_true
    · refine mallocExpand_wp hr hmh rfl (by omega) hall (fun _ => rfl) fun hallows => absurd ?_ hfull
      rw [hshort, show wholePages 8 = 4096 from rfl, Uheap.allows_iff (by decide)] at hallows
      exact hallows.2

/-- Otherwise a system that grants everything makes it return a pointer to less. -/
theorem mallocReady_wrong (hr : h.Repr bs) (htop : h.heaptop ≤ 2 ^ 31) (hsize : size < 2 ^ 32)
    (hnot : ¬ MallocFits h.brk h.start bs size) :
    (mallocReady (fun _ => true) size).wp False (fun ptr h' => ptr ≠ 0 ∧ h'.heaptop < ptr + size)
      (fun e _ => e = .splitSize ∨ e = .splitScrewedUp) h := by
  unfold MallocFits at hnot
  by_cases hle : size ≤ 2 ^ 32 - 8
  · obtain ⟨hk, hdata⟩ := round_small hle
    have hbig : 8 * ((size + 7) / 8) < size + 8 := by omega
    simp only [if_pos hle, hdata, not_or] at hnot
    obtain ⟨hroom, hbeyond, hmoves⟩ := hnot
    have hallows := (allows_asked hr (by omega) (by omega)).mpr hmoves
    refine mallocReady_cases hr hk (fun A b B hbs hfree hn => ?_) fun mh hmh hall => ?_
    · refine absurd ⟨b, by simp [hbs], hfree, ?_⟩ hroom
      unfold Ublock.len
      omega
    · refine mallocExpand_beyond hr hmh htop rfl (by omega) (by omega) hall (fun hno => absurd ⟨rfl, hallows⟩ hno)
        (fun _ ptr h' hptr hend => ⟨hptr, by omega⟩) fun _ e h' he => he
  · rw [if_neg hle, not_and, not_not] at hnot
    have hpage := shortfall_le bs (8 * 0)
    refine mallocReady_fits hr (round_large (by omega) hsize) (fun _ => by omega) (fun hall hno => ?_) fun h' bs' x hg => ?_
    · have hused (b : Ublock) (hb : b ∈ bs) : b.used = true := by
        cases hu : b.used with
        | true => rfl
        | false => exact absurd (hall b hb hu) (by have := b.len_pos; omega)
      rw [shortfall_none hused, show wholePages (8 * 0 + 8) = 4096 from rfl, Uheap.allows_iff (by decide)] at hno
      have hstart := hr.start
      have hbrk := hr.brk
      have htop' := hr.top
      exact absurd ⟨rfl, by omega, hnot hused⟩ hno
    · have hlt := hg.repr.lt
      exact ⟨by omega, by omega⟩

/-! ### The first call -/

theorem Uheap.Repr.brk_mod (hr : h.Repr bs) : (h.brk + 7) / 8 * 8 = h.brk := by
  have h1 := hr.aligned
  have h2 := room_mod bs
  have h3 := hr.top
  have h4 := hr.brk
  omega

/-- `malloc` for a heap in order, or before there is one. -/
theorem malloc_cases {Q : ℕ → Uheap → Prop} (hh : h.Repr bs ∨ (h.Unset ∧ bs = []))
    (hfail : h.Unset → ∀ e h' amount, e = .initialSbrk ∨ e = .sbrkAligning → amount < 8 →
      h.brk = sbrkFailed ∨ ¬ (grant amount = true ∧ h.Allows amount) → E e h')
    (hready : ∀ h₁, h₁.Repr bs → h.Unchanged h₁ → h₁.start = h.start → h₁.brk = (h.brk + 7) / 8 * 8 →
      (mallocReady grant size).wp c Q E h₁) : (malloc grant size).wp c Q E h := by
  unfold malloc
  simp only [wp_bind, wp_get]
  rcases hh with hr | ⟨hu, rfl⟩
  · have hbase := hr.base
    rw [if_neg (by omega)]
    exact hready h hr (Or.inl rfl) rfl hr.brk_mod.symm
  · rw [if_pos hu.base, wp_bind]
    refine mallocInit_wp hu (hfail hu) fun h₁ hr hmem hstart hbrk => hready h₁ hr (Or.inr ⟨hu.base, ?_, hmem⟩) hstart hbrk
    exact hr.top.symm

/-- Over all sizes, on every heap: `malloc` returns a block of the size or NULL, whatever
the system grants, exactly where the size fits. -/
theorem malloc_right_iff (h : Uheap) (bs : List Ublock) (hh : h.Repr bs ∨ (h.Unset ∧ bs = []))
    (htop : h.brk ≤ userspacetop) (size : UInt32) :
    (∀ grant, MallocRight grant size.toNat h) ↔ MallocFits ((h.brk + 7) / 8 * 8) h.start bs size.toNat := by
  have hsize : size.toNat < 2 ^ 32 := size.toNat_lt
  have hspace : userspacetop = 2 ^ 31 := rfl
  constructor
  · intro hright
    by_contra hnot
    have hwrong : (malloc (fun _ => true) size.toNat).wp False (fun ptr h' => ptr ≠ 0 ∧ h'.heaptop < ptr + size.toNat)
        (fun e _ => e = .splitSize ∨ e = .splitScrewedUp) h := by
      refine malloc_cases hh (fun hu e h' amount _ hlt hno => ?_) fun h₁ hr _ hstart hbrk => ?_
      · have hstart := hu.start
        rw [Uheap.allows_iff (by omega)] at hno
        unfold sbrkFailed at hno
        exact absurd hno (by simp; omega)
      · refine mallocReady_wrong hr ?_ hsize ?_
        · rw [← hr.brk]
          omega
        · rw [hbrk, hstart]
          exact hnot
    rcases (hwrong.and (hright fun _ => true)).cases with ⟨ptr, h', -, ⟨hptr, hend⟩, hres⟩ | ⟨e, h', -, he, he'⟩ | ⟨-, hpanic⟩
    · rw [if_neg hptr] at hres
      exact absurd hres.inside.2 (by omega)
    · rcases he with rfl | rfl <;> simp at he'
    · exact hpanic
  · intro hfits grant
    refine malloc_cases hh (fun _ e h' amount he _ _ => he) fun h₁ hr hsame hstart hbrk => ?_
    rw [← hbrk, ← hstart] at hfits
    refine (mallocReady_right hr ?_ hsize hfits).mono (fun ptr h' hres => ?_) fun _ _ he => he.elim
    · rw [← hr.brk]
      omega
    · split_ifs at hres ⊢
      · rw [hres]
        exact hsame
      · exact hres

/-- A program that has just started asks for 100 bytes. -/
theorem malloc_right_iff_start : (Uheap.Unset ⟨0, 0, fun _ => 0, 4259840, 4259840⟩ ∧ 4259840 ≤ userspacetop) ∧
    ((∀ grant, MallocRight grant (100 : UInt32).toNat ⟨0, 0, fun _ => 0, 4259840, 4259840⟩) ↔
      MallocFits ((4259840 + 7) / 8 * 8) 4259840 [] (100 : UInt32).toNat) := by
  have hu : Uheap.Unset ⟨0, 0, fun _ => 0, 4259840, 4259840⟩ := ⟨rfl, rfl, by decide, rfl, by decide⟩
  exact ⟨⟨hu, by decide⟩, malloc_right_iff _ [] (Or.inr ⟨hu, rfl⟩) (by decide) 100⟩

/-- `malloc(0xffffffff)` in a program that has just started returns a block without
data. -/
theorem malloc_too_large : ¬ MallocRight (fun _ => true) 4294967295 ⟨0, 0, fun _ => 0, 4259840, 4259840⟩ := by
  intro hright
  have hres : (malloc (fun _ => true) 4294967295 ⟨0, 0, fun _ => 0, 4259840, 4259840⟩).map Uheap.heaptop =
      .ok 4259848 4263936 := rfl
  rcases hright.cases with ⟨ptr, h', heq, hright⟩ | ⟨e, h', heq, -⟩ | ⟨-, hpanic⟩
  · rw [heq] at hres
    obtain ⟨rfl, htop⟩ := Res.ok.inj hres
    exact absurd hright.inside.2 (by omega)
  · rw [heq] at hres
    exact absurd hres (by simp [Res.map])
  · exact hpanic

end Os161
