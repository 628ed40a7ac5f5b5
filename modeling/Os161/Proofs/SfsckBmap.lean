import Os161.Proofs.SfsRefs
import Os161.Proofs.SfsckBlocks
import Os161.Spec.SfsckBmap

/-! The kernel and `sfsck` look for a file block in the same place, but `sfsck` reads an
indirect block at an offset of 32 bits. -/

namespace Os161

open Op

namespace Fsck

variable {s : Fsck} {sfi : Block} {isdir : Bool} {c : Prop} {E : FsckExit → Fsck → Prop} {k : ℕ}

/-! ### `bmap` -/

theorem bmapMacros_eq (sfi : Block) (k : ℕ) : bmapMacros sfi k = bmap sfi k := by
  unfold bmapMacros bmap inomaxIII inomaxII inomaxI inomaxD numD numI numII numIII rangeI rangeD dbperidb
  simp only [mul_one, one_mul, mul_zero, add_zero, Nat.reduceAdd]
  by_cases h15 : k < 15
  · rw [if_pos h15, if_pos h15]
  · rw [if_neg h15, if_neg h15]
    by_cases h143 : k < 143
    · rw [if_pos h143, if_pos h143, Nat.mod_eq_of_lt (show k - 15 < 128 by omega), ibmap, getI]
      by_cases h0 : sfi.sfiIndirect = 0
      · rw [if_pos h0, if_pos h0]
      · have hassert : (Op.kassert (k - 15 < dbperidb) : FsckM Unit) = pure () := if_pos (show k - 15 < 128 by omega)
        rw [if_neg h0, if_neg h0]
        congr 1
        funext entries
        rw [if_neg (lt_irrefl 1), hassert]
        rfl
    · rw [if_neg h143, if_neg h143, if_neg h143, if_neg h143]

theorem bmap_eq_readSlot (sfi : Block) (hk : k < 143) : bmap sfi k = readSlot sfi (bmapSlot sfi k) := by
  unfold bmap bmapSlot
  by_cases h15 : k < 15
  · rw [if_pos h15, if_pos h15]
    rfl
  · rw [if_neg h15, if_neg h15, if_pos hk]
    by_cases h0 : sfi.sfiIndirect = 0
    · rw [if_pos h0, if_neg fun h => h.2 h0]
      rfl
    · rw [if_neg h0, if_pos ⟨hk, h0⟩]
      rfl

/-! ### The record does not change the walk -/

theorem wp_visitSlots {check : Pointers → ℕ → FsckM Pointers} {slot : ℕ → PointerSlot} {R : Visiting → Fsck → Prop}
    {R' : Pointers → Fsck → Prop} (hR : ∀ q t, R q t ↔ R' q.pointers t) (l : List ℕ) (p : Visiting) :
    (l.foldlM (visitSlot check slot) p).wp c R E s ↔ (l.foldlM check p.pointers).wp c R' E s := by
  induction l generalizing p s with
  | nil => exact hR p s
  | cons k rest ih =>
    rw [List.foldlM_cons, List.foldlM_cons, wp_bind, wp_bind, visitSlot, wp_bind]
    simp only [wp_pure, ih]

theorem wp_visitIndirect {ibs : Ibstate} {ientry : ℕ} {visits : Visits} {R : Visited → Fsck → Prop}
    {R' : ℕ × Bool × Ibstate → Fsck → Prop} (hR : ∀ v t, R v t ↔ R' (v.ientry, v.changed, v.ibs) t) :
    (visitIndirect isdir 1 ibs ientry visits).wp c R E s ↔ (checkIndirectBlock isdir ibs ientry).wp c R' E s := by
  unfold visitIndirect visitBlock checkIndirectBlock
  refine (wp_ite _ _ _).trans (Iff.trans (and_congr (imp_congr_right fun _ => ?_) (imp_congr_right fun _ => ?_))
    (wp_ite _ _ _).symm)
  · simp only [wp_bind]
    have hrest (p : Visiting) (t : Fsck) := hR ⟨0, true, p.pointers.ibs, p.visits⟩ t
    have hkeep (p : Visiting) (t : Fsck) := hR ⟨ientry, false, p.pointers.ibs, p.visits⟩ t
    rw [iff_iff_eq]
    congr 1
    funext entries t
    congr 1
    funext _ t
    rw [← iff_iff_eq]
    apply wp_visitSlots
    intro q t
    simp only [wp_ite, wp_bind, wp_pure, hrest, hkeep]
  · have h0 (t : Fsck) := hR ⟨0, true, { ibs with curfileblock := ibs.curfileblock + 128 }, visits⟩ t
    have hkeep (t : Fsck) := hR ⟨ientry, false, { ibs with curfileblock := ibs.curfileblock + 128 }, visits⟩ t
    simp only [dbperidb, pow_one, wp_ite, wp_bind, wp_pure, h0, hkeep]

/-- With one indirect block, and none of a higher level. -/
theorem wp_visitIndirects {p : Visiting} {R : Visiting → Fsck → Prop} : (visitIndirects isdir p).wp c R E s ↔
    (visitIndirect isdir 1 p.pointers.ibs p.pointers.block.sfiIndirect p.visits).wp c
      (fun v t => R ⟨⟨if v.changed = true then p.pointers.block.setSfiIndirect v.ientry else p.pointers.block,
        p.pointers.changed || v.changed, v.ibs⟩, v.visits⟩ t) E s := by
  unfold visitIndirects numI numII numIII
  simp only [List.range_one, List.range_zero, List.foldlM_cons, List.foldlM_nil, wp_bind, wp_pure]

theorem wp_visitInodeBlocks {R : Block × Bool → Fsck → Prop} :
    (visitInodeBlocks sfi isdir).wp c (fun w => R (w.sfi, w.changed)) E s ↔ (checkInodeBlocks sfi isdir).wp c R E s := by
  unfold visitInodeBlocks checkInodeBlocks
  rw [wp_bind, wp_bind, wp_get, wp_get, wp_bind, wp_bind]
  apply wp_visitSlots
  intro q t
  rw [wp_bind, wp_visitIndirects, wp_bind]
  apply wp_visitIndirect
  intro v u
  simp only [wp_pure, wp_bind, wp_ite]

/-! ### What the walk visits -/

/-- The counter goes up by one at each pointer, and the block is the same but for that
pointer. -/
theorem checkSlot_counter {get : Block → ℕ → ℕ} {put : Block → ℕ → ℕ → Block} (p : Pointers) :
    (checkSlot get put isdir p k).wp True
      (fun q _ => q.ibs.curfileblock = p.ibs.curfileblock + 1 ∧ q.ibs.volblocks = p.ibs.volblocks ∧
        (q.block = p.block ∨ q.block = put p.block k 0)) (fun _ _ => True) s := by
  have hpointer : (checkPointer isdir p.ibs (get p.block k)).wp True
      (fun r _ => r.2.curfileblock = p.ibs.curfileblock ∧ r.2.volblocks = p.ibs.volblocks) (fun _ _ => True) s := by
    unfold checkPointer
    simp only [wp_ite, wp_bind, wp_pure]
    refine ⟨fun _ => ?_, fun _ => ⟨fun _ => ⟨fun _ => ?_, fun _ => ?_⟩, fun _ => ⟨trivial, trivial⟩⟩⟩
    · exact wp_always (fun _ _ => ⟨trivial, trivial⟩) fun _ _ => trivial
    · exact wp_always (fun _ _ => ⟨trivial, trivial⟩) fun _ _ => trivial
    · exact wp_always (fun _ _ => wp_always (fun _ _ => ⟨trivial, trivial⟩) fun _ _ => trivial) fun _ _ => trivial
  unfold checkSlot
  rw [wp_bind]
  refine hpointer.mono (fun r t hr => ?_) fun _ _ _ => trivial
  dsimp only
  rw [wp_ite, wp_pure, wp_pure]
  refine ⟨fun _ => ⟨?_, hr.2, Or.inl rfl⟩, fun _ => ⟨?_, hr.2, Or.inr rfl⟩⟩
  · exact congrArg (· + 1) hr.1
  · exact congrArg (· + 1) hr.1

/-- The record of a loop over `n` pointers that starts at block `cur` of the file. -/
def visitsFrom (cur n : ℕ) (slot : ℕ → PointerSlot) : Visits := (List.range n).map fun k => (cur + k, slot k)

theorem visitsFrom_succ (cur n : ℕ) (slot : ℕ → PointerSlot) :
    visitsFrom cur (n + 1) slot = visitsFrom cur n slot ++ [(cur + n, slot n)] := by
  rw [visitsFrom, List.range_succ, List.map_append, List.map_cons, List.map_nil, visitsFrom]

/-- `keep` is a part of the block that setting a pointer leaves alone. -/
theorem visitSlots_record {get : Block → ℕ → ℕ} {put : Block → ℕ → ℕ → Block} {slot : ℕ → PointerSlot} {β : Type}
    (keep : Block → β) {n : ℕ} (hkeep : ∀ b k, k < n → keep (put b k 0) = keep b) (p : Visiting)
    {Q : Visiting → Fsck → Prop}
    (hQ : ∀ q t, q.visits = p.visits ++ visitsFrom p.pointers.ibs.curfileblock n slot →
      q.pointers.ibs.curfileblock = p.pointers.ibs.curfileblock + n →
      q.pointers.ibs.volblocks = p.pointers.ibs.volblocks → keep q.pointers.block = keep p.pointers.block → Q q t) :
    ((List.range n).foldlM (visitSlot (checkSlot get put isdir) slot) p).wp True Q (fun _ _ => True) s := by
  apply wp_foldlM_range fun m q (_ : Fsck) => q.visits = p.visits ++ visitsFrom p.pointers.ibs.curfileblock m slot ∧
    q.pointers.ibs.curfileblock = p.pointers.ibs.curfileblock + m ∧
    q.pointers.ibs.volblocks = p.pointers.ibs.volblocks ∧ keep q.pointers.block = keep p.pointers.block
  · rintro m hm q t ⟨hvisits, hcur, hvol, hk⟩
    rw [visitSlot, wp_bind]
    refine (checkSlot_counter q.pointers).mono (fun r u hr => ?_) fun _ _ _ => trivial
    obtain ⟨hrcur, hrvol, hblock⟩ := hr
    rw [wp_pure]
    refine ⟨?_, ?_, hrvol.trans hvol, ?_⟩
    · rw [hvisits, hcur, visitsFrom_succ, List.append_assoc]
    · rw [hrcur, hcur, Nat.add_assoc]
    · rcases hblock with hb | hb
      · rw [hb, hk]
      · rw [hb, hkeep _ _ hm, hk]
  · rintro q t ⟨hvisits, hcur, hvol, hk⟩
    exact hQ q t hvisits hcur hvol hk
  · exact ⟨by simp [visitsFrom], rfl, rfl, rfl⟩

/-- At the indirect block `ind` of a volume of `volblocks` blocks. -/
def indirectVisits (volblocks ind : ℕ) : Visits :=
  if 0 < ind ∧ ind < volblocks then visitsFrom 15 128 (.entry ind) else []

/-- Whether the indirect block is gone through or not, the counter ends behind it. -/
theorem visitIndirect_record {ibs : Ibstate} {ientry : ℕ} {visits : Visits} (hcur : ibs.curfileblock = 15)
    {Q : Visited → Fsck → Prop}
    (hQ : ∀ v t, v.visits = visits ++ indirectVisits ibs.volblocks ientry → v.ibs.curfileblock = 143 → Q v t) :
    (visitIndirect isdir 1 ibs ientry visits).wp True Q (fun _ _ => True) s := by
  unfold visitIndirect visitBlock
  rw [wp_ite]
  refine ⟨fun hin => ?_, fun hout => ?_⟩
  · have hrecord : indirectVisits ibs.volblocks ientry = visitsFrom 15 128 (.entry ientry) := if_pos hin
    rw [hrecord] at hQ
    simp only [wp_bind]
    refine wp_always (fun entries t => wp_always (fun _ u => ?_) fun _ _ => trivial) fun _ _ => trivial
    refine visitSlots_record (fun _ => ()) (fun _ _ _ => rfl) _ fun q w hvisits hend _ _ => ?_
    simp only [hcur] at hvisits hend
    rw [wp_ite]
    refine ⟨fun _ => ?_, fun _ => ?_⟩
    · simp only [wp_bind, wp_pure]
      exact wp_always (fun _ _ => wp_always (fun _ _ => hQ _ _ hvisits hend) fun _ _ => trivial) fun _ _ => trivial
    · simp only [wp_bind, wp_ite, wp_pure]
      exact ⟨fun _ => wp_always (fun _ _ => hQ _ _ hvisits hend) fun _ _ => trivial, fun _ => hQ _ _ hvisits hend⟩
  · have hrecord : indirectVisits ibs.volblocks ientry = [] := if_neg hout
    rw [hrecord, List.append_nil] at hQ
    have hend : ibs.curfileblock + dbperidb ^ 1 = 143 := by
      rw [hcur]
      rfl
    simp only [wp_bind, wp_ite, wp_pure]
    exact ⟨fun _ => wp_always (fun _ _ => hQ _ _ rfl hend) fun _ _ => trivial, fun _ => hQ _ _ rfl hend⟩

theorem visitInodeBlocks_record : (visitInodeBlocks sfi isdir).wp True
    (fun w _ => w.visits = visitsFrom 0 15 .direct ++ indirectVisits s.nblocks sfi.sfiIndirect ∧ w.curfileblock = 143)
    (fun _ _ => True) s := by
  unfold visitInodeBlocks numD
  rw [wp_bind, wp_get, wp_bind]
  refine visitSlots_record Bytes.sfiIndirect (fun _ _ hk => Bytes.sfiIndirect_setSfiDirect hk) _
    fun p t hvisits hcur hvol hind => ?_
  rw [List.nil_append] at hvisits
  dsimp only at hvisits hcur hvol hind
  rw [wp_bind, wp_visitIndirects]
  refine visitIndirect_record (hcur.trans (Nat.zero_add 15)) fun v u hv hend => ?_
  rw [hvisits, hvol, hind] at hv
  simp only [wp_bind, wp_ite, wp_pure]
  exact ⟨fun _ => wp_always (fun _ _ => ⟨hv, hend⟩) fun _ _ => trivial, fun _ => ⟨hv, hend⟩⟩

/-! ### Each place at its block -/

theorem mem_visitsFrom {cur n x : ℕ} {slot : ℕ → PointerSlot} {y : PointerSlot} :
    (x, y) ∈ visitsFrom cur n slot ↔ ∃ j < n, x = cur + j ∧ y = slot j := by
  simp only [visitsFrom, List.mem_map, List.mem_range, Prod.mk.injEq]
  exact exists_congr fun j => and_congr_right fun _ => and_congr eq_comm eq_comm

theorem mem_indirectVisits {volblocks ind x : ℕ} {y : PointerSlot} :
    (x, y) ∈ indirectVisits volblocks ind ↔
      (0 < ind ∧ ind < volblocks) ∧ ∃ j < 128, x = 15 + j ∧ y = .entry ind j := by
  unfold indirectVisits
  by_cases h : 0 < ind ∧ ind < volblocks
  · rw [if_pos h, mem_visitsFrom]
    exact (and_iff_right h).symm
  · rw [if_neg h]
    exact ⟨fun hmem => absurd hmem List.not_mem_nil, fun hmem => absurd hmem.1 h⟩

theorem mem_walk {volblocks ind x : ℕ} {y : PointerSlot} :
    (x, y) ∈ visitsFrom 0 15 .direct ++ indirectVisits volblocks ind ↔
      (x < 15 ∧ y = .direct x) ∨ ((0 < ind ∧ ind < volblocks) ∧ 15 ≤ x ∧ x < 143 ∧ y = .entry ind (x - 15)) := by
  rw [List.mem_append, mem_visitsFrom, mem_indirectVisits]
  refine or_congr ⟨?_, ?_⟩ (and_congr_right fun _ => ⟨?_, ?_⟩)
  · rintro ⟨j, hj, rfl, rfl⟩
    rw [Nat.zero_add]
    exact ⟨hj, rfl⟩
  · rintro ⟨hx, rfl⟩
    exact ⟨x, hx, (Nat.zero_add x).symm, rfl⟩
  · rintro ⟨j, hj, rfl, rfl⟩
    exact ⟨Nat.le_add_right 15 j, by omega, by rw [Nat.add_sub_cancel_left]⟩
  · rintro ⟨hle, hlt, rfl⟩
    exact ⟨x - 15, by omega, by omega, rfl⟩

theorem bmapSlot_eq_some {slot : PointerSlot} (hk : k < 143) : bmapSlot sfi k = some slot ↔
    (k < 15 ∧ slot = .direct k) ∨ (15 ≤ k ∧ sfi.sfiIndirect ≠ 0 ∧ slot = .entry sfi.sfiIndirect (k - 15)) := by
  unfold bmapSlot
  by_cases h15 : k < 15
  · rw [if_pos h15, Option.some.injEq]
    constructor
    · intro h
      exact Or.inl ⟨h15, h.symm⟩
    · rintro (⟨-, h⟩ | ⟨hge, -⟩)
      · exact h.symm
      · omega
  · rw [if_neg h15]
    by_cases h0 : sfi.sfiIndirect = 0
    · rw [if_neg fun h => h.2 h0]
      simp [h15, h0]
    · rw [if_pos ⟨hk, h0⟩, Option.some.injEq]
      constructor
      · intro h
        exact Or.inr ⟨by omega, h0, h.symm⟩
      · rintro (⟨hlt, -⟩ | ⟨-, -, h⟩)
        · exact absurd hlt h15
        · exact h.symm

theorem nodup_walk (volblocks ind : ℕ) : (visitsFrom 0 15 .direct ++ indirectVisits volblocks ind).Nodup := by
  apply List.Nodup.of_map Prod.fst
  have hfst (cur n : ℕ) (slot : ℕ → PointerSlot) : (visitsFrom cur n slot).map Prod.fst = (List.range n).map (cur + ·) := by
    simp [visitsFrom]
  have hdirect : (List.range 15).map (0 + ·) = List.range 15 := by simp only [Nat.zero_add, List.map_id']
  rw [List.map_append, hfst, hdirect]
  unfold indirectVisits
  split_ifs
  · rw [hfst, ← List.range_add]
    exact List.nodup_range
  · rw [List.map_nil, List.append_nil]
    exact List.nodup_range

theorem walkAgrees (sfi : Block) (hk : k < 143) : WalkAgrees sfi k where
  same _ _ _ _ _ := wp_visitInodeBlocks
  consults := by rw [bmapMacros_eq, bmap_eq_readSlot sfi hk]
  visits isdir s := by
    refine visitInodeBlocks_record.mono (fun w t hw => ?_) fun _ _ _ => trivial
    obtain ⟨hvisits, hend⟩ := hw
    refine ⟨fun x slot hmem => ?_, fun slot hslot hin => ?_, hend⟩
    · rw [hvisits, mem_walk] at hmem
      rw [bmapSlot_eq_some hk]
      rcases hmem with ⟨hx, rfl⟩ | ⟨hind, hle, hlt, rfl⟩
      · constructor
        · rintro (⟨-, h⟩ | ⟨-, -, h⟩)
          · exact PointerSlot.direct.inj h
          · exact absurd h (by simp)
        · rintro rfl
          exact Or.inl ⟨hx, rfl⟩
      · constructor
        · rintro (⟨-, h⟩ | ⟨hge, -, h⟩)
          · exact absurd h (by simp)
          · have := (PointerSlot.entry.inj h).2
            omega
        · rintro rfl
          exact Or.inr ⟨hle, by omega, rfl⟩
    · rw [hvisits]
      apply List.count_eq_one_of_mem (nodup_walk _ _)
      rw [mem_walk]
      rcases (bmapSlot_eq_some hk).mp hslot with ⟨hlt, rfl⟩ | ⟨hge, hne, rfl⟩
      · exact Or.inl ⟨hlt, rfl⟩
      · exact Or.inr ⟨⟨Nat.pos_of_ne_zero hne, hin⟩, hge, hk, rfl⟩

/-! ### The kernel's map -/

theorem bmap_direct (f : Fsck) (h15 : k < 15) : bmap sfi k f = .ok (sfi.sfiDirect k) f := by
  rw [bmap, if_pos h15]
  rfl

theorem bmap_absent (f : Fsck) (h15 : ¬ k < 15) (h0 : sfi.sfiIndirect = 0) : bmap sfi k f = .ok 0 f := by
  rw [bmap, if_neg h15, if_pos h0, ite_self]
  rfl

/-- The entry is read in the block that `lseek` goes to. -/
theorem bmap_indirect {f : Fsck} (h15 : ¬ k < 15) (hk : k < 143) (h0 : sfi.sfiIndirect ≠ 0)
    (hin : diskSeek sfi.sfiIndirect < f.diskblocks) :
    bmap sfi k f = .ok ((f.disk (diskSeek sfi.sfiIndirect)).idEntry (k - 15)) f := by
  apply eq_ok_of_wp
  rw [bmap, if_neg h15, if_pos hk, if_neg h0, diskread, wp_bind, wp_bind, wp_get, if_pos hin, wp_pure, wp_pure]
  exact ⟨rfl, rfl⟩

/-- What the kernel finds without allocating, if it returns. -/
theorem sfsBmap_finds {s : Sfs} {ino : ℕ} {v : SfsVnode} (hv : s.vnode ino = some v) (hk : k < 143)
    {Q : ℕ → Prop} (hdirect : k < 15 → Q (v.i.sfiDirect k)) (habsent : ¬ k < 15 → v.i.sfiIndirect = 0 → Q 0)
    (hentry : ¬ k < 15 → v.i.sfiIndirect ≠ 0 → v.i.sfiIndirect < s.dev.dBlocks →
      Q ((s.dev.sector v.i.sfiIndirect).idEntry (k - 15))) :
    (sfsBmap ino k false).wp True (fun b _ => Q b) (fun _ _ => True) s := by
  have hget {R : SfsVnode → Sfs → Prop} (hR : R v s) : (getVnode ino).wp True R (fun _ _ => True) s := by
    unfold getVnode
    simp only [wp_bind, wp_get, hv, wp_pure]
    exact hR
  unfold sfsBmap
  by_cases h15 : k < 15
  · rw [if_pos h15, sfsBmapDirect, wp_bind]
    apply hget
    rw [if_neg (by simp), wp_bind, wp_pure, wp_bind]
    exact wp_always (fun _ _ => hdirect h15) fun _ _ => trivial
  · rw [if_neg h15, if_neg (by omega), Nat.mod_eq_of_lt (show k - 15 < 128 by omega), sfsBmapIndirect, wp_bind]
    apply hget
    by_cases h0 : v.i.sfiIndirect = 0
    · rw [if_pos ⟨h0, rfl⟩]
      exact habsent h15 h0
    · rw [if_neg fun h => h0 h.1, sfsIdblock, if_neg h0, wp_bind, wp_bind]
      refine (readblock_any _ _).mono (fun b t hread => ?_) fun _ _ _ => trivial
      obtain ⟨hin, -, rfl⟩ := hread.2.2.2 (Bytes.num_lt 4 v.i 68)
      rw [wp_pure]
      dsimp only
      rw [if_neg (by simp), wp_bind, wp_pure, wp_bind]
      exact wp_always (fun _ _ => hentry h15 h0 hin) fun _ _ => trivial

/-- Up to here the offset in bytes does not wrap around, and no disk has the last block
number. -/
theorem bmapAgrees (sfi : Block) (hk : k < 143)
    (hind : k < 15 ∨ sfi.sfiIndirect < 8388608 ∨ sfi.sfiIndirect = 4294967295) : BmapAgrees sfi k := by
  rintro s ino v hv rfl f hdisk hblocks
  rw [bmapMacros_eq]
  refine sfsBmap_finds hv hk (fun h15 => bmap_direct f h15) (bmap_absent f) fun h15 h0 hin => ?_
  have hword := s.dev.word
  have hseek : diskSeek v.i.sfiIndirect = v.i.sfiIndirect := by
    unfold diskSeek
    omega
  have h := bmap_indirect (f := f) h15 hk h0 (by rw [hseek, hblocks]; exact hin)
  rw [hseek, hdisk] at h
  exact h

/-! ### An indirect block that is out of reach -/

/-- A disk that ends with the indirect block at `ind`, where the entry for file block `k`
is 5; every other block is zeroed. -/
def farDev (ind k : ℕ) (h : ind < 4294967295) : Lhd where
  dBlocks := ind + 1
  word := Nat.succ_lt_succ h
  sector b := if b = ind then (Bytes.zero : Block).setIdEntry (k - 15) 5 else Bytes.zero
  outcomes := []

/-- The inode `sfi` is in memory, on that disk. -/
def farSfs (sfi : Block) (k : ℕ) (h : sfi.sfiIndirect < 4294967295) : Sfs where
  nblocks := 6
  freemap _ := true
  freemapdirty := false
  vnodes := [⟨1, sfi, false, 1⟩]
  dev := farDev sfi.sfiIndirect k h
  kmem := []

theorem sfsBmap_far (h : sfi.sfiIndirect < 4294967295) (h15 : ¬ k < 15) (hk : k < 143) (h0 : sfi.sfiIndirect ≠ 0) :
    (sfsBmap 1 k false).wp False (fun b _ => b = 5) (fun _ _ => False) (farSfs sfi k h) := by
  have hvnode : (farSfs sfi k h).vnode 1 = some ⟨1, sfi, false, 1⟩ := rfl
  have hin : sfi.sfiIndirect < (farSfs sfi k h).dev.dBlocks := Nat.lt_succ_self _
  have hgood : ¬ List.replicate 11 .media <+: (farSfs sfi k h).dev.outcomes := by simp [farSfs, farDev]
  have hentry : ((farSfs sfi k h).dev.sector sfi.sfiIndirect).idEntry (k - 15) = 5 := by
    simp [farSfs, farDev, Bytes.idEntry_setIdEntry (show k - 15 < 128 by omega)]
  have hmapped : ∀ os, (checkMapped 5).wp False (fun _ _ => True) (fun _ _ => False)
      { farSfs sfi k h with dev := { (farSfs sfi k h).dev with outcomes := os } } := by
    intro os
    simp [checkMapped, sfsBused, farSfs, Op.kassert]
  rw [sfsBmap, if_neg h15, if_neg (by omega), Nat.mod_eq_of_lt (show k - 15 < 128 by omega), sfsBmapIndirect, wp_bind,
    getVnode, wp_bind, wp_get, hvnode, wp_pure, if_neg fun h => h0 h.1, sfsIdblock, if_neg h0, wp_bind, wp_bind]
  refine (readblock_good hin hgood _).mono (fun b t hread => ?_) fun _ _ hno => hno
  obtain ⟨os, rfl, rfl⟩ := hread
  rw [wp_pure]
  dsimp only
  rw [if_neg (by simp), wp_bind, wp_pure, wp_bind, hentry]
  exact (hmapped os).mono (fun _ _ _ => rfl) fun _ _ hno => hno

/-- The program is started on the same disk. -/
def farFsck (sfi : Block) (k : ℕ) (h : sfi.sfiIndirect < 4294967295) : Fsck :=
  start (farDev sfi.sfiIndirect k h).sector (sfi.sfiIndirect + 1) [] []

/-- It goes to a block that is zeroed. -/
theorem bmap_far (h : sfi.sfiIndirect < 4294967295) (h15 : ¬ k < 15) (hk : k < 143) (hfar : 8388608 ≤ sfi.sfiIndirect) :
    bmapMacros sfi k (farFsck sfi k h) = .ok 0 (farFsck sfi k h) := by
  have hlow : diskSeek sfi.sfiIndirect < sfi.sfiIndirect := by
    unfold diskSeek
    omega
  have hin : diskSeek sfi.sfiIndirect < (farFsck sfi k h).diskblocks := Nat.lt_succ_of_lt hlow
  have hzero : (farFsck sfi k h).disk (diskSeek sfi.sfiIndirect) = Bytes.zero := if_neg hlow.ne
  rw [bmapMacros_eq, bmap_indirect h15 hk (by omega) hin, hzero, Bytes.idEntry_zero]

theorem sfsBmap_far_eq (h : sfi.sfiIndirect < 4294967295) (h15 : ¬ k < 15) (hk : k < 143) (h0 : sfi.sfiIndirect ≠ 0) :
    ∃ t, sfsBmap 1 k false (farSfs sfi k h) = .ok 5 t := by
  obtain ⟨b, t, hrun, rfl⟩ | ⟨_, _, _, hno⟩ | ⟨_, hno⟩ := (sfsBmap_far h h15 hk h0).cases
  · exact ⟨t, hrun⟩
  · exact hno.elim
  · exact hno.elim

theorem not_bmapAgrees_far (h : sfi.sfiIndirect < 4294967295) (h15 : ¬ k < 15) (hk : k < 143)
    (hfar : 8388608 ≤ sfi.sfiIndirect) : ¬ BmapAgrees sfi k := by
  intro hagrees
  obtain ⟨t, hrun⟩ := sfsBmap_far_eq h h15 hk (by omega)
  have hkernel := hagrees (farSfs sfi k h) 1 ⟨1, sfi, false, 1⟩ rfl rfl (farFsck sfi k h) rfl rfl
  unfold Op.wp at hkernel
  rw [hrun, bmap_far h h15 hk hfar] at hkernel
  exact absurd (Res.ok.inj hkernel).1 (by decide)

/-- For every inode and every file block below 143: the kernel and `sfsck` find the same
block whatever the disk holds, and the walk of pass 1 comes to the pointer that `bmap`
consults with its counter at that block, exactly if the indirect block is not needed, lies
within the first 4 GB, or can be on no disk. -/
theorem bmap_agrees_iff_within_reach (sfi : Block) (k : ℕ) (hk : k < 143) : BmapAgrees sfi k ∧ WalkAgrees sfi k ↔
    k < 15 ∨ sfi.sfiIndirect < 8388608 ∨ sfi.sfiIndirect = 4294967295 := by
  constructor
  · intro h
    have hword : sfi.sfiIndirect < 4294967296 := Bytes.num_lt 4 sfi 68
    by_contra hfar
    exact not_bmapAgrees_far (by omega) (by omega) hk (by omega) h.1
  · intro h
    exact ⟨bmapAgrees sfi hk h, walkAgrees sfi hk⟩

theorem bmap_agrees_iff_within_reach_entry : 15 < 143 ∧
    (BmapAgrees (Bytes.zero.setSfiIndirect 7) 15 ∧ WalkAgrees (Bytes.zero.setSfiIndirect 7) 15 ↔
      15 < 15 ∨ (Bytes.zero.setSfiIndirect 7 : Block).sfiIndirect < 8388608 ∨
        (Bytes.zero.setSfiIndirect 7 : Block).sfiIndirect = 4294967295) :=
  ⟨by decide, bmap_agrees_iff_within_reach _ 15 (by decide)⟩

/-- The indirect block is at 4 GB: the kernel finds block 5, and `sfsck` finds none. -/
theorem bmap_disagrees_at_four_gb : ∃ (s : Sfs) (v : SfsVnode) (f : Fsck), s.vnode 1 = some v ∧
    v.i = Bytes.zero.setSfiIndirect 8388608 ∧ f.disk = s.dev.sector ∧ f.diskblocks = s.dev.dBlocks ∧
    (∃ t, sfsBmap 1 15 false s = .ok 5 t) ∧ bmapMacros v.i 15 f = .ok 0 f := by
  have hind : (Bytes.zero.setSfiIndirect 8388608 : Block).sfiIndirect = 8388608 :=
    Bytes.sfiIndirect_setSfiIndirect (by decide)
  have h : (Bytes.zero.setSfiIndirect 8388608 : Block).sfiIndirect < 4294967295 := by omega
  refine ⟨farSfs _ 15 h, _, farFsck _ 15 h, rfl, rfl, rfl, rfl, ?_, ?_⟩
  · exact sfsBmap_far_eq h (by decide) (by decide) (by omega)
  · exact bmap_far h (by decide) (by decide) (by omega)

end Fsck

end Os161
