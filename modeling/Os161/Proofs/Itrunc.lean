import Os161.Proofs.Freemap
import Os161.Spec.Itrunc

/-! Truncation of a file in any state of the volume and with any errors of the disk. The
loop over the direct blocks is exact; the loop over the indirect block passes over the
first block behind the new end, and nothing is done about the last block of a file of
full length. A write of the indirect block that fails is not noticed. -/

namespace Os161

open Op

variable {s t u : Sfs} {ino n k : ℕ}

theorem sfsBfree_any {b : ℕ} {Q : Unit → Sfs → Prop} {E : Errno → Sfs → Prop} (hQ : Q () (s.freed b)) :
    (sfsBfree b).wp True Q E s := by
  unfold sfsBfree bitmapUnmark
  simp only [wp_bind, wp_get, wp_kassert_true, wp_set, wp_modify]
  intro _ _
  exact hQ

theorem Sfs.inode_of_vnode {v : SfsVnode} (h : s.vnode ino = some v) : s.inode ino = v.i := by
  rw [Sfs.inode, h]

theorem Sfs.vnode_dirtied {v : SfsVnode} (h : s.vnode ino = some v) (g : Block → Block) :
    (s.dirtied ino g).vnode ino = some { v with i := g v.i, dirty := true } := by
  have hvnode := Sfs.vnode_setVnode (s := s) (i := ino) (f := fun v => { v with i := g v.i, dirty := true })
    (fun _ => rfl) ino
  rw [if_pos rfl, h] at hvnode
  exact hvnode

theorem Sfs.inode_dirtied {v : SfsVnode} (h : s.vnode ino = some v) (g : Block → Block) :
    (s.dirtied ino g).inode ino = g (s.inode ino) := by
  rw [Sfs.inode_of_vnode h]
  exact Sfs.inode_of_vnode (Sfs.vnode_dirtied h g)

/-! ### The direct blocks -/

/-- From `s` to `t` the direct blocks from `n` on were given back, as far as `k`. -/
structure DirectsCut (s t : Sfs) (ino n k : ℕ) : Prop where
  dev : t.dev = s.dev
  direct : ∀ j < 15, (t.inode ino).sfiDirect j = if j < k ∧ n ≤ j then 0 else (s.inode ino).sfiDirect j
  indirect : (t.inode ino).sfiIndirect = (s.inode ino).sfiIndirect
  marked : ∀ b, s.freemap b = true → (∀ j < 15, n ≤ j → (s.inode ino).sfiDirect j ≠ b) → t.freemap b = true

theorem DirectsCut.free {v : SfsVnode} (h : DirectsCut s t ino n k) (hk : k < 15) (hv : t.vnode ino = some v) (hn : n ≤ k) :
    DirectsCut s ((t.freed (v.i.sfiDirect k)).dirtied ino (·.setSfiDirect k 0)) ino n (k + 1) := by
  have hi : t.inode ino = v.i := Sfs.inode_of_vnode hv
  have hinode : ((t.freed (v.i.sfiDirect k)).dirtied ino (·.setSfiDirect k 0)).inode ino = v.i.setSfiDirect k 0 := by
    rw [Sfs.inode_dirtied (s := t.freed (v.i.sfiDirect k)) hv]
    exact congrArg (·.setSfiDirect k 0) hi
  refine ⟨h.dev, ?_, ?_, ?_⟩
  · intro j hj
    rw [hinode, Bytes.sfiDirect_setSfiDirect hk (by decide), ← hi, h.direct j hj]
    by_cases hjk : j = k
    · rw [if_pos hjk, if_pos (by omega)]
    · rw [if_neg hjk]
      by_cases hcut : j < k ∧ n ≤ j
      · rw [if_pos hcut, if_pos (by omega)]
      · rw [if_neg hcut, if_neg (by omega)]
  · rw [hinode, Bytes.sfiIndirect_setSfiDirect hk, ← hi, h.indirect]
  · intro b hb hne
    have hdirect := h.direct k hk
    rw [if_neg (by omega), hi] at hdirect
    have hbk : b ≠ v.i.sfiDirect k := by
      rw [hdirect]
      exact (hne k hk hn).symm
    exact (Function.update_of_ne hbk ..).trans (h.marked b hb hne)

theorem truncDirect_any (h : DirectsCut s t ino n k) (hk : k < 15) :
    (truncDirect ino n k).wp True (fun _ u => DirectsCut s u ino n (k + 1)) (fun _ _ => False) t := by
  rw [truncDirect, wp_bind]
  apply getVnode_any
  intro v hv _ _
  rw [wp_ite]
  constructor
  · rintro ⟨hn, -⟩
    rw [wp_bind]
    apply sfsBfree_any
    exact h.free hk hv hn
  · intro hno
    refine ⟨h.dev, ?_, h.indirect, h.marked⟩
    intro j hj
    have hold := h.direct j hj
    rw [hold]
    by_cases hjk : j = k ∧ n ≤ j
    · obtain ⟨rfl, hn⟩ := hjk
      rw [if_neg (by omega)] at hold ⊢
      rw [if_pos (by omega), ← hold, Sfs.inode_of_vnode hv]
      by_contra hne
      exact hno ⟨hn, hne⟩
    · by_cases hcut : j < k ∧ n ≤ j
      · rw [if_pos hcut, if_pos (by omega)]
      · rw [if_neg hcut, if_neg (by omega)]

theorem truncDirects_any (s : Sfs) (ino n : ℕ) : ((List.range 15).foldlM (fun _ i => truncDirect ino n i) ()).wp True
    (fun _ t => DirectsCut s t ino n 15) (fun _ _ => False) s := by
  apply wp_foldlM_range (fun k (_ : Unit) t => DirectsCut s t ino n k)
  · intro k hk _ t ht
    exact truncDirect_any ht hk
  · intro _ t ht
    exact ht
  · exact ⟨rfl, fun j _ => by rw [if_neg (by omega)], rfl, fun _ hb _ => hb⟩

/-! ### The indirect block -/

/-- The buffer after `k` entries of the block `idbuf`. -/
structure EntriesCut (idbuf : Block) (n k : ℕ) (T : TruncState) : Prop where
  entry : ∀ j < 128, T.idbuf.idEntry j = if j < k ∧ n < 15 + j then 0 else idbuf.idEntry j
  hasnonzero : T.hasnonzero = true ↔ ∃ j < k, 15 + j ≤ n ∧ idbuf.idEntry j ≠ 0
  iddirty : T.iddirty = true ↔ ∃ j < k, n < 15 + j ∧ idbuf.idEntry j ≠ 0

/-- Blocks are given back, and nothing else changes. -/
def OnlyFrees (s t : Sfs) : Prop := t.dev = s.dev ∧ t.vnodes = s.vnodes

theorem EntriesCut.skip {idbuf : Block} {T : TruncState} (h : EntriesCut idbuf n k T) (hk : k < 128)
    (hno : ¬ (n < 15 + k ∧ T.idbuf.idEntry k ≠ 0)) :
    EntriesCut idbuf n (k + 1) { T with hasnonzero := T.hasnonzero || decide (T.idbuf.idEntry k ≠ 0) } := by
  have hkept := h.entry k hk
  rw [if_neg (by omega)] at hkept
  refine ⟨?_, ?_, ?_⟩
  · intro j hj
    simp only [h.entry j hj]
    by_cases hjk : j = k ∧ n < 15 + j
    · obtain ⟨rfl, hn⟩ := hjk
      rw [if_neg (by omega), if_pos (by omega)]
      by_contra hne
      exact hno ⟨hn, by rwa [hkept]⟩
    · by_cases hcut : j < k ∧ n < 15 + j
      · rw [if_pos hcut, if_pos (by omega)]
      · rw [if_neg hcut, if_neg (by omega)]
  · simp only [Bool.or_eq_true, h.hasnonzero, decide_eq_true_eq, hkept]
    constructor
    · rintro (⟨j, hj, hjn, hne⟩ | hne)
      · exact ⟨j, by omega, hjn, hne⟩
      · refine ⟨k, by omega, ?_, hne⟩
        by_contra hn
        exact hno ⟨by omega, by rwa [hkept]⟩
    · rintro ⟨j, hj, hjn, hne⟩
      by_cases hjk : j = k
      · exact Or.inr (hjk ▸ hne)
      · exact Or.inl ⟨j, by omega, hjn, hne⟩
  · simp only [h.iddirty]
    constructor
    · rintro ⟨j, hj, hjn, hne⟩
      exact ⟨j, by omega, hjn, hne⟩
    · rintro ⟨j, hj, hjn, hne⟩
      by_cases hjk : j = k
      · subst hjk
        exact absurd ⟨hjn, by rwa [hkept]⟩ hno
      · exact ⟨j, by omega, hjn, hne⟩

theorem EntriesCut.cut {idbuf : Block} {T : TruncState} (h : EntriesCut idbuf n k T) (hk : k < 128)
    (hn : n < 15 + k) (hne : T.idbuf.idEntry k ≠ 0) :
    EntriesCut idbuf n (k + 1) ⟨T.idbuf.setIdEntry k 0, T.hasnonzero, true⟩ := by
  have hkept := h.entry k hk
  rw [if_neg (by omega)] at hkept
  refine ⟨?_, ?_, ?_⟩
  · intro j hj
    simp only [Bytes.idEntry_setIdEntry hk (by decide : 0 < 4294967296), h.entry j hj]
    by_cases hjk : j = k
    · rw [if_pos hjk, if_pos (by omega)]
    · rw [if_neg hjk]
      by_cases hcut : j < k ∧ n < 15 + j
      · rw [if_pos hcut, if_pos (by omega)]
      · rw [if_neg hcut, if_neg (by omega)]
  · simp only [h.hasnonzero]
    constructor
    · rintro ⟨j, hj, hjn, hj0⟩
      exact ⟨j, by omega, hjn, hj0⟩
    · rintro ⟨j, hj, hjn, hj0⟩
      exact ⟨j, by omega, hjn, hj0⟩
  · simp only [true_iff]
    exact ⟨k, by omega, hn, by rwa [← hkept]⟩

theorem truncEntry_any {idbuf : Block} {T : TruncState} {E : Errno → Sfs → Prop} (h : EntriesCut idbuf n k T)
    (hst : OnlyFrees s t) (hk : k < 128) :
    (truncEntry n T k).wp True (fun T' u => EntriesCut idbuf n (k + 1) T' ∧ OnlyFrees s u) E t := by
  rw [truncEntry, wp_ite]
  constructor
  · rintro ⟨hn, hne⟩
    rw [wp_bind]
    apply sfsBfree_any
    have hsame : (T.hasnonzero || decide ((T.idbuf.setIdEntry k 0).idEntry k ≠ 0)) = T.hasnonzero := by
      rw [Bytes.idEntry_setIdEntry hk (by decide), if_pos rfl]
      simp
    refine ⟨?_, hst⟩
    simp only [hsame]
    exact h.cut hk hn hne
  · intro hno
    exact ⟨h.skip hk hno, hst⟩

/-- A read of a block that a pointer names. -/
theorem readblock_exact {b : ℕ} (hb : b < 4294967296) (x : Block) : (onDev (sfsReadblock b x)).wp True
    (fun y t => y = s.dev.sector b ∧
      t = { s with dev := { s.dev with outcomes := (s.dev.outcomes.dropWhile (· = .media)).tail } })
    (fun _ t => ∃ os, t = { s with dev := { s.dev with outcomes := os } }) s := by
  rw [onDev, wp_zoom]
  unfold Op.wp
  rcases Nat.lt_or_ge b s.dev.dBlocks with hin | hout
  · obtain ⟨-, os, he⟩ | ⟨-, he⟩ := sfsReadblock_exact hin x
    · rw [he]
      exact ⟨os, rfl⟩
    · rw [he]
      exact ⟨rfl, rfl⟩
  · rw [sfsReadblock, sfsBlock_out hb hout]
    trivial

/-- A write returns no error. -/
theorem writeblock_exact {b : ℕ} (hb : b < 4294967296) (x : Block) : (onDev (sfsWriteblock b x)).wp True
    (fun _ t => t.vnodes = s.vnodes ∧ t.dev.sector =
      if s.dev.outcomes.head? = some .media then s.dev.sector else Function.update s.dev.sector b x)
    (fun _ _ => False) s := by
  rw [onDev, wp_zoom]
  rcases Nat.lt_or_ge b s.dev.dBlocks with hin | hout
  · unfold Op.wp
    rw [sfsWriteblock_eq hin]
    refine ⟨rfl, ?_⟩
    split_ifs <;> rfl
  · rw [sfsWriteblock, wp_bind]
    unfold Op.wp
    rw [sfsBlock_out hb hout]
    trivial

/-- From `t` to `u` the indirect block `b` was cut down to what is before file block
`n + 1`, or given back. -/
structure IndirectCut (t u : Sfs) (ino b n : ℕ) : Prop where
  dropped : (∀ j < 128, 15 + j ≤ n → (t.dev.sector b).idEntry j = 0) →
    u.inode ino = (t.inode ino).setSfiIndirect 0
  kept : (∃ j < 128, 15 + j ≤ n ∧ (t.dev.sector b).idEntry j ≠ 0) → u.inode ino = t.inode ino ∧
    ∀ j < 128, (u.dev.sector b).idEntry j =
      if n < 15 + j ∧ ¬ t.dev.mediaNext then 0 else (t.dev.sector b).idEntry j

theorem Sfs.inode_congr (h : t.vnodes = s.vnodes) : t.inode ino = s.inode ino := by
  rw [Sfs.inode, Sfs.inode, Sfs.vnode, Sfs.vnode, h]

/-- What becomes of the indirect block after the loop. -/
theorem truncWriteback_any {b : ℕ} {v : SfsVnode} {T : TruncState} {E : Errno → Sfs → Prop} (hb : b < 4294967296)
    (hv : t.vnode ino = some v) (hT : EntriesCut (t.dev.sector b) n 128 T)
    (hdev : u.dev = { t.dev with outcomes := (t.dev.outcomes.dropWhile (· = .media)).tail }) (hvnodes : u.vnodes = t.vnodes) :
    Op.wp True (if T.hasnonzero = false then do
        sfsBfree b
        dirtyInode ino (·.setSfiIndirect 0)
      else if T.iddirty = true then onDev (sfsWriteblock b T.idbuf) else pure ())
      (fun _ w => (∃ v, w.vnode ino = some v) ∧ IndirectCut t w ino b n) E u := by
  have hvu : u.vnode ino = some v := by rw [Sfs.vnode, hvnodes, ← hv, Sfs.vnode]
  have hinode : u.inode ino = t.inode ino := Sfs.inode_congr hvnodes
  have hsector : u.dev.sector = t.dev.sector := by rw [hdev]
  have hlost : u.dev.outcomes.head? = some .media ↔ t.dev.mediaNext := by
    rw [hdev]
    rfl
  rw [wp_ite, wp_ite]
  refine ⟨?_, ?_⟩
  · intro hzero
    have hnone : ∀ j < 128, 15 + j ≤ n → (t.dev.sector b).idEntry j = 0 := by
      intro j hj hjn
      by_contra hne
      have := hT.hasnonzero.mpr ⟨j, hj, hjn, hne⟩
      simp [hzero] at this
    rw [wp_bind]
    apply sfsBfree_any
    rw [dirtyInode_wp]
    refine ⟨⟨_, Sfs.vnode_dirtied (s := u.freed b) hvu _⟩, ?_, ?_⟩
    · intro _
      rw [Sfs.inode_dirtied (s := u.freed b) hvu]
      exact congrArg (·.setSfiIndirect 0) hinode
    · rintro ⟨j, hj, hjn, hne⟩
      exact absurd (hnone j hj hjn) hne
  · intro hkept
    have hsome : ∃ j < 128, 15 + j ≤ n ∧ (t.dev.sector b).idEntry j ≠ 0 := hT.hasnonzero.mp (by simpa using hkept)
    have hdrop {w : Sfs} (hno : ∀ j < 128, 15 + j ≤ n → (t.dev.sector b).idEntry j = 0) :
        w.inode ino = (t.inode ino).setSfiIndirect 0 := by
      obtain ⟨j, hj, hjn, hne⟩ := hsome
      exact absurd (hno j hj hjn) hne
    refine ⟨?_, ?_⟩
    · intro _
      apply (writeblock_exact hb T.idbuf).mono
      · rintro _ w ⟨hw, hwsector⟩
        have hvw : w.vnode ino = some v := by rw [Sfs.vnode, hw, ← hvu, Sfs.vnode]
        refine ⟨⟨v, hvw⟩, hdrop, fun _ => ⟨(Sfs.inode_congr hw).trans hinode, ?_⟩⟩
        intro j hj
        rw [hwsector, hsector]
        by_cases hmedia : t.dev.mediaNext
        · rw [if_pos (hlost.mpr hmedia), if_neg (by simp [hmedia])]
        · rw [if_neg (mt hlost.mp hmedia), Function.update_self, hT.entry j hj]
          simp [hmedia, hj]
      · intro _ _ hno
        exact hno.elim
    · intro hclean
      refine ⟨⟨v, hvu⟩, hdrop, fun _ => ⟨hinode, ?_⟩⟩
      intro j hj
      rw [hsector]
      split_ifs with hcut
      · by_contra hne
        exact hclean (hT.iddirty.mpr ⟨j, hj, hcut.1, hne⟩)
      · rfl

theorem truncIndirect_any {b : ℕ} {v : SfsVnode} (hb : b < 4294967296) (hv : t.vnode ino = some v) :
    (truncIndirect ino b n).wp True (fun _ u => (∃ w, u.vnode ino = some w) ∧ IndirectCut t u ino b n)
      (fun _ u => ∃ os, u = { t with dev := { t.dev with outcomes := os } }) t := by
  rw [truncIndirect, wp_bind]
  apply (readblock_exact hb _).mono
  · rintro idbuf t₁ ⟨rfl, rfl⟩
    rw [wp_bind]
    apply wp_foldlM_range (fun k T u => EntriesCut (t.dev.sector b) n k T ∧
      OnlyFrees { t with dev := { t.dev with outcomes := (t.dev.outcomes.dropWhile (· = .media)).tail } } u)
    · rintro k hk T u ⟨hT, hu⟩
      exact truncEntry_any hT hu hk
    · rintro T u ⟨hT, hdev, hvnodes⟩
      exact truncWriteback_any hb hv hT hdev hvnodes
    · exact ⟨⟨fun j _ => by rw [if_neg (by omega)], by simp, by simp⟩, rfl, rfl⟩
  · intro _ u hu
    exact hu

/-! ### The whole truncation -/

/-- What `sfs_itrunc` has done to the file when it returns 0. -/
structure Itrunced (s t : Sfs) (ino n : ℕ) : Prop where
  direct : ∀ fb < 15, t.fileMap ino fb = if n ≤ fb then 0 else s.fileMap ino fb
  skipped : ¬ (n < 142 ∧ (s.inode ino).sfiIndirect ≠ 0) →
    (t.inode ino).sfiIndirect = (s.inode ino).sfiIndirect ∧ ∀ fb, 15 ≤ fb → t.fileMap ino fb = s.fileMap ino fb
  dropped : n < 142 → (∀ fb < 143, fb ≤ n → 15 ≤ fb → s.fileMap ino fb = 0) → (t.inode ino).sfiIndirect = 0
  cut : n < 142 → (∃ fb ≤ n, 15 ≤ fb ∧ s.fileMap ino fb ≠ 0) →
    (t.inode ino).sfiIndirect = (s.inode ino).sfiIndirect ∧
      ∀ fb < 143, 15 ≤ fb → t.fileMap ino fb = if n < fb ∧ ¬ s.dev.mediaNext then 0 else s.fileMap ino fb

/-- The part of the file map behind the indirect block. -/
theorem Sfs.fileMap_entry (h0 : (s.inode ino).sfiIndirect ≠ 0) (j : ℕ) :
    s.fileMap ino (15 + j) = (s.dev.sector (s.inode ino).sfiIndirect).idEntry j := by
  rw [Sfs.fileMap, if_neg (by omega), if_neg h0, Sfs.idblock, Nat.add_sub_cancel_left]

theorem Sfs.fileMap_noInd (h0 : (s.inode ino).sfiIndirect = 0) {fb : ℕ} (hfb : 15 ≤ fb) : s.fileMap ino fb = 0 := by
  rw [Sfs.fileMap, if_neg (by omega), if_pos h0]

theorem Sfs.fileMap_direct {fb : ℕ} (hfb : fb < 15) : s.fileMap ino fb = (s.inode ino).sfiDirect fb := if_pos hfb

/-- Setting the size leaves the map alone. -/
theorem Itrunced.setSize {v : SfsVnode} (h : Itrunced s t ino n) (hv : t.vnode ino = some v) (size : ℕ) :
    Itrunced s (t.dirtied ino (·.setSfiSize size)) ino n := by
  have hp := Bytes.samePointers_setNum (b := t.inode ino) (w := 4) (o := 0) (by omega) size
  have hind : ((t.dirtied ino (·.setSfiSize size)).inode ino).sfiIndirect = (t.inode ino).sfiIndirect := by
    rw [Sfs.inode_dirtied hv]
    exact hp.indirect
  have hmap (fb : ℕ) : (t.dirtied ino (·.setSfiSize size)).fileMap ino fb = t.fileMap ino fb := by
    rw [Sfs.fileMap, Sfs.fileMap, Sfs.idblock, Sfs.idblock, hind, Sfs.inode_dirtied hv]
    exact congrArg₂ _ (hp.direct fb) rfl
  refine ⟨?_, ?_, ?_, ?_⟩
  · intro fb hfb
    rw [hmap, h.direct fb hfb]
  · intro hskip
    rw [hind]
    exact ⟨(h.skipped hskip).1, fun fb hfb => by rw [hmap, (h.skipped hskip).2 fb hfb]⟩
  · rw [hind]
    exact h.dropped
  · intro hn hkept
    rw [hind]
    exact ⟨(h.cut hn hkept).1, fun fb hfb h15 => by rw [hmap, (h.cut hn hkept).2 fb hfb h15]⟩

theorem DirectsCut.fileMap_direct (h : DirectsCut s t ino n 15) {fb : ℕ} (hfb : fb < 15) :
    (t.inode ino).sfiDirect fb = if n ≤ fb then 0 else s.fileMap ino fb := by
  rw [h.direct fb hfb, Sfs.fileMap_direct hfb]
  simp [hfb]

/-- The indirect block is not looked at. -/
theorem DirectsCut.itrunced (h : DirectsCut s t ino n 15) (hskip : ¬ (n < 142 ∧ (s.inode ino).sfiIndirect ≠ 0)) :
    Itrunced s t ino n := by
  have hmap (fb : ℕ) (hfb : 15 ≤ fb) : t.fileMap ino fb = s.fileMap ino fb := by
    have h15 : ¬ fb < 15 := by omega
    simp only [Sfs.fileMap, Sfs.idblock, h.indirect, h.dev, if_neg h15]
  refine ⟨?_, fun _ => ⟨h.indirect, hmap⟩, ?_, ?_⟩
  · intro fb hfb
    rw [Sfs.fileMap_direct hfb, h.fileMap_direct hfb]
  · intro hn _
    rw [h.indirect]
    by_contra h0
    exact hskip ⟨hn, h0⟩
  · rintro hn ⟨fb, -, h15, hne⟩
    refine absurd (Sfs.fileMap_noInd ?_ h15) hne
    by_contra h0
    exact hskip ⟨hn, h0⟩

theorem IndirectCut.itrunced (h : IndirectCut t u ino (s.inode ino).sfiIndirect n) (ht : DirectsCut s t ino n 15)
    (h0 : (s.inode ino).sfiIndirect ≠ 0) (hn : n < 142) : Itrunced s u ino n := by
  have hentry (j : ℕ) : (t.dev.sector (s.inode ino).sfiIndirect).idEntry j = s.fileMap ino (15 + j) := by
    rw [Sfs.fileMap_entry h0, ht.dev]
  obtain ⟨hdropped, hkept⟩ := h
  simp only [hentry] at hdropped hkept
  have hdirect (fb : ℕ) (hfb : fb < 15) : (u.inode ino).sfiDirect fb = (t.inode ino).sfiDirect fb := by
    by_cases hsome : ∃ j < 128, 15 + j ≤ n ∧ s.fileMap ino (15 + j) ≠ 0
    · rw [(hkept hsome).1]
    · rw [hdropped, Bytes.sfiDirect_setSfiIndirect hfb]
      intro j hj hjn
      by_contra hne
      exact hsome ⟨j, hj, hjn, hne⟩
  refine ⟨?_, fun hskip => absurd ⟨hn, h0⟩ hskip, ?_, ?_⟩
  · intro fb hfb
    rw [Sfs.fileMap_direct hfb, hdirect fb hfb, ht.fileMap_direct hfb]
  · intro _ hnone
    have hall : ∀ j < 128, 15 + j ≤ n → s.fileMap ino (15 + j) = 0 :=
      fun j hj hjn => hnone (15 + j) (by omega) hjn (by omega)
    rw [hdropped hall, Bytes.sfiIndirect_setSfiIndirect (by decide)]
  · rintro _ ⟨fb, hfb, h15, hne⟩
    have hsome : ∃ j < 128, 15 + j ≤ n ∧ s.fileMap ino (15 + j) ≠ 0 :=
      ⟨fb - 15, by omega, by omega, by rwa [Nat.add_sub_cancel' h15]⟩
    obtain ⟨hinode, hentries⟩ := hkept hsome
    have hind : (u.inode ino).sfiIndirect = (s.inode ino).sfiIndirect := by rw [hinode, ht.indirect]
    refine ⟨hind, ?_⟩
    intro fb hfb h15
    obtain ⟨j, rfl⟩ := Nat.exists_eq_add_of_le h15
    rw [Sfs.fileMap_entry (hind ▸ h0), hind, hentries j (by omega), ht.dev]

theorem sfsItrunc_any (s : Sfs) (ino : ℕ) (len : ℤ) : (sfsItrunc ino len).wp True
    (fun _ t => Itrunced s t ino (u32 ((len + 511).tdiv 512)))
    (fun _ t => ∃ u os, DirectsCut s u ino (u32 ((len + 511).tdiv 512)) 15 ∧ t = { u with dev := { u.dev with outcomes := os } })
    s := by
  unfold sfsItrunc
  generalize u32 ((len + 511).tdiv 512) = n
  rw [wp_bind]
  apply (truncDirects_any s ino n).mono
  · intro _ t ht
    rw [wp_bind]
    apply getVnode_any
    intro v hv _ _
    have hind : v.i.sfiIndirect = (s.inode ino).sfiIndirect := by rw [← Sfs.inode_of_vnode hv, ht.indirect]
    rw [hind, wp_ite]
    constructor
    · rintro ⟨hn, h0⟩
      rw [wp_bind]
      apply (truncIndirect_any (Bytes.num_lt ..) hv).mono
      · rintro _ u ⟨⟨w, hw⟩, hcut⟩
        exact (hcut.itrunced ht h0 hn).setSize hw _
      · rintro _ u ⟨os, rfl⟩
        exact ⟨t, os, ht, rfl⟩
    · intro hskip
      exact (ht.itrunced hskip).setSize hv _
  · intro _ _ hno
    exact hno.elim

/-! ### What is left -/

/-- An entry before the new end, or the one just behind it, keeps the indirect block. -/
def KeepsSome (s : Sfs) (ino n : ℕ) : Prop := ∃ fb ≤ n, 15 ≤ fb ∧ s.fileMap ino fb ≠ 0

theorem not_keepsSome (h : ¬ KeepsSome s ino n) {fb : ℕ} (hfb : fb ≤ n) (h15 : 15 ≤ fb) : s.fileMap ino fb = 0 := by
  by_contra hne
  exact h ⟨fb, hfb, h15, hne⟩

theorem Itrunced.noInd (h : Itrunced s t ino n) (hn : n < 142) (hnone : ¬ KeepsSome s ino n) :
    (t.inode ino).sfiIndirect = 0 :=
  h.dropped hn fun _ _ hfb h15 => not_keepsSome hnone hfb h15

theorem Itrunced.gone (h : Itrunced s t ino n) (hone : ¬ KeepsOne s ino n) (hlost : ¬ LosesCut s ino n) {fb : ℕ}
    (hfb : fb < 143) (hle : n ≤ fb) : t.fileMap ino fb = 0 := by
  rcases Nat.lt_or_ge fb 15 with h15 | h15
  · rw [h.direct fb h15, if_pos hle]
  · have hfirst : fb = n → s.fileMap ino fb = 0 := by
      rintro rfl
      by_contra hne
      exact hone ⟨h15, hfb, hne⟩
    by_cases hskip : n < 142 ∧ (s.inode ino).sfiIndirect ≠ 0
    · by_cases hkept : KeepsSome s ino n
      · rw [(h.cut hskip.1 hkept).2 fb hfb h15]
        split_ifs with hcut
        · rfl
        · by_contra hne
          have hbehind : n < fb := by
            by_contra hnot
            exact hne (hfirst (by omega))
          refine hlost ⟨hskip.1, ⟨fb, hfb, hbehind, h15, hne⟩, hkept, ?_⟩
          by_contra hmedia
          exact hcut ⟨hbehind, hmedia⟩
      · exact Sfs.fileMap_noInd (h.noInd hskip.1 hkept) h15
    · rw [(h.skipped hskip).2 fb h15]
      by_cases h0 : (s.inode ino).sfiIndirect = 0
      · exact Sfs.fileMap_noInd h0 h15
      · exact hfirst (by omega)

theorem Itrunced.empty (h : Itrunced s t ino n) (hempty : ¬ KeepsEmpty s ino n)
    (hall : ∀ fb < 143, 15 ≤ fb → t.fileMap ino fb = 0) : (t.inode ino).sfiIndirect = 0 := by
  by_cases hskip : n < 142 ∧ (s.inode ino).sfiIndirect ≠ 0
  · by_cases hkept : KeepsSome s ino n
    · obtain ⟨fb, hfb, h15, hne⟩ := hkept
      have hold := (h.cut hskip.1 ⟨fb, hfb, h15, hne⟩).2 fb (by omega) h15
      rw [if_neg (by omega), hall fb (by omega) h15] at hold
      exact absurd hold.symm hne
    · exact h.noInd hskip.1 hkept
  · obtain ⟨hind, hmap⟩ := h.skipped hskip
    by_contra h0
    rw [hind] at h0
    refine hempty ⟨by omega, h0, ?_⟩
    intro fb hfb h15
    rw [← hmap fb h15]
    exact hall fb hfb h15

theorem Itrunced.kept (h : Itrunced s t ino n) {fb : ℕ} (hfb : fb < 143) (hlt : fb < n) :
    t.fileMap ino fb = s.fileMap ino fb := by
  rcases Nat.lt_or_ge fb 15 with h15 | h15
  · rw [h.direct fb h15, if_neg (by omega)]
  · by_cases hskip : n < 142 ∧ (s.inode ino).sfiIndirect ≠ 0
    · by_cases hkept : KeepsSome s ino n
      · rw [(h.cut hskip.1 hkept).2 fb hfb h15, if_neg (by omega)]
      · rw [Sfs.fileMap_noInd (h.noInd hskip.1 hkept) h15, not_keepsSome hkept hlt.le h15]
    · exact (h.skipped hskip).2 fb h15

/-- Each of the three exceptions leaves something behind. -/
theorem Itrunced.truncatedTo_iff (h : Itrunced s t ino n) :
    s.TruncatedTo t ino n ↔ ¬ KeepsOne s ino n ∧ ¬ KeepsEmpty s ino n ∧ ¬ LosesCut s ino n := by
  constructor
  · intro ht
    refine ⟨?_, ?_, ?_⟩
    · rintro ⟨h15, h143, hne⟩
      have hgone := ht.gone n h143 le_rfl
      rcases Nat.lt_or_ge n 142 with hn | hn
      · rw [(h.cut hn ⟨n, le_rfl, h15, hne⟩).2 n h143 h15, if_neg (by omega)] at hgone
        exact hne hgone
      · rw [(h.skipped (by omega)).2 n h15] at hgone
        exact hne hgone
    · rintro ⟨hn, h0, hall⟩
      obtain ⟨hind, hmap⟩ := h.skipped (by omega)
      apply h0
      rw [← hind]
      apply ht.empty
      intro fb hfb h15
      rw [hmap fb h15, hall fb hfb h15]
    · rintro ⟨hn, ⟨fb, hfb, hbehind, h15, hne⟩, hkept, hmedia⟩
      have hgone := ht.gone fb hfb hbehind.le
      rw [(h.cut hn hkept).2 fb hfb h15, if_neg (fun hcut => hcut.2 hmedia)] at hgone
      exact hne hgone
  · rintro ⟨hone, hempty, hlost⟩
    exact ⟨fun fb hfb hle => h.gone hone hlost hfb hle, h.empty hempty, fun fb hfb hlt => h.kept hfb hlt⟩

theorem blocklen_natCast {len : ℕ} (hlen : len ≤ 143 * 512) : u32 ((len + 511 : ℤ).tdiv 512) = (len + 511) / 512 := by
  rw [show ((len : ℤ) + 511).tdiv 512 = (((len + 511) / 512 : ℕ) : ℤ) from (Int.ofNat_tdiv (len + 511) 512).symm]
  exact u32_natCast (by omega)

/-- When `sfs_itrunc` returns 0, exactly the blocks from the new end on are gone, unless
one of three things is the case: the first block behind the new end is mapped through the
indirect block, the indirect block is empty and is not looked at, or the disk fails to
write the indirect block. On a volume that is in order it does return 0. -/
theorem sfs_itrunc_blocks (ino len : ℕ) (hlen : len ≤ 143 * 512) :
    (∀ s t, sfsItrunc ino len s = .ok () t → (s.TruncatedTo t ino ((len + 511) / 512) ↔
      ¬ KeepsOne s ino ((len + 511) / 512) ∧ ¬ KeepsEmpty s ino ((len + 511) / 512) ∧
        ¬ LosesCut s ino ((len + 511) / 512))) ∧
    ∀ s, s.Consistent → s.vol.loaded ino → ino ≠ 1 → ∃ t, sfsItrunc ino len s = .ok () t := by
  constructor
  · intro s t h
    have hany := sfsItrunc_any s ino len
    rw [wp_of_ok h, blocklen_natCast hlen] at hany
    exact hany.truncatedTo_iff
  · intro s hs hl hi
    have hinv := hs.inv (D := False) fun h => h.elim
    obtain ⟨_, t, ht, -⟩ | ⟨_, _, -, hno⟩ | ⟨-, hno⟩ :=
      (sfsItrunc_wp (c := False) (Q := fun _ _ => True) (E := fun _ _ => False) hinv.sound hl hi len fun _ _ _ _ => trivial).cases
    · exact ⟨t, ht⟩
    · exact hno.elim
    · exact hno.elim

/-- An open file whose only block is the first one behind its indirect block. -/
def indirectFile (outcomes : List LhdStat) : Sfs where
  nblocks := 16
  freemap _ := true
  freemapdirty := false
  vnodes := [⟨3, ((Bytes.zero : Block).setSfiType sfsTypeFile).setSfiIndirect 5, false, 1⟩]
  dev := ⟨16, Lhd.word_sixteen, fun k => if k = 5 then (Bytes.zero : Block).setIdEntry 0 6 else Bytes.zero, outcomes⟩
  kmem := []

theorem indirectFile_indirect (os : List LhdStat) : ((indirectFile os).inode 3).sfiIndirect = 5 :=
  Bytes.sfiIndirect_setSfiIndirect (by decide)

theorem indirectFile_map (os : List LhdStat) {fb : ℕ} (hfb : fb < 143) :
    (indirectFile os).fileMap 3 fb = if fb = 15 then 6 else 0 := by
  rcases Nat.lt_or_ge fb 15 with h15 | h15
  · have hp := Bytes.samePointers_setNum (b := (Bytes.zero : Block)) (w := 2) (o := 4) (by omega) sfsTypeFile
    rw [Sfs.fileMap_direct h15, if_neg (by omega)]
    exact (Bytes.sfiDirect_setSfiIndirect h15).trans ((hp.direct fb).trans Bytes.sfiDirect_zero)
  · obtain ⟨j, rfl⟩ := Nat.exists_eq_add_of_le h15
    rw [Sfs.fileMap_entry (by rw [indirectFile_indirect]; decide), indirectFile_indirect]
    have hentry : ((Bytes.zero : Block).setIdEntry 0 6).idEntry j = if j = 0 then 6 else 0 := by
      rw [Bytes.idEntry_setIdEntry (by decide) (by decide), Bytes.idEntry_zero]
    rw [show (indirectFile os).dev.sector 5 = (Bytes.zero : Block).setIdEntry 0 6 from rfl, hentry]
    simp

theorem indirectFile_truncated : (sfsItrunc 3 0 (indirectFile [])).isOk = true ∧
    (sfsItrunc 3 (15 * 512) (indirectFile [])).isOk = true := by
  decide +kernel

theorem sfs_itrunc_blocks_indirectFile :
    ∃ t, sfsItrunc 3 (0 : ℕ) (indirectFile []) = .ok () t ∧ (indirectFile []).TruncatedTo t 3 0 := by
  obtain ⟨_, t, ht⟩ := Res.exists_of_isOk indirectFile_truncated.1
  refine ⟨t, ht, ((sfs_itrunc_blocks 3 0 (by decide)).1 _ t ht).mpr ⟨?_, ?_, ?_⟩⟩
  · rintro ⟨h15, -⟩
    omega
  · rintro ⟨h142, -⟩
    omega
  · rintro ⟨-, -, ⟨fb, hfb, h15, -⟩, -⟩
    omega

/-- Truncated to 15 blocks, the file keeps block 15. -/
theorem sfs_itrunc_keeps_block :
    ∃ t, sfsItrunc 3 (15 * 512) (indirectFile []) = .ok () t ∧ t.fileMap 3 15 = 6 ∧ ¬ (indirectFile []).TruncatedTo t 3 15 := by
  have hmap : (indirectFile []).fileMap 3 15 = 6 := indirectFile_map [] (by decide)
  have hok := indirectFile_truncated.2
  generalize indirectFile [] = s at hmap hok
  obtain ⟨_, t, ht⟩ := Res.exists_of_isOk hok
  have hany := sfsItrunc_any s 3 (15 * 512)
  rw [wp_of_ok ht, show u32 ((15 * 512 + 511 : ℤ).tdiv 512) = 15 by decide] at hany
  have hkept := (hany.cut (by decide) ⟨15, le_rfl, le_rfl, by rw [hmap]; decide⟩).2 15 (by decide) le_rfl
  rw [if_neg (by omega), hmap] at hkept
  refine ⟨t, ht, hkept, fun hcut => ?_⟩
  rw [hcut.gone 15 (by decide) le_rfl] at hkept
  exact absurd hkept (by decide)

/-! ### After an error -/

theorem sfsBalloc_free (s : Sfs) :
    sfsBalloc.wp True (fun new _ => s.freemap new = false) (fun _ _ => True) s := by
  unfold sfsBalloc bitmapAlloc sfsClearblock
  simp only [wp_bind, wp_get]
  cases hfind : bitmapFind s.freemap (sfsFreemapbits s.nblocks) 0 with
  | none => trivial
  | some b =>
    obtain ⟨hb, hfree⟩ := bitmapFind_some hfind
    have hword : b < 4294967296 := by
      unfold sfsFreemapbits at hb
      omega
    simp only [wp_bind, wp_set, wp_pure, wp_modify, wp_attempt, wp_kassert_true]
    intro _
    apply (writeblock_exact hword Bytes.zero).mono
    · intro _ _ _
      exact hfree
    · intro _ _ hno
      exact hno.elim

/-- What is still reachable is none of the blocks that were given back. -/
theorem DirectsCut.still_marked {b : ℕ} (h : DirectsCut s t ino n 15) (hs : s.OwnsBlocks ino) (hb : t.Reaches ino b) :
    t.freemap b = true := by
  obtain ⟨hb0, hb⟩ := hb
  have hbehind (fb : ℕ) (hfb : fb < 143) (hmap : b = s.fileMap ino fb) (hkept : fb < 15 → fb < n) : t.freemap b = true := by
    apply h.marked b (hs.marked b ⟨hb0, .inr ⟨fb, hfb, hmap⟩⟩)
    intro j hj hjn hjb
    rw [← Sfs.fileMap_direct hj, hmap] at hjb
    have := hs.unique j (by omega) fb hfb (by rwa [hjb, ← hmap]) hjb
    omega
  obtain hind | ⟨fb, hfb, hmap⟩ := hb
  · rw [h.indirect] at hind
    apply h.marked b (hs.marked b ⟨hb0, .inl hind⟩)
    intro j hj _ hjb
    rw [← Sfs.fileMap_direct hj] at hjb
    exact hs.notIndirect j (by omega) (by rwa [hjb]) (hjb.trans hind)
  · rcases Nat.lt_or_ge fb 15 with h15 | h15
    · rw [Sfs.fileMap_direct h15, h.fileMap_direct h15] at hmap
      split_ifs at hmap with hcut
      · exact absurd hmap hb0
      · exact hbehind fb hfb hmap fun _ => by omega
    · have hsame : t.fileMap ino fb = s.fileMap ino fb := by
        have hnot : ¬ fb < 15 := by omega
        simp only [Sfs.fileMap, Sfs.idblock, h.indirect, h.dev, if_neg hnot]
      exact hbehind fb hfb (hmap.trans hsame) fun hlt => by omega

/-- When `sfs_itrunc` returns an error, the blocks that are still reachable from the
inode are marked in the freemap, so that `sfs_balloc` hands out none of them. A failed
write of the indirect block is no such case, since it is not reported. -/
theorem sfs_itrunc_error (s t : Sfs) (ino : ℕ) (len : ℤ) (e : Errno) (hs : s.OwnsBlocks ino)
    (h : sfsItrunc ino len s = .err e t) (b : ℕ) (hb : t.Reaches ino b) :
    t.freemap b = true ∧ sfsBalloc.wp True (fun new _ => new ≠ b) (fun _ _ => True) t := by
  have hany := sfsItrunc_any s ino len
  rw [wp_of_err h] at hany
  obtain ⟨u, os, hu, rfl⟩ := hany
  have hmarked : u.freemap b = true := hu.still_marked hs hb
  refine ⟨hmarked, ?_⟩
  apply (sfsBalloc_free _).mono
  · rintro new _ hfree rfl
    exact Bool.noConfusion (hfree.symm.trans hmarked)
  · intro _ _ _
    trivial

theorem indirectFile_owns (os : List LhdStat) : (indirectFile os).OwnsBlocks 3 where
  marked _ _ := rfl
  unique fb hfb fb' hfb' hne heq := by
    rw [indirectFile_map os hfb] at hne heq
    rw [indirectFile_map os hfb'] at heq
    by_contra hother
    split_ifs at hne heq <;> omega
  notIndirect fb hfb hne heq := by
    rw [indirectFile_map os hfb, indirectFile_indirect] at heq
    split_ifs at heq
    omega

/-- The indirect block cannot be read. -/
theorem sfs_itrunc_error_media : ∃ e t, sfsItrunc 3 0 (indirectFile (List.replicate 11 .media)) = .err e t ∧
    ∀ b, t.Reaches 3 b → t.freemap b = true ∧ sfsBalloc.wp True (fun new _ => new ≠ b) (fun _ _ => True) t := by
  have herr : (sfsItrunc 3 0 (indirectFile (List.replicate 11 .media))).isErr = true := by decide +kernel
  obtain ⟨e, t, ht⟩ := Res.exists_of_isErr herr
  exact ⟨e, t, ht, sfs_itrunc_error _ t 3 0 e (indirectFile_owns _) ht⟩

end Os161
