import Os161.Proofs.Mksfs

/-! `sfs_domount`: the bitmap in memory is what the freemap blocks of the disk say. -/

namespace Os161

open Op

namespace SfsFs

variable {s : SfsFs} {k : ℕ} {c : Prop}

/-- The device reads, and is otherwise the same. -/
structure DevReads (d d' : Lhd) : Prop where
  sector : d'.sector = d.sector
  dBlocks : d'.dBlocks = d.dBlocks
  quiet : d.outcomes = [] → d'.outcomes = []

theorem DevReads.refl (d : Lhd) : DevReads d d := ⟨rfl, rfl, id⟩

theorem DevReads.trans {d d' d'' : Lhd} (h : DevReads d d') (h' : DevReads d' d'') : DevReads d d'' :=
  ⟨h'.sector.trans h.sector, h'.dBlocks.trans h.dBlocks, fun hq => h'.quiet (h.quiet hq)⟩

theorem readblock_wp {b : ℕ} (hb : b < s.dev.dBlocks) (x : Block) {Q : Block → SfsFs → Prop}
    {E : Errno → SfsFs → Prop} (hQ : ∀ d, DevReads s.dev d → Q (s.dev.sector b) { s with dev := d })
    (hE : ∀ d, s.dev.outcomes ≠ [] → E .eio { s with dev := d }) : (onDev (sfsReadblock b x)).wp c Q E s := by
  unfold onDev
  rw [wp_zoom, Op.wp]
  by_cases hquiet : s.dev.outcomes = []
  · rw [sfsReadblock_eq hb (by rw [hquiet]; simp)]
    exact hQ _ ⟨rfl, rfl, fun _ => by rw [hquiet, List.tail_nil]⟩
  · obtain ⟨os, heq⟩ | ⟨os, heq⟩ := sfsReadblock_cases hb x
    · rw [heq]
      exact hE _ hquiet
    · rw [heq]
      exact hQ _ ⟨rfl, rfl, fun hq => absurd hq hquiet⟩

/-- From `s` to `t` the first `j` blocks of the freemap were read. -/
structure ReadMap (s t : SfsFs) (j : ℕ) : Prop where
  mapped : t.Mapped
  sb : t.sb = s.sb
  superdirty : t.superdirty = s.superdirty
  freemapdirty : t.freemapdirty = s.freemapdirty
  reads : DevReads s.dev t.dev
  bits : ∀ k < 4096 * j, t.freemap.bit k = (s.dev.sector (2 + k / 4096)).bit (k % 4096)

theorem freemapBlock_read_wp {t : SfsFs} {j : ℕ} (h : s.ReadMap t j) (hj : j < sfsFreemapblocks s.nblocks)
    (hdisk : 2 + sfsFreemapblocks s.nblocks ≤ s.dev.dBlocks) {Q : Unit → SfsFs → Prop} {E : Errno → SfsFs → Prop}
    (hQ : ∀ u, s.ReadMap u (j + 1) → Q () u) (hE : ∀ e u, s.dev.outcomes ≠ [] → E e u) :
    (freemapBlock .read j).wp c Q E t := by
  have hnbits : t.freemap.nbits = 4096 * sfsFreemapblocks s.nblocks := by
    rw [h.mapped.nbits, nblocks, h.sb]
    exact sfsFreemapbits_eq _
  have hlen := h.mapped.whole.length
  have hfits : j * 512 + 512 ≤ t.freemap.v.length := by omega
  unfold freemapBlock
  rw [wp_bind, wp_get, wp_bind]
  apply readblock_wp
  · rw [h.reads.dBlocks]
    omega
  · intro d hd
    unfold onMap
    rw [wp_zoom, wp_modify, h.reads.sector]
    refine hQ _ ⟨⟨⟨?_, h.mapped.whole.word⟩, h.mapped.nbits⟩, h.sb, h.superdirty, h.freemapdirty, h.reads.trans hd,
      fun k hk => ?_⟩
    · simp only
      rw [length_overwrite (by rw [Bytes.length_toList]; omega)]
      exact hlen
    · simp only [Bitmap.bit]
      rw [Bytes.bitOf_overwrite _ _ hfits]
      by_cases hlast : 4096 * j ≤ k
      · rw [if_pos (by omega), show k / 4096 = j by omega, show k - 8 * (j * 512) = k % 4096 by omega]
      · rw [if_neg (by omega)]
        exact h.bits k (by omega)
  · intro d hne
    exact hE _ _ fun hq => hne (h.reads.quiet hq)

theorem freemapio_read_wp (h : s.Mapped) (hdisk : 2 + sfsFreemapblocks s.nblocks ≤ s.dev.dBlocks)
    {Q : Unit → SfsFs → Prop} {E : Errno → SfsFs → Prop}
    (hQ : ∀ t, s.ReadMap t (sfsFreemapblocks s.nblocks) → Q () t) (hE : ∀ e t, s.dev.outcomes ≠ [] → E e t) :
    (freemapio .read).wp c Q E s := by
  unfold freemapio
  rw [wp_bind, wp_get]
  apply wp_foldlM_range fun j _ t => s.ReadMap t j
  · intro j hj _ t ht
    exact freemapBlock_read_wp ht hj hdisk (fun u hu => hu) hE
  · intro _ t ht
    exact hQ t ht
  · exact ⟨h, rfl, rfl, rfl, .refl _, fun k hk => absurd hk (by omega)⟩

/-- Memory was asked for. -/
structure Asks (s t : SfsFs) : Prop where
  sb : t.sb = s.sb
  dev : t.dev = s.dev
  kmem : s.kmem = [] → t.kmem = []

theorem kmalloc_wp {Q : Unit → SfsFs → Prop} {E : Errno → SfsFs → Prop}
    (hQ : ∀ t, s.Asks t → t.superdirty = s.superdirty → t.freemapdirty = s.freemapdirty → Q () t)
    (hE : ∀ e t, s.kmem ≠ [] → E e t) : kmalloc.wp c Q E s := by
  unfold kmalloc
  rw [wp_bind, wp_get]
  cases hk : s.kmem with
  | nil => exact hQ s ⟨rfl, rfl, id⟩ rfl rfl
  | cons okay rest =>
    have hne : s.kmem ≠ [] := by rw [hk]; simp
    simp only [wp_bind, wp_set, wp_ite, wp_pure, wp_fail]
    exact ⟨fun _ => hQ _ ⟨rfl, rfl, fun hnil => absurd hnil hne⟩ rfl rfl, fun _ => hE _ _ hne⟩

theorem fsCreate_wp {Q : Unit → SfsFs → Prop} {E : Errno → SfsFs → Prop}
    (hQ : ∀ t, s.Asks t → t.superdirty = false → t.freemapdirty = false → Q () t)
    (hE : ∀ e t, s.kmem ≠ [] → E e t) : fsCreate.wp c Q E s := by
  unfold fsCreate
  rw [wp_bind]
  apply kmalloc_wp _ hE
  intro t ht _ _
  rw [wp_bind, wp_modify]
  apply kmalloc_wp
  · intro u hu hsuper hdirty
    exact hQ u ⟨hu.sb.trans ht.sb, hu.dev.trans ht.dev, fun hk => hu.kmem (ht.kmem hk)⟩ hsuper hdirty
  · intro e u hne
    exact hE e u fun hk => hne (ht.kmem hk)

theorem mapCreate_wp {n : ℕ} (hn : s.nblocks = n) (hword : sfsFreemapbits n + 7 < 4294967296)
    {Q : Unit → SfsFs → Prop} {E : Errno → SfsFs → Prop}
    (hQ : ∀ t, s.Asks t → t.superdirty = s.superdirty → t.freemapdirty = s.freemapdirty → t.Mapped → Q () t)
    (hE : ∀ e t, s.kmem ≠ [] → E e t) : mapCreate.wp c Q E s := by
  have hbits := sfsFreemapbits_eq n
  unfold mapCreate
  rw [wp_bind]
  apply kmalloc_wp _ hE
  intro t ht hsuper hdirty
  rw [wp_bind]
  apply kmalloc_wp
  · intro u hu hsuper' hdirty'
    have hun : u.nblocks = n := by rw [nblocks, hu.sb, ht.sb, ← hn, nblocks]
    rw [wp_modify, hun, Bitmap.whole_create (by omega) hword]
    refine hQ _ ⟨hu.sb.trans ht.sb, hu.dev.trans ht.dev, fun hk => hu.kmem (ht.kmem hk)⟩ (hsuper'.trans hsuper)
      (hdirty'.trans hdirty) ⟨⟨?_, hword⟩, ?_⟩
    · simp only [List.length_replicate]
      omega
    · exact congrArg sfsFreemapbits hun.symm
  · intro e u hne
    exact hE e u fun hk => hne (ht.kmem hk)

/-- From `s` to `t` a volume of `n` blocks was mounted. -/
structure Mounts (s t : SfsFs) (n : ℕ) : Prop where
  mapped : t.Mapped
  nblocks : t.nblocks = n
  superdirty : t.superdirty = false
  freemapdirty : t.freemapdirty = false
  reads : DevReads s.dev t.dev
  bits : ∀ k < sfsFreemapbits n, t.freemap.bit k = (s.dev.sector (2 + k / 4096)).bit (k % 4096)

theorem sbNblocks_splice (b : Block) : (b.splice 39 [0]).sbNblocks = b.sbNblocks := by
  unfold Bytes.sbNblocks Bytes.num
  rw [Bytes.slice_splice_of_disjoint _ (Or.inl (by omega))]

/-- `sfs_domount` mounts a volume that has a superblock and lies on its device, and fails
only for want of memory or with an error of the disk. -/
theorem domount_wp {n : ℕ} (hmagic : (s.dev.sector 0).sbMagic = sfsMagic) (hn : (s.dev.sector 0).sbNblocks = n)
    (hword : sfsFreemapbits n + 7 < 4294967296) (hdisk : 2 + sfsFreemapblocks n ≤ s.dev.dBlocks)
    {Q : Unit → SfsFs → Prop} {E : Errno → SfsFs → Prop} (hQ : ∀ t, s.Mounts t n → Q () t)
    (hE : ∀ e t, s.dev.outcomes ≠ [] ∨ s.kmem ≠ [] → E e t) : domount.wp c Q E s := by
  have hzero : 0 < s.dev.dBlocks := by omega
  unfold domount
  -- otherwise the elaborator runs the disk when it sees the block's number
  generalize (0 : ℕ) = super at hmagic hn hzero ⊢
  rw [wp_bind]
  apply fsCreate_wp _ fun e t hne => hE e t (Or.inr hne)
  intro t ht hsuper hdirty
  rw [wp_bind]
  apply readblock_wp
  · rw [ht.dev]
    exact hzero
  · intro d hd
    rw [ht.dev] at hd ⊢
    rw [wp_ite]
    refine ⟨fun hno => absurd hmagic hno, fun _ => ?_⟩
    rw [wp_bind, wp_modify, wp_bind]
    have hsb : ((s.dev.sector super).splice 39 [0]).sbNblocks = n := (sbNblocks_splice _).trans hn
    refine mapCreate_wp (n := n) ?_ hword ?_ ?_
    · exact hsb
    · intro u hu husuper hudirty hmapped
      have hun : u.nblocks = n := by
        rw [nblocks, hu.sb]
        exact hsb
      have hud : u.dev = d := hu.dev
      apply freemapio_read_wp hmapped
      · rw [hun, hud, hd.dBlocks]
        exact hdisk
      · intro w hw
        rw [hun] at hw
        refine hQ w ⟨hw.mapped, ?_, ?_, ?_, ?_, fun k hk => ?_⟩
        · rw [nblocks, hw.sb]
          exact hun
        · rw [hw.superdirty, husuper]
          exact hsuper
        · rw [hw.freemapdirty, hudirty]
          exact hdirty
        · exact hd.trans (hud ▸ hw.reads)
        · rw [hw.bits k (by rw [← sfsFreemapbits_eq]; exact hk), hud, hd.sector]
      · intro e w hne
        exact hE e w (Or.inl fun hq => hne (by rw [hud]; exact hd.quiet hq))
    · intro e u hne
      exact hE e u (Or.inr fun hk => hne (ht.kmem hk))
  · intro d hne
    exact hE _ _ (Or.inl (ht.dev ▸ hne))

end SfsFs

/-! ### Allocation on a new volume -/

namespace BallocRun

variable {s t : BallocRun} {n : ℕ}

structure Inv (n : ℕ) (s : BallocRun) : Prop where
  mapped : s.fs.Mapped
  nblocks : s.fs.nblocks = n
  disk : n ≤ s.fs.dev.dBlocks
  covered : n ≤ sfsFreemapbits n
  bits : ∀ k < sfsFreemapbits n, s.fs.freemap.bit k = true ↔ Reserved n k ∨ k ∈ s.live
  live : ∀ b ∈ s.live, b < n ∧ ¬ Reserved n b
  nodup : s.live.Nodup

theorem Inv.nbits (h : s.Inv n) : s.fs.freemap.nbits = sfsFreemapbits n := by rw [h.mapped.nbits, h.nblocks]

/-- What `sfs_balloc` does in a run. -/
theorem Inv.balloc_wp (h : s.Inv n) : SfsFs.balloc.wp False
    (fun b fs => (b < n ∧ ¬ Reserved n b ∧ b ∉ s.live) ∧ Inv n ⟨fs, b :: s.live⟩)
    (fun e fs => (e = .enospc ∧ ∀ b < n, Reserved n b ∨ b ∈ s.live) ∧ fs = s.fs) s.fs := by
  have hnb := h.nbits
  have hcov := h.covered
  apply SfsFs.balloc_wp h.mapped
  · rw [h.nblocks]
    exact h.disk
  · intro k hk hge
    rw [h.nblocks] at hge
    exact (h.bits k (hnb ▸ hk)).mpr (Or.inl (reserved_iff.mpr (Or.inr hge)))
  · intro k d hlt hk hfirst hd _
    rw [h.nblocks] at hlt
    have hfree : ¬ (Reserved n k ∨ k ∈ s.live) := by
      rw [← h.bits k (by omega), hfirst.1]
      exact Bool.false_ne_true
    refine ⟨⟨hlt, fun hr => hfree (Or.inl hr), fun hl => hfree (Or.inr hl)⟩, ?_⟩
    refine ⟨⟨h.mapped.whole.mark k, h.mapped.nbits⟩, h.nblocks, hd ▸ h.disk, hcov, fun j hj => ?_, fun b hb => ?_, ?_⟩
    · have hbit : (s.fs.freemap.mark k).bit j = Function.update s.fs.freemap.bit k true j := by
        rw [h.mapped.whole.bit_mark hk]
      rw [show (SfsFs.freemap _) = s.fs.freemap.mark k from rfl, hbit, List.mem_cons]
      by_cases hjk : j = k
      · simp [hjk]
      · rw [Function.update_of_ne hjk, h.bits j hj]
        simp [hjk]
    · rcases List.mem_cons.mp hb with rfl | hb
      · exact ⟨hlt, fun hr => hfree (Or.inl hr)⟩
      · exact h.live b hb
    · exact List.nodup_cons.mpr ⟨fun hl => hfree (Or.inr hl), h.nodup⟩
  · intro hfull
    refine ⟨⟨rfl, fun b hb => ?_⟩, rfl⟩
    exact (h.bits b (by omega)).mp (hfull b (by omega))

theorem Inv.bfree_wp (h : s.Inv n) {b : ℕ} (hb : b ∈ s.live) :
    (SfsFs.bfree b).wp False (fun _ fs => Inv n ⟨fs, s.live.erase b⟩) (fun _ _ => False) s.fs := by
  have hnb := h.nbits
  have hcov := h.covered
  have hlt := (h.live b hb).1
  have hk : b < s.fs.freemap.nbits := by omega
  rw [SfsFs.bfree_wp hk ((h.bits b (by omega)).mpr (Or.inr hb))]
  refine ⟨⟨h.mapped.whole.cleared b, h.mapped.nbits⟩, h.nblocks, h.disk, hcov, fun j hj => ?_, fun j hj => ?_, ?_⟩
  · have hbit : (s.fs.freemap.cleared b).bit j = Function.update s.fs.freemap.bit b false j := by
      rw [h.mapped.whole.bit_cleared hk]
    rw [show (SfsFs.freemap _) = s.fs.freemap.cleared b from rfl, hbit, h.nodup.mem_erase_iff]
    by_cases hjb : j = b
    · have hno := (h.live b hb).2
      simp [hjb, hno]
    · rw [Function.update_of_ne hjb, h.bits j hj]
      simp [hjb]
  · exact h.live j (List.mem_of_mem_erase hj)
  · exact h.nodup.erase b

theorem Inv.right (h : s.Inv n) : s.Right n where
  used k hk := by rw [Bitmap.isset_iff, h.bits k hk]
  balloc := h.balloc_wp.mono (fun _ _ hb => hb.1) fun _ _ he => he.1
  bfree _ hb := (h.bfree_wp hb).mono (fun _ _ _ => trivial) fun _ _ hno => hno

theorem Inv.step (h : s.Inv n) {e : BallocEv} (hstep : ballocStep s e = some t) : t.Inv n := by
  cases e with
  | balloc =>
    simp only [ballocStep] at hstep
    obtain ⟨b, fs, heq, -, hinv⟩ | ⟨e, fs, heq, -, rfl⟩ | ⟨-, hno⟩ := h.balloc_wp.cases
    · rw [heq, Option.some.injEq] at hstep
      exact hstep ▸ hinv
    · rw [heq, Option.some.injEq] at hstep
      exact hstep ▸ h
    · exact hno.elim
  | bfree b =>
    simp only [ballocStep] at hstep
    split_ifs at hstep with hb
    obtain ⟨_, fs, heq, hinv⟩ | ⟨_, _, _, hno⟩ | ⟨-, hno⟩ := (h.bfree_wp hb).cases
    · rw [heq, Option.some.injEq] at hstep
      exact hstep ▸ hinv
    · exact hno.elim
    · exact hno.elim

end BallocRun

/-- On a volume that `mksfs` formatted and `sfs_domount` mounted, the bitmap marks the
blocks of the format and what lies behind the end; and in every run of `sfs_balloc` and
`sfs_bfree` each block that is handed out is free, and one is as long as there is any. -/
theorem mksfs_balloc_run (n : ℕ) (h3 : 3 ≤ n) (hn : n ≤ 32 * 4096) (disk : ℕ → Block) (arg : CStr) :
    (Mksfs.main arg).wp False
      (fun _ m => ∀ s : SfsFs, s.dev.dBlocks = n → s.dev.sector = m.disk → SfsFs.domount.wp False
        (fun _ fs => (∀ k < sfsFreemapbits n, fs.freemap.isset k ↔ Reserved n k) ∧
          ∀ evs, AllStates ballocStep (BallocRun.Right n) ⟨fs, []⟩ evs)
        (fun _ _ => s.dev.outcomes ≠ [] ∨ s.kmem ≠ []) s)
      (fun _ _ => ¬ Mksfs.GoodName arg.chars) (Mksfs.start n disk) := by
  have hfit := fitting_of_le h3 hn
  have hroom := hfit.room
  apply Mksfs.main_wp hfit arg
  · intro m hm s hd hsector
    have hfm := sfsFreemapbits_eq n
    have hmax := hfit.max
    apply SfsFs.domount_wp (n := n)
    · rw [hsector, hm.super]
      exact Mksfs.sbMagic_newSuper _ _
    · rw [hsector, hm.super]
      exact Mksfs.sbNblocks_newSuper _ (by omega)
    · omega
    · omega
    · intro fs hfs
      have hbits (k : ℕ) (hk : k < sfsFreemapbits n) : fs.freemap.bit k = true ↔ Reserved n k := by
        rw [hfs.bits k hk, hsector, hm.freemap (k / 4096) (by omega) (k % 4096) (by omega), Nat.div_add_mod]
      have hinv : BallocRun.Inv n ⟨fs, []⟩ := by
        refine ⟨hfs.mapped, hfs.nblocks, ?_, hfit.covered, fun k hk => ?_, by simp, List.nodup_nil⟩
        · rw [hfs.reads.dBlocks, hd]
        · rw [hbits k hk]
          simp
      refine ⟨fun k hk => ?_, fun evs => ?_⟩
      · rw [Bitmap.isset_iff, hbits k hk]
      · exact (allStates_of_step (fun _ _ _ h hstep => h.step hstep) hinv evs).mono fun _ h => h.right
    · exact fun _ _ hno => hno
  · exact fun _ _ hbad => hbad

theorem mksfs_balloc_run_small : 3 ≤ 200 ∧ 200 ≤ 32 * 4096 ∧ ∀ (disk : ℕ → Block) (arg : CStr),
    (Mksfs.main arg).wp False
      (fun _ m => ∀ s : SfsFs, s.dev.dBlocks = 200 → s.dev.sector = m.disk → SfsFs.domount.wp False
        (fun _ fs => (∀ k < sfsFreemapbits 200, fs.freemap.isset k ↔ Reserved 200 k) ∧
          ∀ evs, AllStates ballocStep (BallocRun.Right 200) ⟨fs, []⟩ evs)
        (fun _ _ => s.dev.outcomes ≠ [] ∨ s.kmem ≠ []) s)
      (fun _ _ => ¬ Mksfs.GoodName arg.chars) (Mksfs.start 200 disk) :=
  ⟨by decide, by decide, mksfs_balloc_run 200 (by decide) (by decide)⟩

end Os161
