import Os161.Proofs.Freemap
import Os161.Proofs.Mount

/-! `sfs_sync` brings the volume to the disk: every block outside of the superblock and
the freemap is then what the operations saw, and the freemap is written if it changed. -/

namespace Os161

open Op

/-! ### Volumes that agree outside of the superblock and the freemap -/

namespace Vol

variable {V V' : Vol} {P : List ℕ} {i fb : ℕ}

structure Agrees (V V' : Vol) : Prop where
  nblocks : V'.nblocks = V.nblocks
  block : ∀ b, V.Clear b → V'.block b = V.block b

theorem Agrees.inode (h : V.Agrees V') (hV : V.Struct P) (hi : V.Inode i) : V'.block i = V.block i :=
  h.block i (hV.clear_inode hi)

theorem Agrees.map (h : V.Agrees V') (hV : V.Struct P) (hi : V.Inode i) :
    V'.ind i = V.ind i ∧ ∀ fb, V'.map i fb = V.map i fb := by
  apply map_congr
  · rw [h.inode hV hi]
    exact ⟨rfl, fun _ => rfl⟩
  · intro h0
    exact h.block _ (hV.clear_ind hi h0)

/-- No file has blocks behind its indirect block. -/
theorem map_of_ge (V : Vol) (i : ℕ) (hfb : 143 ≤ fb) : V.map i fb = 0 := by
  have hzero (b : Block) : b.idEntry (fb - 15) = 0 := by
    have hslice : b.slice (4 * (fb - 15)) 4 = (Bytes.zero : Block).slice (4 * (fb - 15)) 4 := by
      apply Bytes.slice_congr
      intro k hk _
      rw [Bytes.byte_zero, Bytes.byte, dif_neg (by omega)]
    unfold Bytes.idEntry Bytes.num
    rw [hslice]
    exact Bytes.num_zero 4 _
  rw [map, if_neg (by omega), hzero, ite_self]

theorem Agrees.data (h : V.Agrees V') (hV : V.Struct P) (hi : V.Inode i) (fb : ℕ) : V'.data i fb = V.data i fb := by
  apply data_congr ((h.map hV hi).2 fb)
  intro h0
  have hfb : fb < 143 := by
    by_contra hge
    exact h0 (V.map_of_ge i (by omega))
  exact h.block _ (hV.clear_map hi hfb h0)

theorem Agrees.sameDir (h : V.Agrees V') (hV : V.Struct P) : V.SameDir V' :=
  ⟨nslots_congr (by rw [h.inode hV V.inode_root]), fun _ _ => slot_congr (h.data hV V.inode_root _)⟩

theorem Agrees.same (h : V.Agrees V') (hV : V.Struct P) (hl : V'.loaded = V.loaded) : V.Same V' := by
  apply same_of_views hV.dirSize h.nblocks hl
  · intro i hi
    rw [h.inode hV hi]
    exact .refl _
  · intro i hi fb _
    exact h.data hV hi fb

theorem Agrees.struct (h : V.Agrees V') (hV : V.Struct P) (hl : V'.loaded = V.loaded) (hu : V'.used = V.used) :
    V'.Struct P := by
  have hsame := h.same hV hl
  apply hV.congr h.nblocks hu hsame.inode
  · intro i hi
    exact (h.map hV hi).1
  · intro i hi fb _
    exact (h.map hV hi).2 fb
  · intro b hb
    exact h.block b (clear_of_not_ref (hV.owned.apart b hb))
  · rw [h.inode hV V.inode_root]
    exact hV.dirSize

theorem Agrees.sameContents (h : V.Agrees V') (hV : V.Struct P)
    (hu : ∀ k < sfsFreemapbits V.nblocks, V'.used k = V.used k) : V.SameContents V' where
  nblocks := h.nblocks
  used := hu
  names := (h.sameDir hV).names
  type i hi := by rw [h.inode hV hi]
  size i hi := by rw [h.inode hV hi]
  linkcount i hi := by rw [h.inode hV hi]
  contents i hi := by
    unfold Vol.contents bytes fbyte
    simp only [h.data hV hi, h.inode hV hi]

end Vol

variable {s t : Sfs} {P : List ℕ} {δ : ℕ → ℤ} {i : ℕ} {c D : Prop}

/-! ### `sfs_sync_vnodes` -/

/-- From `s` to `t` the inodes were written back, without those of `l`. -/
structure Sfs.Syncing (D : Prop) (s t : Sfs) (P : List ℕ) (δ : ℕ → ℤ) (l : List SfsVnode) : Prop where
  inv : t.Inv D P δ
  vol : t.vol = s.vol
  table : t.table = s.table
  freemapdirty : t.freemapdirty = s.freemapdirty
  written : ∀ b, (∀ v ∈ l, v.ino ≠ b) → t.dev.sector b = s.vol.block b

theorem Sfs.Syncing.flush {u : Sfs} {v : SfsVnode} {l : List SfsVnode} (h : s.Syncing D t P δ (v :: l))
    (hu : u.Inv D P δ) (hf : t.Flushes u v.ino) : s.Syncing D u P δ l where
  inv := hu
  vol := hf.vol.trans h.vol
  table := hf.table.trans h.table
  freemapdirty := hf.freemapdirty.trans h.freemapdirty
  written b hb := by
    rw [hf.sector, h.vol]
    by_cases hbv : b = v.ino
    · rw [hbv, Function.update_self]
    · rw [Function.update_of_ne hbv]
      apply h.written
      intro w hw
      rcases List.mem_cons.mp hw with rfl | hw
      · exact Ne.symm hbv
      · exact hb w hw

theorem sfsSyncVnodes_wp (h : s.Inv D P δ) {Q : Unit → Sfs → Prop} {E : Errno → Sfs → Prop}
    (hQ : ∀ t, s.Syncing D t P δ [] → Q () t) : sfsSyncVnodes.wp c Q E s := by
  unfold sfsSyncVnodes
  rw [wp_bind, wp_get]
  apply wp_foldlM (fun l _ t => s.Syncing D t P δ l ∧ ∀ v ∈ l, s.vol.loaded v.ino)
  · rintro v rest _ t ⟨ht, hl⟩
    rw [wp_bind, wp_attempt]
    apply sfsSyncInode_wp ht.inv
    · rw [ht.vol]
      exact hl v List.mem_cons_self
    · intro u hu hf
      exact ⟨ht.flush hu hf, fun w hw => hl w (List.mem_cons_of_mem _ hw)⟩
  · intro _ t ht
    exact hQ t ht.1
  · refine ⟨⟨h, rfl, rfl, rfl, fun b hb => ?_⟩, fun v hv => Sfs.loaded_iff.mpr ⟨v, hv, rfl⟩⟩
    refine (Sfs.block_of_not_loaded fun hl => ?_).symm
    obtain ⟨v, hv, hvb⟩ := Sfs.loaded_iff.mp hl
    exact hb v hv hvb

/-! ### `sfs_sync_freemap` -/

/-- The state after the first `j` blocks of the freemap were written. -/
def Sfs.mapped (s : Sfs) (j : ℕ) : Sfs :=
  { s with dev := { s.dev with
      sector := fun b => if 2 ≤ b ∧ b < 2 + j then Bytes.ofBits fun k => s.freemap ((b - 2) * 4096 + k)
        else s.dev.sector b } }

theorem Sfs.mapped_succ (j : ℕ) :
    (s.mapped j).poke (2 + j) (Bytes.ofBits fun k => s.freemap (j * 4096 + k)) = s.mapped (j + 1) := by
  have hsector : (fun b => if 2 ≤ b ∧ b < 2 + (j + 1) then (Bytes.ofBits fun k => s.freemap ((b - 2) * 4096 + k) : Block)
      else s.dev.sector b) = Function.update (s.mapped j).dev.sector (2 + j)
        (Bytes.ofBits fun k => s.freemap (j * 4096 + k)) := by
    funext b
    by_cases hb : b = 2 + j
    · subst hb
      rw [Function.update_self, if_pos (by omega), Nat.add_sub_cancel_left]
    · rw [Function.update_of_ne hb]
      simp only [mapped, show 2 ≤ b ∧ b < 2 + (j + 1) ↔ 2 ≤ b ∧ b < 2 + j by omega]
  unfold poke
  rw [← hsector]
  rfl

theorem sfsFreemapioWrite_wp (hdisk : 2 + sfsFreemapblocks s.nblocks ≤ s.dev.dBlocks) (hquiet : s.dev.outcomes = [])
    {Q : Unit → Sfs → Prop} {E : Errno → Sfs → Prop} (hQ : Q () (s.mapped (sfsFreemapblocks s.nblocks))) :
    sfsFreemapioWrite.wp c Q E s := by
  unfold sfsFreemapioWrite
  rw [wp_bind, wp_get]
  apply wp_foldlM_range (fun j _ t => t = s.mapped j)
  · rintro j hj _ _ rfl
    rw [writeblock_poke]
    · exact Sfs.mapped_succ j
    · change 2 + j < s.dev.dBlocks
      omega
    · exact hquiet
  · rintro _ _ rfl
    exact hQ
  · unfold Sfs.mapped
    simp only [Nat.add_zero, show ∀ b, ¬ (2 ≤ b ∧ b < 2) by omega, if_false]

/-- The state after `sfs_sync_freemap` wrote the freemap. -/
def Sfs.remapped (s : Sfs) : Sfs := { s.mapped (sfsFreemapblocks s.nblocks) with freemapdirty := false }

theorem Sfs.sector_remapped {b : ℕ} (hb : ∀ k < sfsFreemapblocks s.nblocks, b ≠ 2 + k) :
    s.remapped.dev.sector b = s.dev.sector b := by
  apply if_neg
  rintro ⟨hb2, hlt⟩
  exact hb (b - 2) (by omega) (by omega)

theorem Sfs.bit_remapped {k : ℕ} (hk : k < sfsFreemapbits s.nblocks) :
    (s.remapped.dev.sector (2 + k / 4096)).bit (k % 4096) = s.freemap k := by
  have hblocks := sfsFreemapbits_eq s.nblocks
  have hsector : s.remapped.dev.sector (2 + k / 4096) = Bytes.ofBits fun j => s.freemap ((k / 4096) * 4096 + j) := by
    refine (if_pos (by omega)).trans ?_
    rw [Nat.add_sub_cancel_left]
  rw [hsector, Bytes.bit_ofBits _ (by omega), Nat.div_add_mod']

/-- The superblock and the blocks of the freemap hold nothing that the operations see. -/
theorem Sfs.Inv.rewrite {E : Prop} (h : s.Inv D P δ) (hvnodes : t.vnodes = s.vnodes) (hn : t.nblocks = s.nblocks)
    (hmap : t.freemap = s.freemap) (hblocks : t.dev.dBlocks = s.dev.dBlocks) (hquiet : t.dev.outcomes = [])
    (hsector : ∀ b, s.vol.Clear b → t.dev.sector b = s.dev.sector b) (hmirror : E → t.OnDisk) : t.Inv E P δ := by
  have hvnode : t.vnode = s.vnode := by
    unfold Sfs.vnode
    rw [hvnodes]
  have hag : s.vol.Agrees t.vol := by
    refine ⟨hn, fun b hb => ?_⟩
    simp only [Sfs.vol, Sfs.block, hvnode, hsector b hb]
  have hl : t.vol.loaded = s.vol.loaded := by simp only [Sfs.vol, hvnode]
  have hclear (v : SfsVnode) (hv : v ∈ s.vnodes) : s.vol.Clear v.ino :=
    h.sound.struct.clear_inode (Sfs.inode_of_loaded (Sfs.loaded_iff.mpr ⟨v, hv, rfl⟩))
  refine ⟨⟨⟨?_, fun v hv hd => ?_, ?_, ?_, hquiet, hmirror⟩, hag.struct h.sound.struct hl hmap⟩,
    h.dir.same h.sound.struct (hag.same h.sound.struct hl)⟩
  · rw [hvnodes]
    exact h.sound.mounted.nodup
  · rw [hvnodes] at hv
    rw [hsector _ (hclear v hv)]
    exact h.sound.mounted.clean v hv hd
  · rw [hvnodes]
    exact h.sound.mounted.held
  · rw [hn, hblocks]
    exact h.sound.mounted.disk

theorem Sfs.Inv.remapped (h : s.Inv D P δ) : s.remapped.Inv D P δ := by
  refine h.rewrite rfl rfl rfl rfl h.sound.mounted.quiet (fun b hb => Sfs.sector_remapped hb.2) fun hD => ?_
  have hzero : s.remapped.dev.sector 0 = s.dev.sector 0 := Sfs.sector_remapped fun k _ => by omega
  obtain ⟨hmagic, hn, -⟩ := h.sound.mounted.mirror hD
  exact ⟨hzero ▸ hmagic, hzero ▸ hn, fun _ k hk => Sfs.bit_remapped hk⟩

theorem sfsSyncFreemap_wp (h : s.Inv D P δ) {Q : Unit → Sfs → Prop} {E : Errno → Sfs → Prop}
    (hdirty : Q () s.remapped) (hclean : s.freemapdirty = false → Q () s) : sfsSyncFreemap.wp c Q E s := by
  unfold sfsSyncFreemap
  rw [wp_bind, wp_get, wp_ite]
  constructor
  · intro _
    rw [wp_bind]
    apply sfsFreemapioWrite_wp
    · exact h.sound.struct.room.trans h.sound.mounted.disk
    · exact h.sound.mounted.quiet
    · exact hdirty
  · intro hd
    exact hclean (by simpa using hd)

/-- The blocks that the bit by bit model writes are the bytes of the bitmap. -/
theorem SfsFs.ofList_freemap {s : SfsFs} (h : s.Mapped) {j : ℕ} (hj : j < sfsFreemapblocks s.nblocks) :
    (Bytes.ofList ((s.freemap.v.drop (j * 512)).take 512) : Block) =
      Bytes.ofBits fun k => s.freemap.bit (j * 4096 + k) := by
  have hlen := h.whole.length
  have hbits := h.nbits
  rw [sfsFreemapbits_eq] at hbits
  apply Bytes.ext_bits
  intro k hk
  rw [Bytes.bit_ofBits _ hk, Bytes.bit_ofList_drop _ _ hk (by omega), Bitmap.bit,
    show 8 * (j * 512) + k = j * 4096 + k by omega]

/-- `sfs_freemapio` writes the bytes of the bitmap, whatever the disk does. -/
theorem SfsFs.freemapio_write_refines {s : SfsFs} (h : s.Mapped) (vnodes : List SfsVnode) :
    sfsFreemapioWrite (s.toSfs vnodes) = (freemapio .write s).map (·.toSfs vnodes) := by
  -- the writes change the device only
  have hloop (l : List ℕ) (hl : ∀ j ∈ l, j < sfsFreemapblocks s.nblocks) (d : Lhd) :
      l.foldlM (fun _ j => Os161.onDev (sfsWriteblock (2 + j) (Bytes.ofBits fun k => s.freemap.bit (j * 4096 + k))))
        () ({ s with dev := d }.toSfs vnodes) =
      (l.foldlM (fun _ j => freemapBlock .write j) () { s with dev := d }).map (·.toSfs vnodes) := by
    induction l generalizing d with
    | nil => rfl
    | cons j l ih =>
      obtain ⟨hj, hl⟩ := List.forall_mem_cons.mp hl
      have hblock : freemapBlock .write j { s with dev := d } = SfsFs.onDev (sfsWriteblock (2 + j)
          (Bytes.ofBits fun k => s.freemap.bit (j * 4096 + k))) { s with dev := d } := by
        rw [← ofList_freemap h hj]
        rfl
      rw [List.foldlM_cons, List.foldlM_cons]
      refine bind_map (f := fun u : SfsFs => u.toSfs vnodes) ?_ fun _ u hu => ?_
      · rw [hblock]
        exact zoom_map (f := fun u : SfsFs => u.toSfs vnodes) _ rfl fun _ => rfl
      · rw [hblock, SfsFs.onDev, zoom] at hu
        split at hu
        all_goals cases hu
        exact ih hl _
  exact hloop _ (fun j hj => List.mem_range.mp hj) s.dev

/-- The bit by bit model does what the code does with the bytes of the bitmap. -/
structure BallocRun.Refines (s : BallocRun) : Prop where
  balloc : ∀ vnodes, sfsBalloc (s.fs.toSfs vnodes) = (SfsFs.balloc s.fs).map (·.toSfs vnodes)
  bfree : ∀ b ∈ s.live, ∀ vnodes, sfsBfree b (s.fs.toSfs vnodes) = (SfsFs.bfree b s.fs).map (·.toSfs vnodes)
  freemapio : ∀ vnodes, sfsFreemapioWrite (s.fs.toSfs vnodes) = (SfsFs.freemapio .write s.fs).map (·.toSfs vnodes)

theorem BallocRun.Inv.refines {s : BallocRun} {n : ℕ} (h : s.Inv n) : s.Refines where
  balloc := by
    apply SfsFs.balloc_refines h.mapped
    · exact h.nblocks ▸ h.disk
    · intro k hk hge
      exact (h.bits k (h.nbits ▸ hk)).mpr (Or.inl (reserved_iff.mpr (Or.inr (h.nblocks ▸ hge))))
  bfree b hb := by
    have hlt : b < sfsFreemapbits n := (h.live b hb).1.trans_le h.covered
    exact SfsFs.bfree_refines h.mapped (h.nbits ▸ hlt) ((h.bits b hlt).mpr (Or.inr hb))
  freemapio := SfsFs.freemapio_write_refines h.mapped

/-- From a mounted volume on, the model of SFS that has a freemap bit by bit refines the code
on its bytes in every state of every run, whatever the disk does. -/
theorem sfs_freemap_refines {s : BallocRun} {n : ℕ} (h : s.Inv n) (evs : List BallocEv) :
    AllStates ballocStep BallocRun.Refines s evs :=
  (allStates_of_step (fun _ _ _ h hstep => h.step hstep) h evs).mono fun _ h => h.refines

/-- A volume of four blocks, the last of which is in use. -/
def BallocRun.four : BallocRun where
  fs := ⟨Bytes.setNum 4 Bytes.zero 4 4, false, ⟨4096, List.replicate 512 255⟩, false,
    ⟨16, Lhd.word_sixteen, fun _ => Bytes.zero, [.media]⟩, []⟩
  live := [3]

theorem BallocRun.inv_four : BallocRun.four.Inv 4 := by
  have hn : BallocRun.four.fs.nblocks = 4 := by
    rw [four, SfsFs.nblocks, Bytes.sbNblocks, Bytes.num_setNum_same _ (by decide) (by decide)]
  have hfm : sfsFreemapblocks 4 = 1 := by decide
  have hall : ∀ o < 8, byteBit 255 o = true := by decide
  refine ⟨⟨⟨?_, by decide⟩, hn ▸ rfl⟩, hn, by decide, by decide, fun k hk => ?_, ?_, List.nodup_singleton 3⟩
  · simp only [four, List.length_replicate]
  · have hk : k / 8 < 512 := Nat.div_lt_of_lt_mul (n := 8) hk
    have hword : (List.replicate 512 (255 : UInt8)).getD (k / 8) 0 = 255 := by
      rw [List.getD_eq_getElem?_getD, List.getElem?_replicate, if_pos hk, Option.getD_some]
    rw [reserved_iff, hfm, four, List.mem_singleton, Bitmap.bit, bitOf, hword, hall _ (Nat.mod_lt _ (by decide))]
    exact iff_of_true rfl (by omega)
  · intro b hb
    rw [reserved_iff, hfm, List.mem_singleton.mp hb]
    decide

theorem sfs_freemap_refines_four : BallocRun.four.Inv 4 ∧
    AllStates ballocStep BallocRun.Refines BallocRun.four [.bfree 3, .balloc] :=
  ⟨BallocRun.inv_four, sfs_freemap_refines BallocRun.inv_four _⟩

/-! ### `sfs_sync` -/

/-- From `s` to `t` the volume went to the disk. -/
structure Sfs.Syncs (D : Prop) (s t : Sfs) (P : List ℕ) (δ : ℕ → ℤ) : Prop where
  inv : t.Inv D P δ
  nblocks : t.nblocks = s.nblocks
  freemap : t.freemap = s.freemap
  freemapdirty : t.freemapdirty = false
  written : ∀ b, s.vol.Clear b → t.dev.sector b = s.vol.block b

theorem sfsSync_wp (h : s.Inv D P δ) {Q : Unit → Sfs → Prop} {E : Errno → Sfs → Prop}
    (hQ : ∀ t, s.Syncs D t P δ → Q () t) : sfsSync.wp c Q E s := by
  unfold sfsSync
  rw [wp_bind]
  apply sfsSyncVnodes_wp h
  intro t ht
  have hn : t.nblocks = s.nblocks := congrArg Vol.nblocks ht.vol
  have hmap : t.freemap = s.freemap := congrArg Vol.used ht.vol
  apply sfsSyncFreemap_wp ht.inv
  · refine hQ _ ⟨ht.inv.remapped, hn, hmap, rfl, fun b hb => ?_⟩
    rw [← ht.vol] at hb
    rw [Sfs.sector_remapped hb.2]
    exact ht.written b (by simp)
  · intro hd
    exact hQ t ⟨ht.inv, hn, hmap, hd, fun b _ => ht.written b (by simp)⟩

/-- A volume that is on the disk is there when it is mounted again. -/
theorem Sfs.Syncs.remount (h : s.Syncs True t P δ) (hs : s.Inv True P δ)
    (hword : sfsFreemapbits s.nblocks + 7 < 4294967296) {fs : SfsFs} (hdev : fs.dev = t.dev) :
    SfsFs.domount.wp False (fun _ fs' => s.vol.SameContents fs'.vol) (fun _ _ => fs.kmem ≠ []) fs := by
  obtain ⟨hmagic, hn, hmap⟩ := h.inv.sound.mounted.mirror trivial
  rw [h.nblocks] at hn hmap
  have hroom := h.inv.sound.struct.room.trans h.inv.sound.mounted.disk
  have hroom : 2 + sfsFreemapblocks s.nblocks ≤ t.dev.dBlocks := h.nblocks ▸ hroom
  rw [← hdev] at hmagic hn hmap hroom
  apply SfsFs.domount_wp hmagic hn hword hroom
  · intro fs' hm
    apply Vol.Agrees.sameContents _ hs.sound.struct
    · intro k hk
      have hbit : fs'.freemap.bit k = s.freemap k := by
        rw [hm.bits k hk, hmap h.freemapdirty k hk, h.freemap]
      exact hbit
    · refine ⟨hm.nblocks, fun b hb => ?_⟩
      change fs'.dev.sector b = s.vol.block b
      rw [hm.reads.sector, hdev]
      exact h.written b hb
  · rintro e fs' (hq | hk)
    · rw [hdev] at hq
      exact absurd h.inv.sound.mounted.quiet hq
    · exact hk

theorem Sfs.Inv.synced (h : s.Inv True P δ) (hword : sfsFreemapbits s.nblocks + 7 < 4294967296) : s.Synced where
  inodes := h.sound.mounted.clean
  freemap := (h.sound.mounted.mirror trivial).2.2
  remount := sfsSync_wp h fun _ ht _ hdev => ht.remount h hword hdev

/-! ### Runs -/

theorem sfsSyncInode_any (h : s.Inv D P δ) {Q : Unit → Sfs → Prop} {E : Errno → Sfs → Prop}
    (hQ : ∀ t, t.Inv D P δ → s.Flushes t i → Q () t) : (sfsSyncInode i).wp True Q E s := by
  by_cases hl : s.vol.loaded i
  · exact sfsSyncInode_wp h hl hQ
  · unfold sfsSyncInode
    rw [wp_bind]
    exact getVnode_any fun _ _ _ hl' => absurd hl' hl

theorem syncStep_settled (h : s.Inv D [] 0) (hsize : s.nblocks ≤ 8388608) {e : SyncEv}
    (hstep : syncStep s e = some t) : s.Settled D t := by
  refine Op.wp.after (P := fun t => s.Settled D t) (c := True) ?_ hstep
  cases e with
  | call e => exact (sfsCall_any h e fun _ => hsize).mono (fun _ _ ht => ht.toSettled) fun _ _ ht => ht.toSettled
  | fsync ino => exact sfsSyncInode_any h fun t ht hf => ⟨ht, congrArg Vol.nblocks hf.vol⟩
  | sync => exact sfsSync_wp h fun t ht => ⟨ht.inv, ht.nblocks⟩

/-- In every run on a volume of at most 2^23 blocks that starts in order and with its
superblock and freemap on the disk: what is not dirty is on the disk, and `sfs_sync`
brings the rest there, so that a fresh mount finds the same volume. -/
theorem sfs_sync_run (s : Sfs) (hs : s.Consistent) (hdisk : s.OnDisk) (hsize : s.nblocks ≤ 8388608)
    (evs : List SyncEv) : AllStates syncStep Sfs.Synced s evs := by
  have hinv : AllStates syncStep (fun t => t.Inv True [] 0 ∧ t.nblocks ≤ 8388608) s evs := by
    refine allStates_of_step (fun s e t h hstep => ?_) ⟨hs.inv fun _ => hdisk, hsize⟩ evs
    have ht := syncStep_settled h.1 h.2 hstep
    exact ⟨ht.inv, ht.nblocks.trans_le h.2⟩
  refine hinv.mono fun t ht => ht.1.synced ?_
  have hn := ht.2
  unfold sfsFreemapbits
  omega

/-! ### Volumes on the disk -/

theorem Sfs.Inv.consistent (h : s.Inv D [] 0) : s.Consistent where
  freemap := h.freemapExact
  covered := h.sound.struct.covered
  room := h.sound.struct.room
  bounds i hi := ⟨h.sound.struct.inodeBound i hi, h.sound.struct.indBound i hi, h.sound.struct.mapBound i hi⟩
  rootType := h.dir.rootType
  rootLinks := h.dir.rootLinks
  dirSize := h.sound.struct.dirSize
  aligned := h.dir.aligned
  fileType := h.dir.fileType
  noRoot := h.dir.noRoot
  links i hi hi1 := by simpa using h.dir.links i hi hi1
  names := h.dir.names
  nodup := h.sound.mounted.nodup
  clean := h.sound.mounted.clean
  held := h.sound.mounted.held
  disk := h.sound.mounted.disk
  quiet := h.sound.mounted.quiet

/-- The volume with its superblock and its freemap on the disk. -/
def Sfs.saved (s : Sfs) : Sfs := s.remapped.poke 0 (Mksfs.newSuper [] s.nblocks)

theorem Sfs.onDisk_saved (hn : s.nblocks < 4294967296) : s.saved.OnDisk := by
  have hzero : s.saved.dev.sector 0 = Mksfs.newSuper [] s.nblocks := by
    simp only [Sfs.saved, Sfs.poke, Function.update_self]
  refine ⟨hzero ▸ Mksfs.sbMagic_newSuper .., hzero ▸ Mksfs.sbNblocks_newSuper _ hn, fun _ k hk => ?_⟩
  have hsector : s.saved.dev.sector (2 + k / 4096) = s.remapped.dev.sector (2 + k / 4096) :=
    Function.update_of_ne (by omega) ..
  rw [hsector]
  exact Sfs.bit_remapped hk

theorem Sfs.Inv.saved (h : s.Inv D [] 0) : s.saved.Consistent ∧ s.saved.OnDisk := by
  have hdisk := Sfs.onDisk_saved h.sound.word
  refine ⟨(h.rewrite (t := s.saved) (E := True) rfl rfl rfl rfl h.sound.mounted.quiet (fun b hb => ?_) fun _ => hdisk).consistent,
    hdisk⟩
  exact (Function.update_of_ne hb.1 ..).trans (Sfs.sector_remapped hb.2)

theorem Sfs.oneFile.saved {n i b : ℕ} (hn : n < 4294967296) (h : Fits n i b) :
    (oneFile n i b hn).saved.Consistent ∧ (oneFile n i b hn).saved.OnDisk :=
  ((consistent h).inv False.elim).saved

theorem sfs_sync_run_small :
    (exec syncStep (Sfs.oneFile 16 3 0 (by decide)).saved (smallRun.map .call ++ [.sync, .call .getroot])).isSome = true ∧
    AllStates syncStep Sfs.Synced (Sfs.oneFile 16 3 0 (by decide)).saved
      (smallRun.map .call ++ [.sync, .call .getroot]) := by
  have hsaved := Sfs.oneFile.saved (n := 16) (i := 3) (b := 0) (by decide)
    ⟨by decide, by decide, by decide, Or.inl rfl⟩
  exact ⟨by decide +kernel, sfs_sync_run _ hsaved.1 hsaved.2 (by decide) _⟩

/-- A whole block of zeros for the start of the file. -/
def zeroBlock : SyncEv := .call (.write 3000 (uioKinit (List.replicate 512 0) 0 .write))

/-- On a volume of 2^23 + 4096 blocks a file has its first block at 2^23 + 2. The offset
of that block wraps to the one of the first block of the freemap, so the write frees the
first 4096 blocks on the disk, and the freemap in memory, which is not dirty, is not
written. -/
theorem sfs_sync_overwritten : (Sfs.oneFile 8392704 3000 8388610 (by decide)).saved.Consistent ∧
    (Sfs.oneFile 8392704 3000 8388610 (by decide)).saved.OnDisk ∧
    ¬ AllStates syncStep Sfs.Synced (Sfs.oneFile 8392704 3000 8388610 (by decide)).saved [zeroBlock] := by
  have hsaved := Sfs.oneFile.saved (n := 8392704) (i := 3000) (b := 8388610) (by decide)
    ⟨by decide, by decide, by decide, Or.inr (by decide)⟩
  refine ⟨hsaved.1, hsaved.2, fun hall => ?_⟩
  have hrun : ((syncStep (Sfs.oneFile 8392704 3000 8388610 (by decide)).saved zeroBlock).map fun t =>
      (t.nblocks, t.freemapdirty, (t.dev.sector 2).bit 0, t.freemap 0)) = some (8392704, false, false, true) := by
    decide +kernel
  obtain ⟨t, ht, hvals⟩ := Option.map_eq_some_iff.mp hrun
  simp only [Prod.mk.injEq] at hvals
  have hbit := (hall.2 t ht).freemap hvals.2.1 0 (by rw [hvals.1]; decide)
  rw [hvals.2.2.2] at hbit
  exact Bool.noConfusion (hvals.2.2.1.symm.trans hbit)

end Os161
