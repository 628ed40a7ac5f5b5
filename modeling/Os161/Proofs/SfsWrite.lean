import Os161.Proofs.SfsVnops

/-! A write through `sfs_io` leaves the volume in order, whatever the uio is and
however the copies end, as long as the 32-bit disk offset of `sfs_blockio` does not
wrap. -/

namespace Os161

open Op

variable {s t : Sfs} {u : Uio} {i fb : ℕ} {D : Prop}

/-- A copy moves some bytes, or meets a fault. -/
theorem uiomove_any {ptr : List UInt8} {Q : List UInt8 → Uio → Prop} {E : Errno → Uio → Prop}
    (hQ : ∀ l u', Q l u') (hE : ∀ u', E .efault u') : (uiomove ptr).wp True Q E u := by
  have herr : ∀ e u', uiomoveLoop u.iov ptr u = .err e u' → e = .efault := by
    refine uiomoveLoop_rule (P := fun _ _ _ r => ∀ e u', r = .err e u' → e = .efault) ?stop ?out ?skip ?fault ?last ?full
      ?next u.iov ptr u
    case stop | out | last | full =>
      intros
      contradiction
    case skip => exact fun _ _ _ _ _ ih => ih
    case fault =>
      intro _ _ _ _ _ _ _ _ e u' h
      cases h
      rfl
    case next =>
      intro buf rest ptr u seg moved r _ _ _ _ _ _ ih e u' h
      cases r with
      | err e' v =>
        cases h
        exact ih e u' rfl
      | ok l v => cases h
      | panic => cases h
  unfold Op.wp uiomove
  cases h : uiomoveLoop u.iov ptr u with
  | ok l u' => exact hQ l u'
  | err e u' => exact herr e u' h ▸ hE u'
  | panic => trivial

/-! ### The device under an arbitrary uio -/

/-- What a transfer of one block may do to a disk without errors. -/
def Lhd.OneWrite (d d' : Lhd) (block : ℕ) : Prop :=
  d' = d ∨ ∃ x, d' = { d with sector := Function.update d.sector block x }

/-- `lhd_io` of one sector, behind the copy out of the uio of a write. -/
def lhdTransfer (sect : ℕ) (buf : List UInt8) : Op (Lhd × Uio) Errno Unit := do
  let (d, u) ← Op.get
  let (result, d) := d.operate sect u.rw (Bytes.ofList buf)
  Op.set (d, u)
  match result with
  | .error e => Op.fail e
  | .ok data =>
    match u.rw with
    | .write => pure ()
    | .read => do
      let _ ← onUio (uiomove data.toList)

/-- `uio_rw` is as good as any. -/
theorem lhdTransfer_any {d : Lhd} (hd : d.outcomes = []) {block : ℕ} (hb : block < d.dBlocks) (buf : List UInt8)
    {Q : Unit → Lhd × Uio → Prop} {E : Errno → Lhd × Uio → Prop} (hQ : ∀ d' u', d.OneWrite d' block → Q () (d', u'))
    (hE : ∀ d' u', d.OneWrite d' block → E .efault (d', u')) : (lhdTransfer block buf).wp True Q E (d, u) := by
  have hself : ({ d with outcomes := d.outcomes.tail } : Lhd) = d := by rw [hd, List.tail_nil, ← hd]
  have hgood : d.outcomes.head? ≠ some .media := by simp [hd]
  unfold lhdTransfer
  simp only [wp_bind, wp_get, Lhd.operate_ok hb hgood]
  cases u.rw with
  | read =>
    simp only [wp_bind, wp_set, onUio, wp_zoom, hself]
    exact uiomove_any (fun _ u' => hQ d u' (Or.inl rfl)) fun u' => hE d u' (Or.inl rfl)
  | write =>
    simp only [wp_set, wp_pure]
    refine hQ _ u (Or.inr ⟨Bytes.ofList buf, ?_⟩)
    rw [hd, List.tail_nil]

theorem lhdSector_any {d : Lhd} (hd : d.outcomes = []) {block : ℕ} (hb : block < d.dBlocks)
    {Q : Unit → Lhd × Uio → Prop} {E : Errno → Lhd × Uio → Prop} (hQ : ∀ d' u', d.OneWrite d' block → Q () (d', u'))
    (hE : ∀ d' u', d.OneWrite d' block → E .efault (d', u')) : (lhdSector block).wp True Q E (d, u) := by
  unfold lhdSector
  simp only [wp_bind, wp_get]
  cases u.rw with
  | read => exact lhdTransfer_any hd hb [] hQ hE
  | write =>
    simp only [wp_bind, onUio, wp_zoom]
    exact uiomove_any (fun l u' => lhdTransfer_any hd hb l hQ hE) fun u' => hE d u' (Or.inl rfl)

theorem sfsRwblock_any {d : Lhd} (hd : d.outcomes = []) {block : ℕ} (hb : block < d.dBlocks)
    (ho : u.offset = block * 512) (hr : u.resid = 512)
    {Q : Unit → Lhd × Uio → Prop} {E : Errno → Lhd × Uio → Prop} (hQ : ∀ d' u', d.OneWrite d' block → Q () (d', u'))
    (hE : ∀ d' u', d.OneWrite d' block → E .efault (d', u')) : sfsRwblock.wp True Q E (d, u) := by
  have hword := d.word
  have hio : lhdIo (d, u) = lhdSector block (d, u) := by
    rw [lhdIo_one (by omega) ho hr, if_neg (by omega)]
  have hsector := lhdSector_any (u := u) hd hb (Q := fun _ p => d.OneWrite p.1 block)
    (E := fun e p => e = .efault ∧ d.OneWrite p.1 block) (fun _ _ h => h) fun _ _ h => ⟨rfl, h⟩
  unfold sfsRwblock sfsRetry sfsTry
  rw [wp_bind, wp_attempt, Op.wp, hio]
  obtain ⟨_, ⟨d', u'⟩, h, hw⟩ | ⟨e, ⟨d', u'⟩, h, rfl, hw⟩ | ⟨h, -⟩ := hsector.cases
  · rw [h]
    exact hQ d' u' hw
  · rw [h]
    exact hE d' u' hw
  · rw [h]
    trivial

/-! ### `sfs_io` -/

/-- The volume is in order, with the same vnodes. -/
structure Sfs.Stays (D : Prop) (s t : Sfs) : Prop where
  inv : t.Inv D [] 0
  nblocks : t.nblocks = s.nblocks
  table : t.table = s.table

theorem Sfs.Stays.refl (h : s.Inv D [] 0) : s.Stays D s := ⟨h, rfl, rfl⟩

theorem Sfs.Stays.trans {w : Sfs} (h : s.Stays D t) (h' : t.Stays D w) : s.Stays D w :=
  ⟨h'.inv, h'.nblocks.trans h.nblocks, h'.table.trans h.table⟩

theorem Sfs.Keeps.stays (h : s.Inv D [] 0) (ht : t.Sound D []) (hk : s.Keeps t) : s.Stays D t :=
  ⟨h.keeps ht hk, hk.vol.nblocks, hk.table⟩

theorem Sfs.Stays.loaded (h : s.Stays D t) (hl : s.vol.loaded i) : t.vol.loaded i := by
  rw [Sfs.loaded_congr h.table]
  exact hl

/-- `sfs_bmap` in either mode. -/
theorem sfsBmap_any {c : Prop} (h : s.Inv D [] 0) (hl : s.vol.loaded i) {doalloc : Bool} {Q : ℕ → Sfs → Prop}
    {E : Errno → Sfs → Prop} (hQ : ∀ t, s.Stays D t → fb < 143 → Q (t.vol.map i fb) t)
    (hE : ∀ e t, s.Stays D t → E e t) : (sfsBmap i fb doalloc).wp c Q E s := by
  cases doalloc with
  | false => exact sfsBmap_wp h.sound hl (fun hfb => hQ s (.refl h) hfb) fun _ => hE _ s (.refl h)
  | true =>
    exact sfsBmap_alloc_wp h.sound hl (fun t ht hk hfb _ => hQ t (hk.stays h ht) hfb)
      fun e t ht hk _ => hE e t (hk.stays h ht)

/-- A block of a file is written. -/
theorem Sfs.Inv.pokeData (h : s.Inv D [] 0) (hl : s.vol.loaded i) (hi1 : i ≠ 1) (hfb : fb < 143)
    (h0 : s.vol.map i fb ≠ 0) (x : Block) :
    s.Stays D (s.poke (s.vol.map i fb) x) ∧ s.vol.SetData (s.poke (s.vol.map i fb) x).vol i fb x := by
  have hi := Sfs.inode_of_loaded hl
  have hnot := h.sound.not_loaded_map hi hfb h0
  have hw := Sfs.vol_poke x hnot
  have hin := h.sound.struct.inode_wrote_data hi hi1 hfb h0 hw
  obtain ⟨hstruct, hset⟩ := h.sound.struct.writeData hi hfb h0 hw rfl hin
  exact ⟨⟨⟨⟨h.sound.mounted.poke x hnot (h.sound.struct.clear_map hi hfb h0), hstruct⟩, h.dir.setData h.sound.struct hi1 hset⟩, rfl, rfl⟩, hset⟩

/-- The size of a file is set. -/
theorem Sfs.Inv.setSize (h : s.Inv D [] 0) (hl : s.vol.loaded i) (hi1 : i ≠ 1) (size : ℕ) :
    s.Stays D (s.dirtied i (·.setSfiSize size)) ∧
      s.vol.SetHead (s.dirtied i (·.setSfiSize size)).vol i ((s.vol.block i).setSfiSize size) := by
  have hi := Sfs.inode_of_loaded hl
  have hw := Sfs.vol_dirtied (·.setSfiSize size) hl
  have hx := Bytes.samePointers_setNum (b := s.vol.block i) (w := 4) (o := 0) (by omega) size
  have hroot := hw.of_ne (Ne.symm hi1)
  have hin := h.sound.struct.inode_wrote_head hi hw hx (by rw [hroot])
  obtain ⟨hstruct, hset⟩ := h.sound.struct.setHead hi hw hx rfl hin
    (by rw [hroot]; exact h.sound.struct.dirSize)
  have hlinks : ((s.vol.block i).setSfiSize size).sfiLinkcount = (s.vol.block i).sfiLinkcount :=
    Bytes.sfiLinkcount_setSfiSize
  exact ⟨⟨⟨⟨h.sound.mounted.dirtied _, hstruct⟩,
    h.dir.setHead h.sound.struct hi1 hset Bytes.sfiType_setSfiSize (by rw [hlinks]) fun _ _ => rfl⟩, rfl,
    Sfs.table_dirtied _⟩, hset⟩

theorem sfsPartialio_any (h : s.Inv D [] 0) (hl : s.vol.loaded i) (hi1 : i ≠ 1) (skipstart len : ℕ) :
    (sfsPartialio i skipstart len).wp True (fun _ p => s.Stays D p.1) (fun _ p => s.Stays D p.1) (s, u) := by
  unfold sfsPartialio
  simp only [wp_bind, wp_get, wp_kassert_true, onFs, wp_zoom]
  intro _
  refine sfsBmap_any h hl (fun t ht hfb => ?_) fun e t ht => ht
  have hlt := ht.loaded hl
  have hbound := ht.inv.sound.struct.mapBound i (Sfs.inode_of_loaded hlt) _ hfb
  -- from the copy on, with either contents of the buffer
  have hrest (iobuf : Block) (h0 : u.rw = .write → t.vol.map i (u32 (u.offset.tdiv 512)) ≠ 0) :
      Op.wp True (do
        Op.kassert (skipstart + len ≤ 512)
        let moved ← onUio (uiomove (iobuf.slice skipstart len))
        if u.rw = .write then
          onFs (onDev (sfsWriteblock (t.vol.map i (u32 (u.offset.tdiv 512))) (iobuf.splice skipstart moved))) : IoM Unit)
        (fun _ p => s.Stays D p.1) (fun _ p => s.Stays D p.1) (t, u) := by
    simp only [wp_bind, wp_kassert_true, onUio, wp_zoom, wp_ite, onFs, wp_pure]
    intro _
    refine uiomove_any (fun moved u' => ⟨fun hw => ?_, fun _ => ht⟩) fun _ => ht
    rw [ht.inv.sound.mounted.writeblock_wp hbound]
    exact ht.trans (ht.inv.pokeData hlt hi1 hfb (h0 hw) _).1
  rw [wp_ite]
  refine ⟨fun h0 => ?_, fun h0 => ?_⟩
  · simp only [wp_bind, wp_kassert_true, wp_pure] at hrest ⊢
    exact fun hread => hrest Bytes.zero fun hw => absurd (hread.symm.trans hw) (by simp)
  · simp only [wp_bind] at hrest ⊢
    rw [wp_zoom, ht.inv.sound.mounted.readblock_wp hbound]
    exact hrest _ fun _ => h0

theorem sfsBlockDirect_any (h : s.Inv D [] 0) (hsize : s.nblocks ≤ 8388608) (hl : s.vol.loaded i) (hi1 : i ≠ 1)
    (hfb : fb < 143) (h0 : s.vol.map i fb ≠ 0) :
    (sfsBlockDirect (s.vol.map i fb)).wp True (fun _ p => s.Stays D p.1) (fun _ p => s.Stays D p.1) (s, u) := by
  have hbound : s.vol.map i fb < s.nblocks := h.sound.struct.mapBound i (Sfs.inode_of_loaded hl) _ hfb
  have hdisk := h.sound.mounted.disk
  have hmod : s.vol.map i fb * 512 % 4294967296 = s.vol.map i fb * 512 := by omega
  have hwrite {d' : Lhd} (hd : s.dev.OneWrite d' (s.vol.map i fb)) : s.Stays D { s with dev := d' } := by
    rcases hd with rfl | ⟨x, rfl⟩
    · exact .refl h
    · exact (h.pokeData hl hi1 hfb h0 x).1
  unfold sfsBlockDirect
  simp only [wp_bind, wp_get, wp_kassert_true, wp_modify, wp_attempt, onDevUio, wp_zoom, hmod]
  intro _
  exact sfsRwblock_any h.sound.mounted.quiet (by omega) (by simp) rfl (fun d' u' hd => hwrite hd)
    fun d' u' hd => hwrite hd

theorem sfsBlockio_any (h : s.Inv D [] 0) (hsize : s.nblocks ≤ 8388608) (hl : s.vol.loaded i) (hi1 : i ≠ 1) :
    (sfsBlockio i).wp True (fun _ p => s.Stays D p.1) (fun _ p => s.Stays D p.1) (s, u) := by
  unfold sfsBlockio
  simp only [wp_bind, wp_get, onFs, wp_zoom]
  refine sfsBmap_any h hl (fun t ht hfb => ?_) fun e t ht => ht
  rw [wp_ite]
  refine ⟨fun _ => ?_, fun h0 => ?_⟩
  · simp only [wp_bind, wp_kassert_true, onUio, wp_zoom]
    exact fun _ => wp_always (fun _ _ => ht) fun _ _ => ht
  · exact (sfsBlockDirect_any ht.inv (ht.nblocks.trans_le hsize) (ht.loaded hl) hi1 hfb h0).mono
      (fun _ _ hp => ht.trans hp) fun _ _ hp => ht.trans hp

theorem sfsIoHead_any (h : s.Inv D [] 0) (hl : s.vol.loaded i) (hi1 : i ≠ 1) :
    (sfsIoHead i).wp True (fun _ p => s.Stays D p.1) (fun _ p => s.Stays D p.1) (s, u) := by
  unfold sfsIoHead
  simp only [wp_bind, wp_get, wp_ite, wp_pure]
  exact ⟨fun _ => sfsPartialio_any h hl hi1 _ _, fun _ => .refl h⟩

theorem sfsIoTail_any (h : s.Inv D [] 0) (hsize : s.nblocks ≤ 8388608) (hl : s.vol.loaded i) (hi1 : i ≠ 1) :
    (sfsIoTail i).wp True (fun _ p => s.Stays D p.1) (fun _ p => s.Stays D p.1) (s, u) := by
  unfold sfsIoTail
  simp only [wp_bind, wp_get, wp_ite, wp_pure, wp_kassert_true]
  refine ⟨fun _ => .refl h, fun _ _ => ?_⟩
  apply wp_foldlM (fun _ (_ : Unit) p => s.Stays D p.1)
  · rintro _ _ _ ⟨t, u'⟩ ht
    exact (sfsBlockio_any ht.inv (ht.nblocks.trans_le hsize) (ht.loaded hl) hi1).mono
      (fun _ _ hp => ht.trans hp) fun _ _ hp => ht.trans hp
  · rintro _ ⟨t, u'⟩ ht
    refine fun _ => ⟨fun _ => ?_, fun _ => ht⟩
    exact (sfsPartialio_any ht.inv (ht.loaded hl) hi1 _ _).mono (fun _ _ hp => ht.trans hp)
      fun _ _ hp => ht.trans hp
  · exact .refl h

theorem sfsIoOut_any (h : s.Inv D [] 0) (hl : s.vol.loaded i) (hi1 : i ≠ 1) (origresid extraresid : ℕ)
    (result : Except Errno Unit) :
    (sfsIoOut i origresid extraresid result).wp True (fun _ p => s.Stays D p.1) (fun _ p => s.Stays D p.1) (s, u) := by
  unfold sfsIoOut
  simp only [wp_bind, wp_get, onFs, wp_zoom]
  refine getVnode_wp hl fun v _ _ _ => ?_
  cases result with
  | ok _ =>
    simp only [wp_ite, wp_bind, wp_zoom, wp_modify, wp_pure]
    exact ⟨fun _ => (h.setSize hl hi1 _).1, fun _ => .refl h⟩
  | error e =>
    simp only [wp_ite, wp_bind, wp_zoom, wp_modify, wp_fail]
    exact ⟨fun _ => (h.setSize hl hi1 _).1, fun _ => .refl h⟩

/-- Whatever the request, `sfs_io` leaves the volume in order. -/
theorem sfsIo_any (h : s.Inv D [] 0) (hsize : s.nblocks ≤ 8388608) (hl : s.vol.loaded i) (hi1 : i ≠ 1) :
    (sfsIo i).wp True (fun _ p => s.Stays D p.1) (fun _ p => s.Stays D p.1) (s, u) := by
  unfold sfsIo
  simp only [wp_bind, wp_get, onFs, wp_zoom]
  refine getVnode_wp hl fun v _ _ _ => ?_
  cases sfsIoEof v.i.sfiSize u with
  | none => exact .refl h
  | some extraresid =>
    simp only [wp_bind, wp_kassert_true, wp_modify, wp_attempt]
    intro _
    have hout (t : Sfs) (u' : Uio) (ht : s.Stays D t) (result : Except Errno Unit) :
        (sfsIoOut i u.resid extraresid result).wp True (fun _ p => s.Stays D p.1) (fun _ p => s.Stays D p.1) (t, u') :=
      (sfsIoOut_any ht.inv (ht.loaded hl) hi1 _ _ result).mono (fun _ _ hp => ht.trans hp)
        fun _ _ hp => ht.trans hp
    refine (sfsIoHead_any h hl hi1).mono (fun _ p hp => ?_) fun _ p hp => hout p.1 p.2 hp _
    exact (sfsIoTail_any hp.inv (hp.nblocks.trans_le hsize) (hp.loaded hl) hi1).mono
      (fun _ q hq => hout q.1 q.2 (hp.trans hq) _) fun _ q hq => hout q.1 q.2 (hp.trans hq) _

theorem sfsWrite_any (h : s.Inv D [] 0) (hsize : s.nblocks ≤ 8388608) (hl : s.vol.loaded i) (hi1 : i ≠ 1) :
    (sfsWrite i u).wp True (fun _ t => s.Stays D t) (fun _ t => s.Stays D t) s := by
  unfold Op.wp sfsWrite
  obtain ⟨_, ⟨t, u'⟩, h, hw⟩ | ⟨e, ⟨t, u'⟩, h, hw⟩ | ⟨h, -⟩ := (sfsIo_any (u := u) h hsize hl hi1).cases
  · rw [h]
    exact hw
  · rw [h]
    exact hw
  · rw [h]
    trivial

end Os161
