import Os161.Proofs.Device
import Os161.Proofs.WriteErrors

/-! Reads and writes of regular files refine arrays of bytes. Every part of a read copies
the next bytes of the file out and leaves the volume as it is; a write within the largest
size of a file, whose copies do not fault, puts all of its bytes into the file. -/

namespace Os161

open Op

/-! ### The parts of a read -/

/-- A read that goes on at offset `off` of an open file. -/
structure Reading (i off : ℕ) (p : Sfs × Uio) : Prop where
  inv : p.1.Inv False [] 0
  small : p.1.nblocks ≤ 8388608
  loaded : p.1.vol.loaded i
  read : p.2.rw = .read
  ready : p.2.Ready
  offset : p.2.offset = off
  short : off + p.2.resid ≤ 143 * 512

/-- The next `n` bytes of the file were copied out. -/
structure Fetched (i off n : ℕ) (p q : Sfs × Uio) : Prop where
  same : q.1 = p.1
  moved : p.2.Moved q.2 p.2.iov.flatten (p.1.vol.bytes i off n)

variable {i off n m : ℕ} {p q r : Sfs × Uio} {s : Sfs} {u : Uio}

theorem Fetched.resid (hq : Fetched i off n p q) : q.2.resid + n = p.2.resid := by
  have hresid := hq.moved.resid
  rw [Vol.length_bytes] at hresid
  exact hresid

theorem Fetched.reading (hq : Fetched i off n p q) (h : Reading i off p) : Reading i (off + n) q := by
  have hresid := hq.resid
  have hshort := h.short
  obtain ⟨hsame, hmoved⟩ := hq
  refine ⟨hsame ▸ h.inv, hsame ▸ h.small, hsame ▸ h.loaded, hmoved.rw.trans h.read, hmoved.ready h.ready, ?_, by omega⟩
  rw [hmoved.offset, Vol.length_bytes, h.offset]
  push_cast
  rfl

theorem Fetched.append (hq : Fetched i off n p q) (hr : Fetched i (off + n) m q r) : Fetched i off (n + m) p r := by
  have hboth := hq.moved.carried.trans hr.moved.carried
  rw [hq.same, ← Vol.bytes_add] at hboth
  exact ⟨hr.same.trans hq.same, hboth.moved hr.moved.good⟩

theorem Reading.fileblock (h : Reading i off p) : u32 (p.2.offset.tdiv 512) = off / 512 := by
  have hshort := h.short
  have ho : p.2.offset = (0 + off : ℕ) := by rw [Nat.zero_add, h.offset]
  exact fileblock_of ho rfl (by omega)

theorem Reading.blkoff (h : Reading i off p) : p.2.offset.tmod 512 = (off % 512 : ℕ) := by
  have ho : p.2.offset = (0 + off : ℕ) := by rw [Nat.zero_add, h.offset]
  exact blkoff_of ho rfl

theorem Reading.bmap_wp (h : Reading i off (s, u)) (hfb : off / 512 < 143) {Q : ℕ → Sfs → Prop} {E : Errno → Sfs → Prop}
    (hQ : Q (s.vol.map i (off / 512)) s) : (sfsBmap i (off / 512) (decide (u.rw = .write))).wp False Q E s := by
  rw [show decide (u.rw = .write) = false by simp [show u.rw = .read from h.read]]
  exact sfsBmap_wp h.inv.sound h.loaded (fun _ => hQ) fun hbig => by omega

theorem sfsPartialio_read {len : ℕ} (h : Reading i off (s, u)) (hlen : len ≤ u.resid) (hblk : off % 512 + len ≤ 512)
    (hfb : off / 512 < 143) :
    (sfsPartialio i (off % 512) len).wp False (fun _ q => Fetched i off len (s, u) q) (fun _ _ => False) (s, u) := by
  have hi := Sfs.inode_of_loaded h.loaded
  have hrw : u.rw = .read := h.read
  have hcopy : Op.wp False (do
      Op.kassert (off % 512 + len ≤ 512)
      let moved ← onUio (uiomove ((s.vol.data i (off / 512)).slice (off % 512) len))
      if u.rw = .write then
        onFs (onDev (sfsWriteblock (s.vol.map i (off / 512))
          ((s.vol.data i (off / 512)).splice (off % 512) moved))) : IoM Unit)
      (fun _ q => Fetched i off len (s, u) q) (fun _ _ => False) (s, u) := by
    rw [wp_bind]
    refine (wp_kassert_of hblk).mpr ?_
    rw [wp_bind, ← Vol.bytes_block hblk, show off / 512 * 512 + off % 512 = off by omega]
    unfold onUio
    rw [wp_zoom]
    refine uiomove_wp h.ready (by rw [Vol.length_bytes]; exact hlen) fun u' hmoved => ?_
    rw [if_neg (by simp [hrw])]
    simp only [hrw, UioRw.traffic_read] at hmoved
    exact ⟨rfl, hmoved⟩
  unfold sfsPartialio
  rw [wp_bind, wp_get, wp_bind]
  refine (wp_kassert_of (by omega)).mpr ?_
  rw [wp_bind, h.fileblock]
  unfold onFs
  rw [wp_zoom]
  refine h.bmap_wp hfb ?_
  rw [wp_ite]
  refine ⟨fun hmap => ?_, fun hmap => ?_⟩
  · -- a hole is a block of zeros
    rw [wp_bind]
    refine (wp_kassert_of hrw).mpr ?_
    rw [Vol.data, if_pos hmap] at hcopy
    exact hcopy
  · rw [wp_bind, wp_zoom, h.inv.sound.mounted.readblock_wp (h.inv.sound.struct.mapBound i hi _ hfb),
      h.inv.sound.sector_map hi hfb hmap]
    exact hcopy

theorem sfsBlockio_read (h : Reading i off (s, u)) (hr : 512 ≤ u.resid) (hal : off % 512 = 0) :
    (sfsBlockio i).wp False (fun _ q => Fetched i off 512 (s, u) q) (fun _ _ => False) (s, u) := by
  have hi := Sfs.inode_of_loaded h.loaded
  have hrw : u.rw = .read := h.read
  have hshort : off + u.resid ≤ 143 * 512 := h.short
  have hfb : off / 512 < 143 := by omega
  have hall : s.vol.bytes i off 512 = (s.vol.data i (off / 512)).toList := by
    rw [Bytes.toList, ← Vol.bytes_block le_rfl]
    congr 1
    omega
  unfold sfsBlockio
  rw [wp_bind, wp_get, wp_bind, h.fileblock]
  unfold onFs
  rw [wp_zoom]
  refine h.bmap_wp hfb ?_
  rw [wp_ite]
  refine ⟨fun hmap => ?_, fun hmap => ?_⟩
  · rw [wp_bind]
    refine (wp_kassert_of hrw).mpr ?_
    unfold onUio
    rw [wp_zoom]
    refine uiomovezeros_wp h.ready hrw hr fun u' hm => ⟨rfl, ?_⟩
    rw [hall, Vol.data, if_pos hmap, Bytes.toList, Bytes.slice_zero_eq]
    exact hm
  · have hbound : s.vol.map i (off / 512) < s.nblocks := h.inv.sound.struct.mapBound i hi _ hfb
    have hmod : s.vol.map i (off / 512) % 8388608 = s.vol.map i (off / 512) := Nat.mod_eq_of_lt (hbound.trans_le h.small)
    refine sfsBlockDirect_sector h.ready hr (by rw [hmod]; exact hbound.trans_le h.inv.sound.mounted.disk)
      h.inv.sound.mounted.quiet (fun _ u' hm => ⟨rfl, ?_⟩) fun hw => absurd (hrw.symm.trans hw) (by simp)
    rw [hmod, h.inv.sound.sector_map hi hfb hmap, ← hall] at hm
    exact hm

theorem Reading.movesParts (h : Reading i off p) :
    MovesParts i off p (fun a q => Fetched i off a.sum p q) (fun _ _ => False) where
  start := ⟨rfl, Uio.moved_nil h.ready.good⟩
  stands a b q _ hq := by
    have hresid := hq.resid
    exact ⟨(hq.reading h).blkoff, by omega⟩
  partialio a len b q hab hq hblk := by
    have hsum := sum_split hab
    have hbegin := parts_begin hab
    have hresid := hq.resid
    have hshort := h.short
    rw [List.sum_cons] at hsum
    refine (sfsPartialio_read (hq.reading h) (by omega) hblk (by omega)).mono (fun _ r hr => ?_) fun _ _ he => he
    rw [List.sum_append, List.sum_singleton]
    exact hq.append hr
  blockio a b q hab hq hal := by
    have hsum := sum_split hab
    have hresid := hq.resid
    rw [List.sum_cons] at hsum
    refine (sfsBlockio_read (hq.reading h) (by omega) hal).mono (fun _ r hr => ?_) fun _ _ he => he
    rw [List.sum_append, List.sum_singleton]
    exact hq.append hr

/-! ### Whole calls -/

theorem Uio.Carried.advanced {u u' : Uio} {l : List UInt8} (h : u.Carried u' l) : u.Advanced u' l :=
  ⟨h.passed, h.rest, h.offset, h.resid⟩

/-- What is kept between the calls. -/
structure Sfs.FilesOk (s : Sfs) : Prop where
  inv : s.Inv False [] 0
  small : s.nblocks < 8388608
  tidy : s.vol.Tidy

theorem FileReq.Fits.ne_root {r : FileReq} (h : s.FilesOk) (hr : r.Fits s) : r.ino ≠ 1 := by
  intro h1
  have hfile := hr.file
  rw [h1, h.inv.dir.rootType] at hfile
  exact absurd hfile (by decide)

theorem FileReq.Fits.read {r : FileReq} (h : s.FilesOk) (hr : r.Fits s) (hrw : r.uio.rw = .read) :
    (sfsIo r.ino).wp False
      (fun _ q => s.Stays False q.1 ∧
        r.uio.Advanced q.2 (((s.vol.contents r.ino).drop r.uio.offset.toNat).take r.uio.resid) ∧
        s.vol.Stored q.1.vol r.ino r.uio.offset.toNat []) (fun _ _ => False) (s, r.uio) := by
  obtain ⟨i, u⟩ := r
  obtain ⟨hl, -, hready, hstart, hend⟩ := hr
  obtain ⟨off, hoff⟩ := Int.eq_ofNat_of_zero_le hstart
  simp only at hl hrw hready hend hoff ⊢
  have hshort : off + u.resid ≤ 143 * 512 := by omega
  have hstored : s.vol.Stored s.vol i off [] :=
    (s.vol.patched_self i off 0).stored (Sfs.inode_of_loaded hl) (.inl rfl)
  rw [hoff, Int.toNat_natCast]
  unfold sfsIo
  simp only [wp_bind, wp_get, onFs, wp_zoom]
  refine getVnode_wp hl fun v _ _ hv => ?_
  rw [sfsIoEof_read hrw hoff hshort, hv, Vol.contents_slice]
  by_cases hpast : (s.vol.block i).sfiSize ≤ off
  · rw [if_pos hpast, Nat.sub_eq_zero_of_le hpast, Nat.min_zero]
    exact ⟨.refl h.inv, (Uio.moved_nil hready.good).carried.advanced, hstored⟩
  rw [if_neg hpast]
  -- `n` bytes are there to be read
  set n := min u.resid ((s.vol.block i).sfiSize - off) with hn
  have hle : n ≤ u.resid := Nat.min_le_left ..
  have hreading : Reading i off (s, { u with resid := n }) :=
    ⟨h.inv, h.small.le, hl, hrw, ⟨hle.trans hready.enough, hle.trans_lt hready.word, hready.good⟩, hoff,
      (Nat.add_le_add_left hle off).trans hshort⟩
  simp only [wp_bind]
  refine (wp_kassert_of (by omega)).mpr ?_
  simp only [wp_modify, wp_attempt]
  rw [show u.resid - (u.resid - n) = n by omega]
  refine hreading.movesParts.body.mono (fun _ q hq => ?_) fun e q hq => hq.elim
  obtain ⟨t, u'⟩ := q
  have hresid := hq.resid
  obtain ⟨hsame, hmoved⟩ := hq
  simp only [sum_parts] at hsame hmoved hresid
  subst hsame
  refine sfsIoOut_wp hl (fun _ _ => ?_) (by simp)
  rw [Sfs.extended, if_neg (by simp [hmoved.rw, hrw])]
  refine ⟨.refl h.inv, ⟨hmoved.passed, hmoved.rest, hmoved.offset, ?_⟩, hstored⟩
  simp only [Vol.length_bytes, u32]
  omega

/-- After a write of all of the request the size is at least where it ended. -/
theorem Vol.Patched.written {t : Sfs} {u' : Uio} (hst : s.Stays False t)
    (hpatched : s.vol.Patched t.vol i off (u.iov.flatten.take u.resid)) (hcarried : u.Carried u' (u.iov.flatten.take u.resid))
    (hl : s.vol.loaded i) (hi1 : i ≠ 1) (hrw : u.rw = .write) (henough : u.resid ≤ u.iov.flatten.length) (ho : u.offset = off)
    (hshort : off + u.resid ≤ 143 * 512) :
    s.vol.Stored (t.extended i u.resid u').vol i off (u.iov.flatten.take u.resid) := by
  have hi := Sfs.inode_of_loaded hl
  have hlen : (u.iov.flatten.take u.resid).length = u.resid := List.length_take_of_le henough
  have hresid := hcarried.resid
  have hoffset : u'.offset = (off + u.resid : ℕ) := by
    rw [hcarried.offset, hlen, ho]
    push_cast
    rfl
  have hsize : (t.vol.block i).sfiSize = (s.vol.block i).sfiSize := (hpatched.head i hi).size
  unfold Sfs.extended
  rw [hoffset, hsize, u32_natCast (by omega)]
  split_ifs with hgrow
  · have hne : u.iov.flatten.take u.resid ≠ [] := by
      rw [← List.length_pos_iff, hlen]
      omega
    have hset := (hst.inv.setSize (hst.loaded hl) hi1 (off + u.resid)).2
    refine hpatched.extended hne ?_ (by omega) (by rw [hlen]; exact hset)
    rw [hlen]
    exact_mod_cast hgrow.2.2
  · refine hpatched.stored hi ?_
    rw [hlen, ← List.length_eq_zero_iff, hlen]
    by_contra hne
    rw [not_or] at hne
    exact hgrow ⟨by omega, hcarried.rw.trans hrw, by omega⟩

theorem FileReq.Fits.written {r : FileReq} (h : s.FilesOk) (hr : r.Fits s) (hrw : r.uio.rw = .write) :
    (sfsIo r.ino).wp False
      (fun _ q => s.Stays False q.1 ∧ r.uio.Advanced q.2 (r.uio.iov.flatten.take r.uio.resid) ∧
        s.vol.Stored q.1.vol r.ino r.uio.offset.toNat (r.uio.iov.flatten.take r.uio.resid))
      (fun e q => e = .enospc ∧ q.1.Full) (s, r.uio) := by
  obtain ⟨off, hoff⟩ := Int.eq_ofNat_of_zero_le hr.start
  have hend := hr.short
  have hw : r.IsWrite s off := ⟨h.small.le, hr.loaded, hr.file, hrw, hr.ready.enough, hr.ready.word, hoff⟩
  have hgo := hw.pouring h.inv
  have hio := hw.io_wp h.inv
  have hsum := sum_parts off r.uio.resid
  rw [Nat.mod_eq_of_lt (show off < 2199023255552 by omega)] at hgo hio
  rw [hoff, Int.toNat_natCast]
  refine hio.mono (fun _ q hq => ?_) fun e q hq => ?_
  · obtain ⟨t, hparts, ht⟩ := hq
    have hcarried := (hgo.carried hparts hsum.le).1
    have hpatched := hparts.patched
    simp only [hsum] at hcarried hpatched
    rw [ht]
    exact ⟨Sfs.extended_stays hparts.stays hr.loaded hgo.file _ _, hcarried.advanced,
      hpatched.written hparts.stays hcarried hr.loaded hgo.file hrw hr.ready.enough hoff (by omega)⟩
  · obtain ⟨t, d, m, hgiven, ht⟩ := hq
    rcases hgiven.cause with ⟨rfl, -, hfull⟩ | ⟨-, -, -, hbig⟩ | ⟨-, hfault⟩
    · refine ⟨rfl, ?_⟩
      rw [ht]
      unfold Sfs.extended
      split_ifs
      · exact hfull
      · exact hfull
    · simp only at hbig
      omega
    · rw [Uio.faultAt_good hr.ready hsum.le] at hfault
      cases hfault

theorem FileReq.Fits.served {s : Sfs} {r : FileReq} (h : s.FilesOk) (hr : r.Fits s) :
    r.Served s ∧ ∀ t, fileStep s r = some t → t.FilesOk := by
  have hfile := hr.ne_root h
  have hi := Sfs.inode_of_loaded hr.loaded
  have hnext {t : Sfs} {l : List UInt8} (hst : s.Stays False t) (hstored : s.vol.Stored t.vol r.ino r.uio.offset.toNat l) :
      t.FilesOk := ⟨hst.inv, hst.nblocks.trans_lt h.small, hstored.tidy h.tidy⟩
  unfold FileReq.Served fileStep
  cases hrw : r.uio.rw with
  | read =>
    obtain ⟨_, ⟨t, u'⟩, hio, hst, hadv, hstored⟩ | ⟨_, _, _, hE⟩ | ⟨_, hF⟩ :=
      (hr.read h hrw).cases
    · rw [hio]
      refine ⟨⟨hadv, fun j hj => hstored.contents_nil hj⟩, fun t' ht => ?_⟩
      cases ht
      exact hnext hst hstored
    · exact hE.elim
    · exact hF.elim
  | write =>
    obtain ⟨_, ⟨t, u'⟩, hio, hst, hadv, hstored⟩ | ⟨e, ⟨t, u'⟩, hio, hspace⟩ | ⟨_, hF⟩ :=
      (hr.written h hrw).cases
    · rw [hio]
      refine ⟨⟨hadv, hstored.contents h.tidy hi hfile, fun j hj hji => hstored.contents_of_ne hj hji⟩,
        fun t' ht => ?_⟩
      cases ht
      exact hnext hst hstored
    · rw [hio]
      exact ⟨⟨hspace.1, rfl, hspace.2⟩, (by simp)⟩
    · exact hF.elim

/-- In every run of reads and writes of regular files, every call does what it would
do to arrays of bytes. -/
theorem sfs_files_run (s : Sfs) (hs : s.Consistent) (hsize : s.nblocks < 8388608) (htidy : s.vol.Tidy)
    (evs : List FileReq) (hevs : AllSteps fileStep (fun t r => r.Fits t) s evs) :
    AllStates fileStep (fun t => ∀ r : FileReq, r.Fits t → r.Served t) s evs := by
  have hinv : AllStates fileStep Sfs.FilesOk s evs :=
    allStates_of_inv (fun s r t h hr ht => (hr.served h).2 t ht) ⟨hs.inv False.elim, hsize, htidy⟩ hevs
  exact hinv.mono fun t ht r hr => (hr.served ht).1

theorem Sfs.oneFile.tidy {n : ℕ} {hn : n < 4294967296} (hi : i ≠ 1) : (Sfs.oneFile n i 0 hn).vol.Tidy := by
  intro j hj h1 k _
  obtain rfl := ((Sfs.oneFile.inode_iff hi j).mp hj).resolve_left h1
  rw [Vol.fbyte, Sfs.oneFile.data_hole hi, Bytes.byte_zero]

/-- A write behind the end of an empty file, and a read across the gap and the end. -/
def gapRun : List FileReq := [⟨3, uioKinit [1, 2, 3] 600 .write⟩, ⟨3, uioKinit (List.replicate 9 255) 598 .read⟩]

theorem sfs_files_run_gap : (exec fileStep (Sfs.oneFile 16 3 0 (by decide)) gapRun).isSome = true ∧
    AllStates fileStep (fun t => ∀ r : FileReq, r.Fits t → r.Served t) (Sfs.oneFile 16 3 0 (by decide)) gapRun :=
  ⟨by decide +kernel, sfs_files_run _ (Sfs.oneFile.consistent ⟨by decide, by decide, by decide, Or.inl rfl⟩)
    (by decide) (Sfs.oneFile.tidy (by decide)) gapRun (by decide +kernel)⟩

/-- Nothing, at offset 5. -/
def emptyWrite : FileReq := ⟨3, uioKinit [] 5 .write⟩

/-- After a write of no bytes behind the end of an empty file its size is still 0.
And where a truncation left a byte behind the end of a file, a write behind that
byte brings it back: the gap is not filled with zeros. -/
theorem sfs_write_not_overlay : (Sfs.oneFile 16 3 0 (by decide)).Consistent ∧
    emptyWrite.Fits (Sfs.oneFile 16 3 0 (by decide)) ∧
    ((fileStep (Sfs.oneFile 16 3 0 (by decide)) emptyWrite).map fun t => (t.vol.contents 3).length) = some 0 ∧
    ((exec sfsStep (Sfs.oneFile 16 3 0 (by decide)) [.write 3 (uioKinit [1, 2] 0 .write), .truncate 3 1]).bind fun s =>
      (fileStep s ⟨3, uioKinit [3] 2 .write⟩).map fun t => (s.vol.contents 3, t.vol.contents 3)) =
      some ([1], [1, 2, 3]) :=
  ⟨Sfs.oneFile.consistent ⟨by decide, by decide, by decide, Or.inl rfl⟩, by decide +kernel⟩

end Os161
