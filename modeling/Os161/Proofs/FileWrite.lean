import Os161.Proofs.SfsFile
import Os161.Spec.FileWrite

/-! A write through `sfs_io`, part by part. A part that is moved is in the file
afterwards; one that is given up leaves the file as it was, though the uio may have
gone on by some of its bytes. -/

namespace Os161

open Op

/-! ### The copies -/

/-- The uio `w` that came of `u`, had the transfer been at offset `o` with residue `r`. -/
def Uio.shift (u : Uio) (o : ℤ) (r : ℕ) (w : Uio) : Uio :=
  { w with offset := w.offset - u.offset + o, resid := w.resid + r - u.resid }

/-- How far the copies out of the iovecs get does not depend on what is in the buffer, or on
where the transfer is. -/
theorem uiomoveLoop_shift (iov : List (List UInt8)) {ptr ptr' : List UInt8} {u : Uio} {o : ℤ} {r : ℕ} (hrw : u.rw = .write)
    (hptr : ptr'.length = ptr.length) (hu : ptr.length ≤ u.resid) (hw : u.resid < 4294967296) (hr : ptr.length ≤ r)
    (hw' : r < 4294967296) :
    uiomoveLoop iov ptr' { u with offset := o, resid := r } = (uiomoveLoop iov ptr u).map (u.shift o r) := by
  induction iov generalizing ptr ptr' u o r with
  | nil =>
    by_cases hnil : ptr = []
    · subst hnil
      obtain rfl := List.length_eq_zero_iff.mp hptr
      simp [uiomoveLoop, Res.map, Uio.shift]
    · have hpos := List.length_pos_iff.mpr hnil
      have hnil' : ptr' ≠ [] := List.length_pos_iff.mp (hptr ▸ hpos)
      simp [uiomoveLoop, hnil, hnil', Res.map, show u.resid ≠ 0 by omega, show r ≠ 0 by omega]
  | cons buf rest ih =>
    by_cases hnil : ptr = []
    · subst hnil
      obtain rfl := List.length_eq_zero_iff.mp hptr
      simp [uiomoveLoop, Res.map, Uio.shift]
    have hpos := List.length_pos_iff.mpr hnil
    have hgo : ¬ (ptr = [] ∨ u.resid = 0) := not_or.mpr ⟨hnil, by omega⟩
    have hgo' : ¬ (ptr' = [] ∨ r = 0) := not_or.mpr ⟨List.length_pos_iff.mp (hptr ▸ hpos), by omega⟩
    unfold uiomoveLoop
    dsimp only
    rw [if_neg hgo', if_neg hgo]
    by_cases hempty : buf = []
    · rw [if_pos hempty, if_pos hempty]
      exact ih hrw hptr hu hw hr hw'
    rw [if_neg hempty, if_neg hempty]
    rcases hcopy : u.seg.copy with ⟨_ | _, seg⟩
    · simp [Res.map, Uio.shift]
    have hsource (p mem : List UInt8) : u.rw.source p mem = mem := by rw [hrw]; rfl
    simp only [hsource, hptr]
    by_cases hle : ptr.length ≤ buf.length
    · simp only [if_pos hle, min_eq_right hle, List.drop_of_length_le hptr.le, List.drop_length]
      have hl : (buf.take ptr.length).length = ptr.length := List.length_take_of_le hle
      simp only [Res.map, Uio.shift, Uio.advance, hl, u32_sub hu hw, u32_sub hr hw']
      congr 2
      · ring
      · omega
    have hlt : buf.length ≤ ptr.length := by omega
    have hres : u32 (u.resid - buf.length) = u.resid - buf.length := u32_sub (by omega) hw
    have hres' : u32 (r - buf.length) = r - buf.length := u32_sub (by omega) hw'
    have hdrop : (ptr'.drop buf.length).length = (ptr.drop buf.length).length := by simp [hptr]
    have hnext := ih (u := u.advance buf seg) (o := o + buf.length) (r := r - buf.length) hrw hdrop
      (by simp only [Uio.advance, List.length_drop]; omega)
      (by simp only [Uio.advance]; omega) (by rw [List.length_drop]; omega) (by omega)
    have hshift : (u.advance buf seg).shift (o + buf.length) (r - buf.length) = u.shift o r := by
      funext w
      simp only [Uio.shift, Uio.advance, hres]
      congr 1
      · ring
      · omega
    rw [hshift] at hnext
    simp only [if_neg hle, min_eq_left hlt, List.take_length]
    rw [if_neg (by simp only [Uio.advance]; omega), if_neg (by simp only [Uio.advance]; omega)]
    rw [show Uio.advance { u with offset := o, resid := r } buf seg =
      { u.advance buf seg with offset := o + buf.length, resid := r - buf.length } by simp [Uio.advance, hres'], hnext]
    cases uiomoveLoop rest (ptr.drop buf.length) (u.advance buf seg) <;> rfl

theorem uiomove_shift {ptr : List UInt8} {u : Uio} {o : ℤ} {r : ℕ} (hrw : u.rw = .write) (hu : ptr.length ≤ u.resid)
    (hw : u.resid < 4294967296) (hr : ptr.length ≤ r) (hw' : r < 4294967296) :
    uiomove ptr { u with offset := o, resid := r } = (uiomove (List.replicate ptr.length 0) u).map (u.shift o r) :=
  have hl := List.length_replicate (n := ptr.length) (a := (0 : UInt8))
  uiomoveLoop_shift u.iov hrw hl.symm (hl.trans_le hu) hw (hl.trans_le hr) hw'

theorem uiomove_zeros {ptr : List UInt8} {u : Uio} (hrw : u.rw = .write) (hu : ptr.length ≤ u.resid)
    (hw : u.resid < 4294967296) : uiomove ptr u = uiomove (List.replicate ptr.length 0) u := by
  have hsame : u.shift u.offset u.resid = id := by
    funext w
    simp [Uio.shift]
  have hshift := uiomove_shift (o := u.offset) hrw hu hw hu hw
  rw [hsame] at hshift
  refine hshift.trans ?_
  cases uiomove (List.replicate ptr.length 0) u <;> rfl

/-- The next `len` bytes of a write are copied, or some of them up to a fault. -/
theorem uiomove_write {u : Uio} {len : ℕ} (hrw : u.rw = .write) (hlen : len ≤ u.resid)
    (henough : u.resid ≤ u.iov.flatten.length) (hw : u.resid < 4294967296) :
    (∃ u', uiomove (List.replicate len 0) u = .ok (u.iov.flatten.take len) u' ∧
      u.Carried u' (u.iov.flatten.take len) ∧ (u.seg.Good → u'.seg.Good)) ∨
    ∃ u' m, uiomove (List.replicate len 0) u = .err .efault u' ∧ m < len ∧ u.Carried u' (u.iov.flatten.take m) ∧
      ¬ u.seg.Good := by
  have hcarries (m : ℕ) : u.carries (List.replicate len 0) m = u.iov.flatten.take m := by
    rw [Uio.carries, hrw]
    rfl
  have hmin : min (List.replicate len (0 : UInt8)).length u.resid = len := by
    rw [List.length_replicate, min_eq_left hlen]
  have hend : MoveEnd u (List.replicate len 0) _ := uiomove_end henough hw (.inl (by rw [List.length_replicate]; exact hlen))
  cases hmove : uiomove (List.replicate len 0) u with
  | ok l u' =>
    rw [hmove] at hend
    obtain ⟨hcarried, hl, -, hgood⟩ := hend
    rw [hmin, hcarries] at hcarried hl
    rw [List.drop_of_length_le (by simp), List.append_nil] at hl
    exact .inl ⟨u', by rw [hl], hcarried, hgood⟩
  | err e u' =>
    rw [hmove] at hend
    obtain ⟨rfl, hbad, k, -, hk, hcarried⟩ := hend
    rw [hmin] at hk
    rw [hcarries] at hcarried
    exact .inr ⟨u', _, rfl, hk, hcarried, hbad⟩
  | panic =>
    rw [hmove] at hend
    exact hend.elim

/-! ### One part -/

/-- A write that goes on at offset `base + pos`, for which the file blocks are those
from `pos` on. -/
structure Pouring (i base pos : ℕ) (p : Sfs × Uio) : Prop where
  inv : p.1.Inv False [] 0
  small : p.1.nblocks ≤ 8388608
  loaded : p.1.vol.loaded i
  file : i ≠ 1
  write : p.2.rw = .write
  enough : p.2.resid ≤ p.2.iov.flatten.length
  word : p.2.resid < 4294967296
  offset : p.2.offset = (base + pos : ℕ)
  whole : base % 2199023255552 = 0
  low : pos < 2199023255552

/-- The next `len` bytes are in the file. -/
structure Part (i pos len : ℕ) (p q : Sfs × Uio) : Prop where
  stays : p.1.Stays False q.1
  low : pos / 512 < 143
  copied : uiomove (List.replicate len 0) p.2 = .ok (p.2.iov.flatten.take len) q.2
  patched : p.1.vol.Patched q.1.vol i pos (p.2.iov.flatten.take len)

/-- The part was given up, and the file is as it was. -/
structure PartFails (pos len : ℕ) (p : Sfs × Uio) (e : Errno) (q : Sfs × Uio) : Prop where
  stays : p.1.Stays False q.1
  same : p.1.vol.Same q.1.vol
  cause : (e = .enospc ∧ q.2 = p.2 ∧ q.1.Full) ∨ (e = .efbig ∧ q.2 = p.2 ∧ 143 ≤ pos / 512) ∨
    (e = .efault ∧ pos / 512 < 143 ∧ pos + len ≤ 143 * 512 ∧ uiomove (List.replicate len 0) p.2 = .err .efault q.2)

variable {i base pos len : ℕ} {p q r : Sfs × Uio} {s : Sfs} {u : Uio}

/-- File blocks are numbered in 32 bits. -/
theorem fileblock_of {o : ℤ} (ho : o = (base + pos : ℕ)) (hwhole : base % 2199023255552 = 0) (hlow : pos < 2199023255552) :
    u32 (o.tdiv 512) = pos / 512 := by
  rw [ho, show ((base + pos : ℕ) : ℤ).tdiv 512 = (((base + pos) / 512 : ℕ) : ℤ) from (Int.ofNat_tdiv _ 512).symm]
  unfold u32
  omega

theorem blkoff_of {o : ℤ} (ho : o = (base + pos : ℕ)) (hwhole : base % 2199023255552 = 0) : o.tmod 512 = (pos % 512 : ℕ) := by
  rw [ho, show ((base + pos : ℕ) : ℤ).tmod 512 = (((base + pos) % 512 : ℕ) : ℤ) from (Int.ofNat_tmod _ 512).symm]
  congr 1
  omega

theorem Pouring.fileblock (h : Pouring i base pos p) : u32 (p.2.offset.tdiv 512) = pos / 512 :=
  fileblock_of h.offset h.whole h.low

theorem Pouring.blkoff (h : Pouring i base pos p) : p.2.offset.tmod 512 = (pos % 512 : ℕ) := blkoff_of h.offset h.whole

/-- The block of the part is found or made, or there is no room for it. -/
theorem Pouring.bmap_wp (h : Pouring i base pos (s, u)) (len : ℕ) {c : Prop} {Q : ℕ → Sfs → Prop} {E : Errno → Sfs → Prop}
    (hQ : ∀ t, s.Stays False t → s.vol.Same t.vol → pos / 512 < 143 → t.vol.map i (pos / 512) ≠ 0 →
      Q (t.vol.map i (pos / 512)) t)
    (hE : ∀ e t, PartFails pos len (s, u) e (t, u) → E e t) :
    (sfsBmap i (pos / 512) (decide (u.rw = .write))).wp c Q E s := by
  rw [show decide (u.rw = .write) = true from decide_eq_true h.write]
  apply sfsBmap_alloc_wp h.inv.sound h.loaded
  · intro t ht hk hfb h0
    exact hQ t (hk.stays h.inv ht) hk.vol hfb h0
  · intro e t ht hk he
    apply hE e t
    refine ⟨hk.stays h.inv ht, hk.vol, ?_⟩
    obtain ⟨rfl, -, hfull⟩ | ⟨rfl, hbig⟩ := he
    · exact .inl ⟨rfl, rfl, hfull⟩
    · exact .inr (.inl ⟨rfl, rfl, hbig⟩)

/-- What is known once the block is there. -/
theorem Pouring.mapped (h : Pouring i base pos (s, u)) {t : Sfs} (hst : s.Stays False t) : Pouring i base pos (t, u) where
  inv := hst.inv
  small := hst.nblocks.trans_le h.small
  loaded := hst.loaded h.loaded
  file := h.file
  write := h.write
  enough := h.enough
  word := h.word
  offset := h.offset
  whole := h.whole
  low := h.low

/-- The copy of a partial block into the buffer, and the write of the buffer. -/
theorem pourBuffer_wp {t : Sfs} (h : Pouring i base pos (s, u)) (hlen : len ≤ u.resid) (hblk : pos % 512 + len ≤ 512)
    (hst : s.Stays False t) (hsame : s.vol.Same t.vol) (hfb : pos / 512 < 143) (h0 : t.vol.map i (pos / 512) ≠ 0) :
    Op.wp False (do
      Op.kassert (pos % 512 + len ≤ 512)
      let moved ← onUio (uiomove ((t.vol.data i (pos / 512)).slice (pos % 512) len))
      if u.rw = .write then
        onFs (onDev (sfsWriteblock (t.vol.map i (pos / 512))
          ((t.vol.data i (pos / 512)).splice (pos % 512) moved))) : IoM Unit)
      (fun _ q => Part i pos len (s, u) q) (fun e q => PartFails pos len (s, u) e q) (t, u) := by
  have ht := h.mapped hst
  have hit := Sfs.inode_of_loaded ht.loaded
  have hslice := Bytes.length_slice (t.vol.data i (pos / 512)) (pos % 512) len
  have hmove := uiomove_zeros h.write (hslice.trans_le hlen) h.word
  rw [hslice] at hmove
  rw [wp_bind]
  apply (wp_kassert_of hblk).mpr
  rw [wp_bind]
  unfold onUio
  rw [wp_zoom]
  rcases uiomove_write h.write hlen h.enough h.word with ⟨u', hok, -, -⟩ | ⟨u', m, herr, -, -, -⟩
  · apply (wp_of_ok (hmove.trans hok)).mpr
    rw [if_pos h.write]
    unfold onFs
    rw [wp_zoom, ht.inv.sound.mounted.writeblock_wp (ht.inv.sound.struct.mapBound i hit _ hfb)]
    obtain ⟨hstays, hset⟩ := ht.inv.pokeData ht.loaded h.file hfb h0
      ((t.vol.data i (pos / 512)).splice (pos % 512) (u.iov.flatten.take len))
    refine ⟨hst.trans hstays, hfb, hok, ?_⟩
    have hl : (u.iov.flatten.take len).length = len := List.length_take_of_le (hlen.trans h.enough)
    have hpatched := hset.patched (by rw [hl]; exact hblk) hfb
    rw [show pos / 512 * 512 + pos % 512 = pos by omega] at hpatched
    exact hsame.patched hpatched
  · apply (wp_of_err (hmove.trans herr)).mpr
    exact ⟨hst, hsame, .inr (.inr ⟨rfl, hfb, by omega, herr⟩)⟩

theorem sfsPartialio_pour (h : Pouring i base pos (s, u)) (hlen : len ≤ u.resid) (hblk : pos % 512 + len ≤ 512) :
    (sfsPartialio i (pos % 512) len).wp False (fun _ q => Part i pos len (s, u) q)
      (fun e q => PartFails pos len (s, u) e q) (s, u) := by
  unfold sfsPartialio
  rw [wp_bind, wp_get, wp_bind]
  apply (wp_kassert_of (by omega)).mpr
  rw [wp_bind, h.fileblock]
  unfold onFs
  rw [wp_zoom]
  apply h.bmap_wp len
  · intro t hst hsame hfb h0
    have hit := Sfs.inode_of_loaded (hst.loaded h.loaded)
    have hbuffer := pourBuffer_wp h hlen hblk hst hsame hfb h0
    rw [if_neg h0]
    rw [wp_bind, wp_zoom, hst.inv.sound.mounted.readblock_wp (hst.inv.sound.struct.mapBound i hit _ hfb),
      hst.inv.sound.sector_map hit hfb h0]
    exact hbuffer
  · intro e t he
    exact he

/-- The copy of a whole block into the driver's buffer. The sector is written if all of it is copied. -/
theorem sfsRwblock_pour {d : Lhd} (u' : Uio) (block : ℕ) (hd : d.outcomes = []) (hb : block < d.dBlocks) (hrw : u.rw = .write)
    (ho : u.offset = block * 512) (hr : u.resid = 512) :
    (∀ l, uiomove (Bytes.zero : Block).toList u = .ok l u' → u'.rw = .write →
      sfsRwblock (d, u) = .ok () ({ d with sector := Function.update d.sector block (Bytes.ofList l) }, u')) ∧
    (uiomove (Bytes.zero : Block).toList u = .err .efault u' → sfsRwblock (d, u) = .err .efault (d, u')) := by
  have hword := d.word
  have hio : lhdIo (d, u) = lhdSector block (d, u) := by
    rw [lhdIo_one (by omega) ho hr, if_neg (by omega)]
  have hgood : d.outcomes.head? ≠ some .media := by simp [hd]
  unfold sfsRwblock sfsRetry sfsTry
  constructor
  · intro l hmove hrw'
    simp only [bind, Op.attempt, hio, lhdSector, Op.get, hrw, onUio, Op.zoom, hmove, hrw', Op.set, Lhd.operate_ok hb hgood,
      hd, List.tail_nil]
    rfl
  · intro hmove
    simp only [bind, Op.attempt, hio, lhdSector, Op.get, hrw, onUio, Op.zoom, hmove]
    rfl

/-- The offset and the residue are put back after those of one block were used in their place. -/
theorem Uio.Carried.shift_back {u w : Uio} {l : List UInt8} {d : ℤ} (h : u.Carried w l) (hl : l.length ≤ 512) (hr : 512 ≤ u.resid)
    (hw : u.resid < 4294967296) :
    { u.shift d 512 w with
      offset := (u.shift d 512 w).offset - d + u.offset
      resid := u32 ((u.shift d 512 w).resid - 512 + u.resid) } = w := by
  have hresid := h.resid
  have hback : u32 (((w.resid + 512 - u.resid : ℕ) : ℤ) - 512 + u.resid) = w.resid := by
    unfold u32
    omega
  simp only [Uio.shift, hback]
  congr 1
  ring

theorem sfsBlockDirect_pour {t : Sfs} (h : Pouring i base pos (s, u)) (hr : 512 ≤ u.resid) (hal : pos % 512 = 0)
    (hst : s.Stays False t) (hsame : s.vol.Same t.vol) (hfb : pos / 512 < 143) (h0 : t.vol.map i (pos / 512) ≠ 0) :
    (sfsBlockDirect (t.vol.map i (pos / 512))).wp False (fun _ q => Part i pos 512 (s, u) q)
      (fun e q => PartFails pos 512 (s, u) e q) (t, u) := by
  have ht := h.mapped hst
  have hit := Sfs.inode_of_loaded ht.loaded
  have hbound : t.vol.map i (pos / 512) < t.nblocks := ht.inv.sound.struct.mapBound i hit _ hfb
  have hsmall : t.nblocks ≤ 8388608 := ht.small
  have hdisk : t.nblocks ≤ t.dev.dBlocks := ht.inv.sound.mounted.disk
  have hmod : t.vol.map i (pos / 512) * 512 % 4294967296 = t.vol.map i (pos / 512) * 512 := by omega
  have hlen := Bytes.length_toList (Bytes.zero : Block)
  have hmove := uiomove_shift (u := u) (o := (t.vol.map i (pos / 512) * 512 : ℕ)) (r := 512) h.write (hlen.trans_le hr) h.word
    hlen.le (by omega)
  rw [hlen] at hmove
  have hdev {u' : Uio} := sfsRwblock_pour u' (t.vol.map i (pos / 512)) ht.inv.sound.mounted.quiet
    (hbound.trans_le hdisk) (u := { u with offset := (t.vol.map i (pos / 512) * 512 : ℕ), resid := 512 }) h.write
    (Nat.cast_mul ..) rfl
  unfold sfsBlockDirect
  rw [wp_bind, wp_get, wp_bind]
  apply (wp_kassert_of hr).mpr
  rw [wp_bind, wp_modify, wp_bind, wp_attempt]
  unfold onDevUio
  rw [wp_zoom, hmod]
  rcases uiomove_write h.write hr h.enough h.word with ⟨u', hok, hcarried, -⟩ | ⟨u', m, herr, hm, hcarried, -⟩
  · rw [hok, Res.map] at hmove
    apply (wp_of_ok (hdev.1 _ hmove (hcarried.rw.trans h.write))).mpr
    rw [wp_bind, wp_modify, hcarried.shift_back (by simp) hr h.word]
    obtain ⟨hstays, hset⟩ := ht.inv.pokeData ht.loaded h.file hfb h0 (Bytes.ofList (u.iov.flatten.take 512))
    refine ⟨hst.trans hstays, hfb, hok, ?_⟩
    have hl : (u.iov.flatten.take 512).length = 512 := List.length_take_of_le (hr.trans h.enough)
    rw [← Bytes.splice_all (t.vol.data i (pos / 512)) hl] at hset
    have hpatched := hset.patched (by omega) hfb
    rw [show pos / 512 * 512 + 0 = pos by omega, Bytes.splice_all _ hl] at hpatched
    exact hsame.patched hpatched
  · rw [herr, Res.map] at hmove
    apply (wp_of_err (hdev.2 hmove)).mpr
    rw [wp_bind, wp_modify, hcarried.shift_back (by rw [List.length_take]; omega) hr h.word]
    exact ⟨hst, hsame, .inr (.inr ⟨rfl, hfb, by omega, herr⟩)⟩

theorem sfsBlockio_pour (h : Pouring i base pos (s, u)) (hr : 512 ≤ u.resid) (hal : pos % 512 = 0) :
    (sfsBlockio i).wp False (fun _ q => Part i pos 512 (s, u) q) (fun e q => PartFails pos 512 (s, u) e q) (s, u) := by
  unfold sfsBlockio
  rw [wp_bind, wp_get, wp_bind, h.fileblock]
  unfold onFs
  rw [wp_zoom]
  apply h.bmap_wp 512
  · intro t hst hsame hfb h0
    rw [if_neg h0]
    exact sfsBlockDirect_pour h hr hal hst hsame hfb h0
  · intro e t he
    exact he

/-! ### Several parts -/

/-- The uio after these parts were copied. -/
def Uio.after : List ℕ → Uio → Option Uio
  | [], u => some u
  | len :: rest, u =>
    match uiomove (List.replicate len 0) u with
    | .ok _ u' => u'.after rest
    | _ => none

theorem Uio.after_append {a b : List ℕ} {u u' : Uio} (h : u.after a = some u') : u.after (a ++ b) = u'.after b := by
  induction a generalizing u with
  | nil =>
    obtain rfl := Option.some.inj h
    rfl
  | cons len rest ih =>
    rw [Uio.after] at h
    rw [List.cons_append, Uio.after]
    cases hmove : uiomove (List.replicate len 0) u with
    | ok l u₁ =>
      rw [hmove] at h
      exact ih h
    | err e u₁ =>
      rw [hmove] at h
      cases h
    | panic =>
      rw [hmove] at h
      cases h

theorem Uio.faultAt_append {a b : List ℕ} {u u' : Uio} (h : u.after a = some u') :
    u.faultAt (a ++ b) = (u'.faultAt b).map fun x => (a.sum + x.1, x.2) := by
  induction a generalizing u with
  | nil =>
    obtain rfl := Option.some.inj h
    simp
  | cons len rest ih =>
    rw [Uio.after] at h
    rw [List.cons_append, Uio.faultAt]
    cases hmove : uiomove (List.replicate len 0) u with
    | ok l u₁ =>
      rw [hmove] at h
      simp only
      rw [ih h, Option.map_map]
      simp [Function.comp_def, Nat.add_assoc]
    | err e u₁ =>
      rw [hmove] at h
      cases h
    | panic =>
      rw [hmove] at h
      cases h

theorem Uio.faultAt_good {lens : List ℕ} {u : Uio} (hu : u.Ready) (hsum : lens.sum ≤ u.resid) : u.faultAt lens = none := by
  induction lens generalizing u with
  | nil => rfl
  | cons len rest ih =>
    rw [List.sum_cons] at hsum
    obtain ⟨u', hmove, hmoved⟩ := uiomove_eq hu (List.replicate len 0) (by rw [List.length_replicate]; omega)
    have henough := hu.enough
    have hresid := hmoved.resid
    rw [UioRw.length_traffic _ (by rw [List.length_replicate]; omega), List.length_replicate] at hresid
    rw [Uio.faultAt, hmove]
    simp only
    rw [ih (hmoved.ready hu) (by omega)]
    rfl

/-- Parts that were copied are the next bytes of the memory. -/
theorem Uio.carried_of_after {lens : List ℕ} {u u' : Uio} (hrw : u.rw = .write) (hsum : lens.sum ≤ u.resid)
    (henough : u.resid ≤ u.iov.flatten.length) (hword : u.resid < 4294967296) (h : u.after lens = some u') :
    u.Carried u' (u.iov.flatten.take lens.sum) := by
  induction lens generalizing u with
  | nil =>
    obtain rfl := Option.some.inj h
    exact .refl rfl rfl rfl rfl rfl
  | cons len rest ih =>
    rw [List.sum_cons] at hsum ⊢
    rcases uiomove_write hrw (show len ≤ u.resid by omega) henough hword with ⟨u₁, hok, hfirst, -⟩ | ⟨u₁, m, herr, -⟩
    · rw [Uio.after, hok] at h
      have hresid := hfirst.resid
      have hflat := hfirst.rest
      rw [List.length_take_of_le (by omega)] at hresid hflat
      have hrest := ih (u := u₁) (hfirst.rw.trans hrw) (by omega) (by rw [hflat, List.length_drop]; omega) (by omega) h
      rw [List.take_add, ← hflat]
      exact hfirst.trans hrest
    · rw [Uio.after, herr] at h
      cases h

/-- These parts are in the file. -/
structure Parts (i pos : ℕ) (lens : List ℕ) (p q : Sfs × Uio) : Prop where
  stays : p.1.Stays False q.1
  low : lens = [] ∨ (pos / 512 < 143 ∧ pos + lens.sum ≤ 143 * 512)
  copied : p.2.after lens = some q.2
  patched : p.1.vol.Patched q.1.vol i pos (p.2.iov.flatten.take lens.sum)

/-- One of these parts was given up, and those before it are in the file. -/
def Fails (i pos : ℕ) (lens : List ℕ) (p : Sfs × Uio) (e : Errno) (q : Sfs × Uio) : Prop :=
  ∃ a len b r, lens = a ++ len :: b ∧ Parts i pos a p r ∧ PartFails (pos + a.sum) len r e q

theorem Parts.nil (h : Pouring i base pos p) : Parts i pos [] p p where
  stays := .refl h.inv
  low := .inl rfl
  copied := rfl
  patched := by
    rw [List.sum_nil, List.take_zero]
    exact p.1.vol.patched_self i pos 0

theorem Part.parts (h : Part i pos len p q) (hblk : pos % 512 + len ≤ 512) : Parts i pos [len] p q where
  stays := h.stays
  low := by
    have hlow := h.low
    rw [List.sum_singleton]
    exact .inr ⟨hlow, by omega⟩
  copied := by
    rw [Uio.after, h.copied]
    rfl
  patched := by
    rw [List.sum_singleton]
    exact h.patched

section
variable {a b lens : List ℕ}

theorem Pouring.carried (h : Pouring i base pos p) (hq : Parts i pos lens p q) (hsum : lens.sum ≤ p.2.resid) :
    p.2.Carried q.2 (p.2.iov.flatten.take lens.sum) ∧ (p.2.iov.flatten.take lens.sum).length = lens.sum :=
  ⟨Uio.carried_of_after h.write hsum h.enough h.word hq.copied, List.length_take_of_le (hsum.trans h.enough)⟩

theorem Parts.resid (hq : Parts i pos lens p q) (h : Pouring i base pos p) (hsum : lens.sum ≤ p.2.resid) :
    q.2.resid = p.2.resid - lens.sum := by
  obtain ⟨hcarried, hl⟩ := h.carried hq hsum
  have hresid := hcarried.resid
  omega

theorem Parts.pouring (hq : Parts i pos lens p q) (h : Pouring i base pos p) (hsum : lens.sum ≤ p.2.resid) :
    Pouring i base (pos + lens.sum) q := by
  obtain ⟨hcarried, hl⟩ := h.carried hq hsum
  have hresid := hcarried.resid
  have henough := h.enough
  have hword := h.word
  have hlow := h.low
  refine ⟨hq.stays.inv, hq.stays.nblocks.trans_le h.small, hq.stays.loaded h.loaded, h.file, hcarried.rw.trans h.write, ?_,
    by omega, ?_, h.whole, ?_⟩
  · rw [hcarried.rest, List.length_drop]
    omega
  · rw [hcarried.offset, hl, h.offset]
    push_cast
    ring
  · rcases hq.low with rfl | hle
    · exact hlow
    · omega

theorem Parts.append (ha : Parts i pos a p q) (h : Pouring i base pos p) (hsum : a.sum ≤ p.2.resid)
    (hb : Parts i (pos + a.sum) b q r) : Parts i pos (a ++ b) p r := by
  obtain ⟨hcarried, hl⟩ := h.carried ha hsum
  refine ⟨ha.stays.trans hb.stays, ?_, ?_, ?_⟩
  · rw [List.sum_append]
    rcases hb.low with rfl | hle
    · rcases ha.low with rfl | hle'
      · exact .inl rfl
      · exact .inr (by simpa using hle')
    · exact .inr ⟨by omega, by omega⟩
  · rw [Uio.after_append ha.copied]
    exact hb.copied
  · have hpatched := hb.patched
    rw [hcarried.rest, hl] at hpatched
    rw [List.sum_append, List.take_add]
    apply ha.patched.trans
    rw [hl]
    exact hpatched

end

/-! ### The whole request -/

theorem sum_replicate_blocks (k : ℕ) : (List.replicate k 512).sum = k * 512 := by
  rw [List.sum_replicate, smul_eq_mul]

theorem sum_headParts_le (off n : ℕ) : (headParts off n).sum ≤ n := by
  unfold headParts
  split_ifs <;> simp

theorem sum_tailParts (n : ℕ) : (tailParts n).sum = n := by
  unfold tailParts
  rw [List.sum_append, sum_replicate_blocks]
  split_ifs <;> simp <;> omega

theorem sum_parts (off n : ℕ) : (parts off n).sum = n := by
  unfold parts
  rw [List.sum_append, sum_tailParts, Nat.add_sub_cancel' (sum_headParts_le off n)]

theorem sum_split {off n : ℕ} {a b : List ℕ} (h : parts off n = a ++ b) : a.sum + b.sum = n := by
  rw [← List.sum_append, ← h, sum_parts]

/-- A part begins before the end of the request, unless it is empty and begins within a block. -/
theorem parts_begin {off n len : ℕ} {a b : List ℕ} (h : parts off n = a ++ len :: b) :
    a.sum < n ∨ (a.sum = 0 ∧ off % 512 ≠ 0) := by
  have hsum := sum_split h
  rw [List.sum_cons] at hsum
  by_cases hlen : len = 0
  · -- the parts of the tail are not empty
    subst hlen
    refine .inr ?_
    have htail (m : ℕ) : 0 ∉ tailParts m := by
      unfold tailParts
      split_ifs
      · simp
        omega
      · simp
    unfold parts headParts at h
    split_ifs at h with hal
    · exact absurd (h ▸ List.mem_append_right a List.mem_cons_self) (htail _)
    · refine ⟨?_, hal⟩
      cases a with
      | nil => rfl
      | cons x rest =>
        rw [List.cons_append, List.cons_append, List.cons.injEq, List.nil_append] at h
        exact absurd (h.2 ▸ List.mem_append_right rest List.mem_cons_self) (htail _)
  · exact .inl (by omega)

/-- `P a q`: from `p` on the parts `a` of the request were moved, and the state is `q`. A part
that is not moved leads to `E`. -/
structure MovesParts (i pos : ℕ) (p : Sfs × Uio) (P : List ℕ → Sfs × Uio → Prop) (E : Errno → Sfs × Uio → Prop) : Prop where
  start : P [] p
  stands : ∀ a b q, parts pos p.2.resid = a ++ b → P a q →
    q.2.offset.tmod 512 = ((pos + a.sum) % 512 : ℕ) ∧ q.2.resid = p.2.resid - a.sum
  partialio : ∀ a len b q, parts pos p.2.resid = a ++ len :: b → P a q → (pos + a.sum) % 512 + len ≤ 512 →
    (sfsPartialio i ((pos + a.sum) % 512) len).wp False (fun _ r => P (a ++ [len]) r) E q
  blockio : ∀ a b q, parts pos p.2.resid = a ++ 512 :: b → P a q → (pos + a.sum) % 512 = 0 →
    (sfsBlockio i).wp False (fun _ r => P (a ++ [512]) r) E q

section
variable {P : List ℕ → Sfs × Uio → Prop} {E : Errno → Sfs × Uio → Prop}

theorem MovesParts.head (h : MovesParts i pos p P E) :
    (sfsIoHead i).wp False (fun _ q => P (headParts pos p.2.resid) q) E p := by
  obtain ⟨hoff, -⟩ := h.stands [] _ p rfl h.start
  rw [List.sum_nil, Nat.add_zero] at hoff
  have hblkoff : u32 (p.2.offset.tmod 512) = pos % 512 := by
    rw [hoff]
    exact u32_natCast (by omega)
  have hrest : u32 (512 - (pos % 512 : ℕ)) = 512 - pos % 512 := by
    unfold u32
    omega
  unfold sfsIoHead headParts
  rw [wp_bind, wp_get]
  simp only [hblkoff, hrest]
  by_cases hal : pos % 512 = 0
  · rw [if_neg (not_not.mpr hal), if_pos hal]
    exact h.start
  · rw [if_pos hal, if_neg hal]
    exact h.partialio [] _ _ p (by rw [parts, headParts, if_neg hal]; rfl) h.start (by rw [List.sum_nil]; omega)

theorem MovesParts.tail (h : MovesParts i pos p P E) {q : Sfs × Uio} (hq : P (headParts pos p.2.resid) q) :
    (sfsIoTail i).wp False (fun _ r => P (parts pos p.2.resid) r) E q := by
  obtain ⟨hoff, hresid⟩ := h.stands _ _ q rfl hq
  have hparts : parts pos p.2.resid = headParts pos p.2.resid ++ tailParts q.2.resid := by rw [hresid, parts]
  have hal : q.2.resid = 0 ∨ (pos + (headParts pos p.2.resid).sum) % 512 = 0 := by
    rw [hresid]
    unfold headParts
    split_ifs with hal
    · simp [hal]
    · rw [List.sum_singleton]
      omega
  generalize headParts pos p.2.resid = a at *
  unfold sfsIoTail
  rw [wp_bind, wp_get]
  simp only
  rw [wp_ite]
  constructor
  · intro hzero
    rw [hparts, hzero]
    simpa [tailParts] using hq
  intro hne
  have hal := hal.resolve_left hne
  rw [wp_bind]
  apply (wp_kassert_of (by rw [hoff, hal]; rfl)).mpr
  rw [wp_bind]
  have hsum (k : ℕ) : (a ++ List.replicate k 512).sum = a.sum + k * 512 := by
    rw [List.sum_append, sum_replicate_blocks]
  -- after `k` turns `k` blocks were moved
  apply wp_foldlM_range fun k (_ : Unit) r => P (a ++ List.replicate k 512) r
  · intro k hk _ r hr
    have hblock := h.blockio _ (List.replicate (q.2.resid / 512 - (k + 1)) 512 ++ if 0 < q.2.resid % 512 then [q.2.resid % 512] else [])
      r ?_ hr (by rw [hsum]; omega)
    · rw [List.append_assoc, ← List.replicate_succ'] at hblock
      exact hblock
    · rw [hparts, tailParts, show q.2.resid / 512 = k + 1 + (q.2.resid / 512 - (k + 1)) by omega, ← List.replicate_append_replicate,
        List.replicate_succ']
      simp
  · intro _ r hr
    have hall : parts pos p.2.resid =
        (a ++ List.replicate (q.2.resid / 512) 512) ++ if 0 < q.2.resid % 512 then [q.2.resid % 512] else [] := by
      rw [hparts, tailParts, List.append_assoc]
    have hleft : r.2.resid = q.2.resid % 512 := by
      rw [(h.stands _ _ r hall hr).2, hsum]
      omega
    rw [wp_bind, wp_get, wp_bind]
    apply (wp_kassert_of (by omega)).mpr
    rw [wp_ite, hleft]
    constructor
    · intro hpos
      rw [if_pos hpos] at hall
      have hpartial := h.partialio _ _ _ r hall hr (by rw [hsum]; omega)
      rw [hsum, show (pos + (a.sum + q.2.resid / 512 * 512)) % 512 = 0 by omega] at hpartial
      rw [hall]
      exact hpartial
    · intro hnone
      rw [hall, if_neg hnone, List.append_nil]
      exact hr
  · rw [List.replicate_zero, List.append_nil]
    exact hq

/-- The request is moved part by part. -/
theorem MovesParts.body (h : MovesParts i pos p P E) :
    (do
      sfsIoHead i
      sfsIoTail i : IoM Unit).wp False (fun _ q => P (parts pos p.2.resid) q) E p := by
  rw [wp_bind]
  exact h.head.mono (fun _ _ hq => h.tail hq) fun _ _ he => he

end

theorem Pouring.movesParts (h : Pouring i base pos p) :
    MovesParts i pos p (fun a q => Parts i pos a p q) (Fails i pos (parts pos p.2.resid) p) where
  start := .nil h
  stands a b q hab hq := by
    have hsum := sum_split hab
    have hgo := hq.pouring h (by omega)
    exact ⟨hgo.blkoff, hq.resid h (by omega)⟩
  partialio a len b q hab hq hblk := by
    have hsum := sum_split hab
    rw [List.sum_cons] at hsum
    have hresid := hq.resid h (by omega)
    refine (sfsPartialio_pour (hq.pouring h (by omega)) (by omega) hblk).mono (fun _ r hr => ?_) fun e r hr => ?_
    · exact hq.append h (by omega) (hr.parts hblk)
    · exact ⟨a, len, b, q, hab, hq, hr⟩
  blockio a b q hab hq hal := by
    have hsum := sum_split hab
    rw [List.sum_cons] at hsum
    have hresid := hq.resid h (by omega)
    refine (sfsBlockio_pour (hq.pouring h (by omega)) (by omega) hal).mono (fun _ r hr => ?_) fun e r hr => ?_
    · exact hq.append h (by omega) (hr.parts (by omega))
    · exact ⟨a, 512, b, q, hab, hq, hr⟩

/-- Where the request stood when it was given up: `d` bytes are in the file, and `m`
more were copied. -/
structure GivenUp (i pos : ℕ) (lens : List ℕ) (p : Sfs × Uio) (d m : ℕ) (e : Errno) (q : Sfs × Uio) : Prop where
  stays : p.1.Stays False q.1
  patched : p.1.vol.Patched q.1.vol i pos (p.2.iov.flatten.take d)
  write : q.2.rw = .write
  advanced : p.2.Carried q.2 (p.2.iov.flatten.take (d + m))
  within : d + m ≤ p.2.resid
  low : d + m = 0 ∨ (pos / 512 < 143 ∧ pos + d + m ≤ 143 * 512)
  cause : (e = .enospc ∧ m = 0 ∧ q.1.Full) ∨ (e = .efbig ∧ m = 0 ∧ 143 * 512 ≤ pos + d ∧ 143 * 512 < pos + p.2.resid) ∨
    (e = .efault ∧ p.2.faultAt lens = some (d, m))
  some : lens ≠ []

theorem Vol.Patched.same {V V' V'' : Vol} {l : List UInt8} (h : V.Patched V' i pos l) (h' : V'.Same V'') :
    V.Patched V'' i pos l := by
  refine ⟨fun j => (h'.inode j).trans (h.inode j), fun j hj => (h.head j hj).trans (h'.head j ((h.inode j).mpr hj)), ?_⟩
  intro j hj k
  rw [h'.fbyte ((h.inode j).mpr hj), h.fbyte j hj]

theorem Fails.givenUp {e : Errno} (hf : Fails i pos (parts pos p.2.resid) p e q) (h : Pouring i base pos p) :
    ∃ d m, GivenUp i pos (parts pos p.2.resid) p d m e q := by
  obtain ⟨a, len, b, r, hab, hparts, hfail⟩ := hf
  have hsum := sum_split hab
  have hbegin := parts_begin hab
  rw [List.sum_cons] at hsum
  have hle : a.sum ≤ p.2.resid := by omega
  obtain ⟨hcarried, hl⟩ := h.carried hparts hle
  have hpatched := hparts.patched.same hfail.same
  have hstays := hparts.stays.trans hfail.stays
  have hgo := hparts.pouring h hle
  have hsome : parts pos p.2.resid ≠ [] := by simp [hab]
  have hlow : a.sum = 0 ∨ (pos / 512 < 143 ∧ pos + a.sum ≤ 143 * 512) := by
    rcases hparts.low with rfl | hlow
    · exact .inl rfl
    · exact .inr hlow
  rcases hfail.cause with ⟨rfl, hq, hfull⟩ | ⟨rfl, hq, hbig⟩ | ⟨rfl, hfb, hend, hmove⟩
  · exact ⟨a.sum, 0, hstays, hpatched, hq ▸ hgo.write, hq ▸ hcarried, hle, hlow, .inl ⟨rfl, rfl, hfull⟩, hsome⟩
  · exact ⟨a.sum, 0, hstays, hpatched, hq ▸ hgo.write, hq ▸ hcarried, hle, hlow,
      .inr (.inl ⟨rfl, rfl, by omega, by omega⟩), hsome⟩
  · -- some bytes of the part were copied before the fault
    have hresid := hparts.resid h hle
    rcases uiomove_write hgo.write (show len ≤ r.2.resid by omega) hgo.enough hgo.word with ⟨u', hok, -⟩ | ⟨u', m, herr, hm, hpart, -⟩
    · rw [hok] at hmove
      cases hmove
    rw [hmove, Res.err.injEq] at herr
    obtain rfl := herr.2
    have hboth := hcarried.trans hpart
    rw [hcarried.rest, hl, ← List.take_add] at hboth
    refine ⟨a.sum, m, hstays, hpatched, hpart.rw.trans hgo.write, hboth, by omega, ?_, .inr (.inr ⟨rfl, ?_⟩), hsome⟩
    · rcases hlow with hzero | hlow
      · rw [hzero, Nat.add_zero] at hfb hend
        omega
      · omega
    · have hgone := hpart.resid
      rw [List.length_take_of_le (by have := hgo.enough; omega)] at hgone
      rw [hab, Uio.faultAt_append hparts.copied, Uio.faultAt, hmove]
      simp only [Option.map_some]
      rw [show r.2.resid - q.2.resid = m by omega, Nat.add_zero]

theorem sfsIo_pour (h : Pouring i base pos (s, u)) :
    (sfsIo i).wp False
      (fun _ q => ∃ t, Parts i pos (parts pos u.resid) (s, u) (t, q.2) ∧ q.1 = t.extended i u.resid q.2)
      (fun e q => ∃ t d m, GivenUp i pos (parts pos u.resid) (s, u) d m e (t, q.2) ∧ q.1 = t.extended i u.resid q.2)
      (s, u) := by
  have hword := h.word
  simp only at hword
  have hsum := sum_parts pos u.resid
  unfold sfsIo
  simp only [wp_bind, wp_get, onFs, wp_zoom]
  apply getVnode_wp h.loaded
  intro v _ _ _
  have heof : sfsIoEof v.i.sfiSize u = some 0 := by rw [sfsIoEof, h.write]
  rw [heof]
  simp only [wp_bind]
  apply (wp_kassert_of (Or.inl rfl)).mpr
  simp only [wp_modify, wp_attempt]
  have hkeep (u' : Uio) (hu' : u'.resid ≤ u.resid) : { u' with resid := u32 (u'.resid + (0 : ℕ)) } = u' := by
    have hsame : u32 ((u'.resid : ℤ) + (0 : ℕ)) = u'.resid := by
      unfold u32
      omega
    rw [hsame]
  apply h.movesParts.body.mono
  · intro _ q hq
    obtain ⟨t, u'⟩ := q
    have hresid := hq.resid h hsum.le
    apply sfsIoOut_wp (hq.stays.loaded h.loaded)
    · intro _ _
      rw [hkeep u' (by simp only at hresid; omega)]
      exact ⟨t, hq, rfl⟩
    · intro e he
      cases he
  · intro e q hq
    obtain ⟨t, u'⟩ := q
    obtain ⟨d, m, hgiven⟩ := hq.givenUp h
    have hresid := hgiven.advanced.resid
    apply sfsIoOut_wp (hgiven.stays.loaded h.loaded)
    · intro _ he
      cases he
    · intro e' he
      obtain rfl := Except.error.inj he
      rw [hkeep u' (by simp only at hresid; omega)]
      exact ⟨t, d, m, hgiven, rfl⟩

/-! ### The size of the file -/

theorem Sfs.extended_fbyte {t : Sfs} (ht : t.Inv False [] 0) (hl : t.vol.loaded i) (hi1 : i ≠ 1) (n : ℕ) (u : Uio)
    {j : ℕ} (hj : t.vol.Inode j) (k : ℕ) : (t.extended i n u).vol.fbyte j k = t.vol.fbyte j k := by
  unfold Sfs.extended
  split_ifs
  · by_cases hk : k / 512 < 143
    · rw [Vol.fbyte, Vol.fbyte, (ht.setSize hl hi1 (u32 u.offset)).2.data j hj _ hk]
    · rw [Vol.fbyte_big (by omega), Vol.fbyte_big (by omega)]
  · rfl

theorem Sfs.extended_size {t : Sfs} (ht : t.Inv False [] 0) (hl : t.vol.loaded i) (hi1 : i ≠ 1) (n : ℕ) (u : Uio) :
    ((t.extended i n u).vol.block i).sfiSize =
      if u.resid ≠ n ∧ u.rw = .write ∧ ((t.vol.block i).sfiSize : ℤ) < u.offset then u32 u.offset
      else (t.vol.block i).sfiSize := by
  unfold Sfs.extended
  split_ifs
  · rw [(ht.setSize hl hi1 (u32 u.offset)).2.self, Bytes.sfiSize_setSfiSize (u32_lt _)]
  · rfl

theorem Sfs.extended_stays {t : Sfs} (hst : s.Stays False t) (hl : s.vol.loaded i) (hi1 : i ≠ 1) (n : ℕ) (u : Uio) :
    s.Stays False (t.extended i n u) := by
  unfold Sfs.extended
  split_ifs
  · exact hst.trans (hst.inv.setSize (hst.loaded hl) hi1 _).1
  · exact hst

end Os161
