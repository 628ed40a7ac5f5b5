import Os161.Proofs.SfsVnodes

/-! The directory operations of a mounted volume. Each of them leaves the volume in
order, whether it succeeds or returns an error. -/

namespace Os161

open Op

variable {s t : Sfs} {P : List ℕ} {i k : ℕ} {c D : Prop} {name : CStr}

/-- The volume is in order, and of the same size as before. -/
structure Sfs.Settled (D : Prop) (s t : Sfs) : Prop where
  inv : t.Inv D [] 0
  nblocks : t.nblocks = s.nblocks

/-- It is, and the directory is the map `m`. -/
structure Sfs.Makes (D : Prop) (s t : Sfs) (m : List UInt8 → Option ℕ) : Prop extends s.Settled D t where
  becomes : s.vol.Becomes t.vol m

theorem Sfs.Keeps.makes (hk : s.Keeps t) (h : s.Inv D [] 0) (ht : t.Inv D [] 0) : s.Makes D t s.vol.names :=
  ⟨⟨ht, hk.vol.nblocks⟩, (hk.vol.sameDir h.sound.struct).becomes⟩

theorem Sfs.Loads.makes (hl : s.Loads t i) (ht : t.Inv D [] 0) : s.Makes D t s.vol.names :=
  ⟨⟨ht, hl.nblocks⟩, hl.sameDir.becomes⟩

/-! ### Link counts -/

theorem Vol.Dir.links_le {V : Vol} {δ : ℕ → ℤ} (h : V.Dir δ) (hV : V.Struct P) (i : ℕ) : V.links i ≤ 1144 := by
  have hle := List.countP_le_length (p := fun k => decide (sfdIno (V.slot k) = i)) (l := List.range V.nslots)
  have hsize := hV.dirSize
  have haligned := h.aligned
  rw [List.length_range, Vol.nslots] at hle
  unfold Vol.links Vol.nslots
  omega

/-- The link count is brought up to date. -/
theorem Sfs.Inv.setLinkcount {d : ℤ} (h : s.Inv D P (Pi.single i d)) (hl : s.vol.loaded i) (hi1 : i ≠ 1)
    {g : Block → ℕ} (hg : (g (s.vol.block i) : ℤ) = (s.vol.block i).sfiLinkcount + d)
    (hword : g (s.vol.block i) < 65536) :
    (s.dirtied i fun b => b.setSfiLinkcount (g b)).Inv D P 0 ∧
    s.vol.SetHead (s.dirtied i fun b => b.setSfiLinkcount (g b)).vol i
      ((s.vol.block i).setSfiLinkcount (g (s.vol.block i))) := by
  have hi := Sfs.inode_of_loaded hl
  have hw := Sfs.vol_dirtied (fun b => b.setSfiLinkcount (g b)) hl
  have hx := Bytes.samePointers_setNum (b := s.vol.block i) (w := 2) (o := 6) (by omega) (g (s.vol.block i))
  have hroot := hw.of_ne (Ne.symm hi1)
  have hin := h.sound.struct.inode_wrote_head hi hw hx (by rw [hroot])
  obtain ⟨hstruct, hset⟩ := h.sound.struct.setHead hi hw hx rfl hin
    (by rw [hroot]; exact h.sound.struct.dirSize)
  refine ⟨⟨⟨h.sound.mounted.dirtied _, hstruct⟩, h.dir.setHead h.sound.struct hi1 hset ?_ ?_ fun j hji => ?_⟩, hset⟩
  · exact Bytes.sfiType_setSfiLinkcount
  · rw [Bytes.sfiLinkcount_setSfiLinkcount hword, hg, Pi.single_eq_same, Pi.zero_apply, add_zero]
  · rw [Pi.single_eq_of_ne hji, Pi.zero_apply]

theorem addLink_wp (h : s.Inv D P (Pi.single i 1)) (hl : s.vol.loaded i) (hi1 : i ≠ 1)
    {Q : Unit → Sfs → Prop} {E : Errno → Sfs → Prop}
    (hQ : ∀ t, t.Inv D P 0 → t.table = s.table → t.nblocks = s.nblocks → s.vol.SameDir t.vol → Q () t) :
    (addLink i).wp c Q E s := by
  have hlinks := h.dir.links i (Sfs.inode_of_loaded hl) hi1
  have hle := h.dir.links_le h.sound.struct i
  rw [Pi.single_eq_same] at hlinks
  unfold addLink
  rw [dirtyInode_wp]
  obtain ⟨hinv, hset⟩ := h.setLinkcount hl hi1 (g := fun b => (b.sfiLinkcount + 1) % 65536) (by omega) (by omega)
  exact hQ _ hinv (Sfs.table_dirtied _) hset.nblocks (hset.sameDir h.sound.struct hi1)

theorem dropLink_wp (h : s.Inv D P (Pi.single i (-1))) (hl : s.vol.loaded i) (hi1 : i ≠ 1)
    {Q : Unit → Sfs → Prop} {E : Errno → Sfs → Prop}
    (hQ : ∀ t, t.Inv D P 0 → t.table = s.table → t.nblocks = s.nblocks → s.vol.SameDir t.vol → Q () t) :
    (dropLink i).wp c Q E s := by
  have hlinks := h.dir.links i (Sfs.inode_of_loaded hl) hi1
  have hle := h.dir.links_le h.sound.struct i
  rw [Pi.single_eq_same] at hlinks
  unfold dropLink
  rw [wp_bind]
  refine getVnode_wp hl fun v _ _ hv => ?_
  have hpos : 0 < v.i.sfiLinkcount := by
    rw [hv]
    omega
  rw [wp_bind, wp_kassert_of hpos, dirtyInode_wp]
  obtain ⟨hinv, hset⟩ := h.setLinkcount hl hi1 (g := fun b => b.sfiLinkcount - 1) (by omega) (by omega)
  exact hQ _ hinv (Sfs.table_dirtied _) hset.nblocks (hset.sameDir h.sound.struct hi1)

/-! ### Lookup -/

/-- `sfs_lookonce` loads the file of an entry. -/
theorem sfsLookonce_wp (h : s.Inv D P 0) (hl : s.vol.loaded 1) {Q : ℕ × ℕ → Sfs → Prop}
    {E : Errno → Sfs → Prop}
    (hQ : ∀ i k t, t.Inv D P 0 → s.Loads t i → s.vol.Entry name.chars i k → i ≠ 1 → Q (i, k) t)
    (hE : ∀ e t, t.Inv D P 0 → s.Keeps t → E e t) : (sfsLookonce 1 name).wp c Q E s := by
  unfold sfsLookonce
  rw [wp_bind]
  refine sfsDirFindname_wp h hl fun f hf => ?_
  cases hhit : f.hit with
  | none => exact hE _ s h (.refl s)
  | some x =>
    obtain ⟨i, k⟩ := x
    have hent := (hf.hit_iff h.dir).mp hhit
    have hi1 : i ≠ 1 := hent.2.2.1 ▸ h.dir.noRoot k hent.1
    simp only [wp_bind]
    refine sfsLoadvnode_wp h (Or.inr (Or.inr ⟨k, hent.1, hent.2.1, hent.2.2.1⟩)) (fun t ht hloads => ?_) hE
    have hlt : t.vol.loaded i := (hloads.loaded i).mpr (Or.inr rfl)
    refine getVnode_wp hlt fun v _ _ hv => ?_
    have hpos : v.i.sfiLinkcount ≠ 0 := by
      have hent' := hloads.sameDir.entry.mpr hent
      have hlinks := ht.dir.links i (Sfs.inode_of_loaded hlt) hi1
      have := Vol.links_pos hent'.1 hent'.2.2.1
      rw [hv]
      simp only [Pi.zero_apply] at hlinks
      omega
    rw [wp_kassert_of hpos, wp_pure]
    exact hQ i k t ht hloads hent hi1

/-! ### The operations -/

theorem sfsGetroot_wp (h : s.Inv D [] 0) {Q : Unit → Sfs → Prop} {E : Errno → Sfs → Prop}
    (hQ : ∀ t, s.Makes D t s.vol.names → Q () t) (hE : ∀ e t, s.Makes D t s.vol.names → E e t) :
    sfsGetroot.wp c Q E s := by
  unfold sfsGetroot
  rw [wp_bind]
  refine sfsLoadvnode_wp h s.vol.inode_root (fun t ht hloads => ?_) fun e t ht hk => hE e t (hk.makes h ht)
  rw [wp_bind]
  refine getVnode_wp ((hloads.loaded 1).mpr (Or.inr rfl)) fun v _ _ hv => ?_
  rw [if_pos (by rw [hv]; exact ht.dir.rootType), wp_pure]
  exact hQ t (hloads.makes ht)

theorem sfsLookup_wp (h : s.Inv D [] 0) (hl : s.vol.loaded 1) {Q : ℕ → Sfs → Prop} {E : Errno → Sfs → Prop}
    (hQ : ∀ i t, s.Makes D t s.vol.names → Q i t) (hE : ∀ e t, s.Makes D t s.vol.names → E e t) :
    (sfsLookup 1 name).wp c Q E s := by
  unfold sfsLookup
  rw [wp_bind]
  refine getVnode_wp hl fun v _ _ hv => ?_
  rw [if_neg (by rw [hv]; exact not_not.mpr h.dir.rootType), wp_bind]
  exact sfsLookonce_wp h hl (fun i k t ht hloads _ _ => hQ i t (hloads.makes ht))
    fun e t ht hk => hE e t (hk.makes h ht)

/-- The number of an inode fits into a directory entry. -/
theorem Sfs.Inv.ino_lt {δ : ℕ → ℤ} (h : s.Inv D P δ) (hi : s.vol.Inode i) : i < 4294967296 :=
  (h.sound.struct.inodeBound i hi).trans h.sound.word

/-- `sfs_creat` finds the file, or it makes one that had no name. -/
theorem sfsCreat_wp (h : s.Inv D [] 0) (hl : s.vol.loaded 1) {excl : Bool} {Q : ℕ → Sfs → Prop}
    {E : Errno → Sfs → Prop}
    (hfound : ∀ i t, excl = false → s.vol.names name.chars = some i → s.Makes D t s.vol.names → Q i t)
    (hmade : ∀ i t, s.vol.names name.chars = none → ¬ s.vol.Inode i →
      s.Makes D t (Function.update s.vol.names name.chars (some i)) → Q i t)
    (hE : ∀ e t, s.Makes D t s.vol.names → E e t) :
    (sfsCreat 1 name excl).wp c Q E s := by
  have hE' (e : Errno) (t : Sfs) (ht : t.Inv D [] 0) (hk : s.Keeps t) : E e t := hE e t (hk.makes h ht)
  unfold sfsCreat
  rw [wp_bind]
  refine sfsDirFindname_wp h hl fun f hf => ?_
  cases hhit : f.hit with
  | some x =>
    obtain ⟨i, k⟩ := x
    have hent := (hf.hit_iff h.dir).mp hhit
    simp only [wp_ite, wp_fail, wp_bind, wp_pure]
    refine ⟨fun _ => hE' _ s h (.refl s), fun hex => ?_⟩
    refine sfsLoadvnode_wp h (Or.inr (Or.inr ⟨k, hent.1, hent.2.1, hent.2.2.1⟩)) (fun t ht hloads => ?_) hE'
    exact hfound i t (by simpa using hex) (h.dir.names_eq_some.mpr ⟨k, hent⟩) (hloads.makes ht)
  | none =>
    simp only [wp_bind, wp_attempt]
    refine sfsMakeobj_wp h (fun i t ht hn hnew hloaded hdir => ?_) hE'
    have hi1 : i ≠ 1 := fun he => hnew (he ▸ s.vol.inode_root)
    have hlt : t.vol.loaded 1 := (hloaded 1).mpr (Or.inl hl)
    have hli : t.vol.loaded i := (hloaded i).mpr (Or.inr rfl)
    have hin := Sfs.inode_of_loaded hli
    refine sfsDirLink_wp ht hlt hli hi1 (fun k u hu htable hlinked => ?_) fun e u hu hkeeps _ => ?_
    · simp only [wp_pure]
      have hlu : u.vol.loaded i := by
        rw [Sfs.loaded_congr htable]
        exact hli
      have hbecomes := hlinked.becomes ht.dir hu.dir (ht.sound.struct.inode_ne_zero hin) (ht.ino_lt hin)
      refine addLink_wp hu hlu hi1 fun w hw _ hwn hwdir => hmade i w (hf.miss_iff.mp hhit) hnew ⟨⟨hw, ?_⟩, ?_⟩
      · exact hwn.trans (hlinked.set.nblocks.trans hn)
      · exact hbecomes.around (f := fun m => Function.update m name.chars (some i)) hdir hwdir
    · simp only [wp_fail]
      refine vnodeDecref_wp hu (hkeeps.loaded hli) fun w hw hwn hwdir => hE e w ⟨⟨hw, ?_⟩, ?_⟩
      · exact hwn.trans (hkeeps.vol.nblocks.trans hn)
      · exact ((hdir.trans (hkeeps.vol.sameDir ht.sound.struct)).trans hwdir).becomes

theorem sfsLink_wp (h : s.Inv D [] 0) (hl : s.vol.loaded 1) (hi : s.vol.loaded i) {Q : Unit → Sfs → Prop}
    {E : Errno → Sfs → Prop}
    (hQ : ∀ t, s.vol.names name.chars = none → s.Makes D t (Function.update s.vol.names name.chars (some i)) → Q () t)
    (hE : ∀ e t, s.Makes D t s.vol.names → E e t) : (sfsLink 1 name i).wp c Q E s := by
  unfold sfsLink
  rw [wp_bind]
  refine getVnode_wp hi fun v _ _ hv => ?_
  rw [wp_ite]
  refine ⟨fun _ => hE _ s ((Sfs.Keeps.refl s).makes h h), fun htype => ?_⟩
  have hi1 : i ≠ 1 := by
    rintro rfl
    exact htype (hv ▸ h.dir.rootType)
  have hin := Sfs.inode_of_loaded hi
  rw [wp_bind]
  refine sfsDirLink_wp h hl hi hi1 (fun k t ht htable hlinked => ?_) fun e t ht hk _ => hE e t (hk.makes h ht)
  have hli : t.vol.loaded i := by
    rw [Sfs.loaded_congr htable]
    exact hi
  have hbecomes := hlinked.becomes h.dir ht.dir (h.sound.struct.inode_ne_zero hin) (h.ino_lt hin)
  refine addLink_wp ht hli hi1 fun u hu _ hun hudir => hQ u hlinked.names_eq_none ⟨⟨hu, ?_⟩, ?_⟩
  · exact hun.trans hlinked.set.nblocks
  · exact hbecomes.around (f := fun m => Function.update m name.chars (some i)) (.refl _) hudir

theorem sfsRemove_wp (h : s.Inv D [] 0) (hl : s.vol.loaded 1) {Q : Unit → Sfs → Prop}
    {E : Errno → Sfs → Prop}
    (hQ : ∀ t, s.vol.names name.chars ≠ none → s.Makes D t (Function.update s.vol.names name.chars none) → Q () t)
    (hE : ∀ e t, s.Makes D t s.vol.names → E e t) : (sfsRemove 1 name).wp c Q E s := by
  unfold sfsRemove
  rw [wp_bind]
  refine sfsLookonce_wp h hl (fun i k t ht hloads hent hi1 => ?_) fun e t ht hk => hE e t (hk.makes h ht)
  have hli : t.vol.loaded i := (hloads.loaded i).mpr (Or.inr rfl)
  simp only [wp_bind, wp_attempt]
  refine sfsDirUnlink_wp ht ((hloads.loaded 1).mpr (Or.inl hl)) (hloads.sameDir.entry.mpr hent) hli
    fun u hu htable hun hbecomes => ?_
  have hlu : u.vol.loaded i := by
    rw [Sfs.loaded_congr htable]
    exact hli
  refine dropLink_wp hu hlu hi1 fun w hw hwtable hwn hwdir => ?_
  refine vnodeDecref_wp hw (by rw [Sfs.loaded_congr hwtable]; exact hlu) fun z hz hzn hzdir => hQ z ?_ ⟨⟨hz, ?_⟩, ?_⟩
  · rw [h.dir.names_eq_some.mpr ⟨k, hent⟩]
    exact Option.some_ne_none i
  · exact hzn.trans (hwn.trans (hun.trans hloads.nblocks))
  · exact hbecomes.around (f := fun m => Function.update m name.chars none) hloads.sameDir (hwdir.trans hzdir)

theorem sfsRename_wp (h : s.Inv D [] 0) (hl : s.vol.loaded 1) {n1 n2 : CStr} {Q : Unit → Sfs → Prop}
    {E : Errno → Sfs → Prop}
    (hQ : ∀ i t, s.vol.names n1.chars = some i → s.vol.names n2.chars = none →
      s.Makes D t (Function.update (Function.update s.vol.names n2.chars (some i)) n1.chars none) → Q () t)
    (hE : ∀ e t, s.Makes D t s.vol.names → E e t) :
    (sfsRename 1 n1 n2).wp c Q E s := by
  unfold sfsRename
  rw [wp_bind, wp_kassert_of rfl, wp_bind]
  refine sfsLookonce_wp h hl (fun g k t ht hloads hent hg1 => ?_) fun e t ht hk => hE e t (hk.makes h ht)
  have hlt : t.vol.loaded 1 := (hloads.loaded 1).mpr (Or.inl hl)
  have hlg : t.vol.loaded g := (hloads.loaded g).mpr (Or.inr rfl)
  have hin := Sfs.inode_of_loaded hlg
  simp only [wp_bind]
  refine getVnode_wp hlg fun v _ _ hv => ?_
  have htype : v.i.sfiType = sfsTypeFile := by
    rw [hv]
    exact ht.dir.fileType g hin hg1
  rw [wp_kassert_of htype, wp_attempt]
  refine sfsDirLink_wp ht hlt hlg hg1 (fun k2 u hu hutable hlinked => ?_) fun e u hu hkeeps _ => ?_
  · have hloaded {w : Sfs} (hw : w.table = u.table) {j : ℕ} (hj : t.vol.loaded j) : w.vol.loaded j := by
      rw [Sfs.loaded_congr (hw.trans hutable)]
      exact hj
    have hadd := hlinked.becomes ht.dir hu.dir (ht.sound.struct.inode_ne_zero hin) (ht.ino_lt hin)
    simp only [wp_bind, wp_attempt]
    refine addLink_wp hu (hloaded rfl hlg) hg1 fun w hw hwtable hwn hwdir => ?_
    -- the old entry is still where it was found
    have hold : w.vol.Entry n1.chars g k :=
      hwdir.entry.mpr (hlinked.entry (hloads.sameDir.entry.mpr hent))
    refine sfsDirUnlink_wp hw (hloaded hwtable hlt) hold (hloaded hwtable hlg) fun y hy hytable hyn herase => ?_
    refine dropLink_wp hy (hloaded (hytable.trans hwtable) hlg) hg1 fun z hz hztable hzn hzdir => ?_
    refine vnodeDecref_wp hz (hloaded (hztable.trans (hytable.trans hwtable)) hlg) fun r hr hrn hrdir =>
      hQ g r (h.dir.names_eq_some.mpr ⟨k, hent⟩) ?_ ⟨⟨hr, ?_⟩, ?_⟩
    · rw [← hloads.sameDir.names]
      exact hlinked.names_eq_none
    · exact hrn.trans (hzn.trans (hyn.trans (hwn.trans (hlinked.set.nblocks.trans hloads.nblocks))))
    · have hnew := hadd.around (f := fun m => Function.update m n2.chars (some g)) hloads.sameDir hwdir
      rw [hnew.names] at herase
      exact hnew.trans (herase.around (f := fun _ => _) (.refl _) (hzdir.trans hrdir))
  · simp only [wp_bind, wp_fail]
    refine vnodeDecref_wp hu (hkeeps.loaded hlg) fun w hw hwn hwdir => hE e w ⟨⟨hw, ?_⟩, ?_⟩
    · exact hwn.trans (hkeeps.vol.nblocks.trans hloads.nblocks)
    · exact ((hloads.sameDir.trans (hkeeps.vol.sameDir ht.sound.struct)).trans hwdir).becomes

end Os161
