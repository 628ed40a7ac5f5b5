import Os161.Proofs.Vfs

/-! The names in `knowndevs`. `vfs_doadd` checks the names that it brings against
all others; `vfs_mount` does not check the volume name that it brings. -/

namespace Os161

variable {ρ : Type} {F : FsOps ρ} {s t : Vfs ρ} {devs : List Knowndev} {kd : Knowndev}

theorem Knowndev.mem_names {n : List UInt8} :
    n ∈ kd.names F ↔ n = kd.name ∨ kd.rawname = some n ∨ kd.volname F = some n := by
  simp only [Knowndev.names, List.mem_cons, List.mem_append, Option.mem_toList]

/-- `vfs_getroot` stops at an entry only for one of its names. -/
theorem Knowndev.mem_names_of_getroot {n : List UInt8} (h : (kd.getroot F n).isSome = true) :
    n ∈ kd.names F := by
  rw [Knowndev.mem_names]
  unfold Knowndev.getroot at h
  split at h
  · split_ifs at h with hname hraw
    · rcases hname with hname | hvol
      · exact .inl hname.symm
      · exact .inr (.inr hvol)
    · exact .inr (.inl hraw)
    · simp at h
  · split_ifs at h with hmount hname hraw
    · exact .inl hmount.2.symm
    · exact .inl hname.symm
    · exact .inr (.inl hraw)
    · simp at h

/-- The table of devices has no name twice. -/
def Distinct (F : FsOps ρ) (devs : List Knowndev) : Prop :=
  ∀ (i j : ℕ) (a b : Knowndev), devs[i]? = some a → devs[j]? = some b →
    ∀ n ∈ a.names F, n ∈ b.names F → i = j

theorem Vfs.oneDevice_iff : s.OneDevice F ↔ Distinct F s.knowndevs := by
  constructor
  · intro h
    exact h.names
  · intro h
    refine ⟨h, ?_⟩
    intro i j a b ha hb n hna hnb
    exact h i j a b ha hb n (Knowndev.mem_names_of_getroot hna) (Knowndev.mem_names_of_getroot hnb)

theorem getElem?_concat_cases {i : ℕ} {a : Knowndev} (h : (devs ++ [kd])[i]? = some a) :
    devs[i]? = some a ∨ (i = devs.length ∧ a = kd) := by
  rw [List.getElem?_append] at h
  split_ifs at h with hi
  · exact .inl h
  · obtain ⟨hlt, heq⟩ := List.getElem?_eq_some_iff.mp h
    rw [List.length_singleton] at hlt
    refine .inr ⟨by omega, ?_⟩
    rw [← heq, List.getElem_singleton]

theorem Distinct.append (h : Distinct F devs) (hnew : ∀ a ∈ devs, ∀ n ∈ a.names F, n ∉ kd.names F) :
    Distinct F (devs ++ [kd]) := by
  intro i j a b ha hb n hna hnb
  rcases getElem?_concat_cases ha with ha' | ⟨hi, rfl⟩ <;> rcases getElem?_concat_cases hb with hb' | ⟨hj, rfl⟩
  · exact h i j a b ha' hb' n hna hnb
  · exact absurd hnb (hnew a (List.mem_of_getElem? ha') n hna)
  · exact absurd hna (hnew b (List.mem_of_getElem? hb') n hnb)
  · exact hi.trans hj.symm

theorem getElem?_modify_cases {f : Knowndev → Knowndev} {i j : ℕ} {a : Knowndev}
    (h : (devs.modify i f)[j]? = some a) :
    (j ≠ i ∧ devs[j]? = some a) ∨ (j = i ∧ ∃ b, devs[i]? = some b ∧ a = f b) := by
  rw [List.getElem?_modify] at h
  obtain ⟨b, hb, rfl⟩ := Option.map_eq_some_iff.mp h
  by_cases hij : i = j
  · subst hij
    exact .inr ⟨rfl, b, hb, if_pos rfl⟩
  · refine .inl ⟨Ne.symm hij, ?_⟩
    rw [hb, if_neg hij]

/-- An entry may change if each name that it gets is new to the others. -/
theorem Distinct.modify (h : Distinct F devs) {i : ℕ} {f : Knowndev → Knowndev}
    (hnew : ∀ b, devs[i]? = some b → ∀ n ∈ (f b).names F,
      n ∈ b.names F ∨ ∀ (j : ℕ) (a : Knowndev), j ≠ i → devs[j]? = some a → n ∉ a.names F) :
    Distinct F (devs.modify i f) := by
  have hone (j : ℕ) (a b : Knowndev) (hj : j ≠ i) (ha : devs[j]? = some a) (hb : devs[i]? = some b)
      (n : List UInt8) (hna : n ∈ a.names F) : n ∉ (f b).names F := by
    intro hnb
    rcases hnew b hb n hnb with hold | hother
    · exact hj (h j i a b ha hb n hna hold)
    · exact hother j a hj ha hna
  intro j k a b ha hb n hna hnb
  rcases getElem?_modify_cases ha with ⟨hj, ha'⟩ | ⟨rfl, a', ha', rfl⟩ <;>
    rcases getElem?_modify_cases hb with ⟨hk, hb'⟩ | ⟨rfl, b', hb', rfl⟩
  · exact h j k a b ha' hb' n hna hnb
  · exact absurd hnb (hone j a b' hj ha' hb' n hna)
  · exact absurd hna (hone k b a' hk hb' ha' n hnb)
  · rfl

/-- Dropping the file system or the swap from an entry leaves it with names it had. -/
theorem Distinct.drop (h : Distinct F devs) (i : ℕ) {fs : KdFs} (hfs : ∀ f, fs ≠ .fs f) :
    Distinct F (devs.modify i fun kd => { kd with fs := fs }) := by
  apply h.modify
  intro b _ n hn
  rw [Knowndev.mem_names] at hn ⊢
  rcases hn with hn | hn | hn
  · exact .inl (.inl hn)
  · exact .inl (.inr (.inl hn))
  · unfold Knowndev.volname at hn
    cases fs with
    | null => simp at hn
    | swap => simp at hn
    | fs f => exact absurd rfl (hfs f)

/-! ### The checks of `vfs_doadd` -/

theorem samestring_iff {a b : Option (List UInt8)} : samestring a b = true ↔ ∃ n, a = some n ∧ b = some n := by
  cases a <;> cases b <;> simp [samestring, eq_comm]

/-- What `badnames` lets pass has no name in the table. -/
theorem not_mem_of_badnames {n1 n2 n3 : Option (List UInt8)} (h : badnames F devs n1 n2 n3 = false) :
    ∀ a ∈ devs, ∀ n ∈ a.names F, n1 ≠ some n ∧ n2 ≠ some n ∧ n3 ≠ some n := by
  intro a ha n hn
  by_contra hsame
  have h3 (m : Option (List UInt8)) (hm : m = some n) : samestring3 m n1 n2 n3 = true := by
    simp only [samestring3, Bool.or_eq_true, samestring_iff]
    subst hm
    grind
  rw [← Bool.not_eq_true, badnames, List.any_eq_true] at h
  apply h
  refine ⟨a, ha, ?_⟩
  simp only [Bool.or_eq_true]
  rcases Knowndev.mem_names.mp hn with hname | hraw | hvol
  · exact .inr (h3 _ (congrArg some hname.symm))
  · exact .inl (.inr (h3 _ hraw))
  · exact .inl (.inl (h3 _ hvol))

/-! ### The functions -/

/-- Names that were distinct still are. -/
def KeepsNames (F : FsOps ρ) (s t : Vfs ρ) : Prop := Distinct F s.knowndevs → Distinct F t.knowndevs

instance : IsPreorder (Vfs ρ) (KeepsNames F) where
  refl _ := id
  trans _ _ _ h h' := h' ∘ h

theorem keepsNames {α : Type} {x : VfsM ρ α} (h : x.Keeps Vfs.SameTables) : x.Keeps (KeepsNames F) := by
  apply h.mono
  intro s t hst hs
  rw [hst.knowndevs]
  exact hs

theorem keepsNames_setKdFs (i : ℕ) {fs : KdFs} (hfs : ∀ f, fs ≠ .fs f) :
    (setKdFs i fs : VfsM ρ Unit).Keeps (KeepsNames F) :=
  Op.keeps_modify fun _ hs => hs.drop i hfs

/-- `findmount` only looks: it finds the first mountable device of that name. -/
theorem findmount_wp {Q : ℕ × Knowndev → Vfs ρ → Prop} {E : Errno → Vfs ρ → Prop} {devname : List UInt8}
    (hQ : ∀ i kd, s.knowndevs.findIdx? (fun kd => kd.rawname ≠ none ∧ devname = kd.name) = some i →
      s.knowndevs[i]? = some kd → Q (i, kd) s)
    (hE : s.knowndevs.findIdx? (fun kd => kd.rawname ≠ none ∧ devname = kd.name) = none → E .enodev s) :
    (findmount devname).wp True Q E s := by
  unfold findmount
  rw [Op.wp_bind, wp_assertBiglock]
  intro _
  rw [Op.wp_bind, Op.wp_get]
  split
  case h_1 hnone => exact hE hnone
  case h_2 i hi =>
    split
    · trivial
    · exact hQ i _ hi ‹_›

theorem keeps_findmount (devname : List UInt8) : (findmount devname : VfsM ρ _).Keeps Vfs.SameTables := by
  intro s
  exact findmount_wp (fun _ _ _ _ => ⟨rfl, rfl, rfl⟩) fun _ => ⟨rfl, rfl, rfl⟩

theorem keepsNames_doadd (dname : List UInt8) (mountable : Bool) (dev : Option ℕ) (fs : KdFs) (vnode : ℕ) :
    (doadd F dname mountable dev fs vnode).Keeps (KeepsNames F) := by
  unfold doadd
  have hmalloc : (vfsKmalloc : VfsM ρ Unit).Keeps (KeepsNames F) := keepsNames keeps_vfsKmalloc
  apply hmalloc.bind
  intro _
  apply Op.Keeps.bind
  · exact Op.Keeps.ite ((hmalloc.bind fun _ => Op.keeps_pure _).bind fun _ => Op.keeps_pure _) (Op.keeps_pure _)
  intro rawname
  apply hmalloc.bind
  intro _
  apply (keepsNames (keeps_setRefcount vnode 1)).bind
  intro _
  apply Op.Keeps.bind
  · apply Op.Keeps.attempt
    apply hmalloc.bind
    intro _
    apply (keepsNames keeps_assertBiglock).bind
    intro _ s
    -- the table that is checked is the one that the entry is added to
    rw [Op.wp_bind, Op.wp_get, Op.wp_ite]
    refine ⟨fun _ hs => hs, ?_⟩
    intro hbad
    rw [Bool.not_eq_true] at hbad
    rw [Op.wp_bind]
    have hkeep (t : Vfs ρ) (ht : s.SameTables t) : KeepsNames F s t := by
      intro hs
      rw [ht.knowndevs]
      exact hs
    apply keeps_vfsKmalloc.wp
    · intro _ t ht hs
      simp only [ht.knowndevs]
      apply hs.append
      intro a ha n hn hnew
      obtain ⟨h1, h2, h3⟩ := not_mem_of_badnames hbad a ha n hn
      rcases Knowndev.mem_names.mp hnew with hname | hraw | hvol
      · exact h1 (congrArg some hname.symm)
      · exact h2 hraw
      · exact h3 hvol
    · intro _ t ht
      exact hkeep t ht
  intro result
  cases result with
  | ok _ => exact Op.keeps_pure ()
  | error e => exact (keepsNames (keeps_setRefcount vnode 0)).bind fun _ => Op.keeps_fail e

theorem keepsNames_vfsDoadd (dname : List UInt8) (mountable : Bool) (dev : Option ℕ) (fs : KdFs) (vnode : ℕ) :
    (vfsDoadd F dname mountable dev fs vnode).Keeps (KeepsNames F) := by
  unfold vfsDoadd
  apply (keepsNames keeps_vfsBiglockAcquire).bind
  intro _
  apply (keepsNames_doadd dname mountable dev fs vnode).attempt.bind
  intro result
  cases result with
  | ok _ => exact keepsNames keeps_vfsBiglockRelease
  | error e => exact (keepsNames keeps_vfsBiglockRelease).bind fun _ => Op.keeps_fail e

/-- The functions that take the lock, do their work and return what it returned. -/
theorem keepsNames_locked {α : Type} {x : VfsM ρ α} (hx : x.Keeps (KeepsNames F)) :
    (do vfsBiglockAcquire; let result ← Op.attempt x; vfsBiglockRelease; returns result).Keeps (KeepsNames F) := by
  apply (keepsNames keeps_vfsBiglockAcquire).bind
  intro _
  apply hx.attempt.bind
  intro result
  exact (keepsNames keeps_vfsBiglockRelease).bind fun _ => keepsNames (keeps_returns result)

theorem keepsNames_vfsUnmount (devname : List UInt8) : (vfsUnmount F devname).Keeps (KeepsNames F) := by
  apply keepsNames_locked
  apply (keepsNames (keeps_findmount devname)).bind
  intro found
  dsimp only
  split
  case h_1 f _ =>
    apply (Op.keeps_kassert _).bind
    intro _
    apply (keepsNames (keeps_callFs (F.sync f))).bind
    intro _
    apply (keepsNames (keeps_callFs (F.unmount f))).bind
    intro _
    exact keepsNames_setKdFs _ (by simp)
  case h_2 => exact Op.keeps_fail _

theorem keepsNames_vfsSwapon (devname : List UInt8) : (vfsSwapon devname : VfsM ρ ℕ).Keeps (KeepsNames F) := by
  have hrest (devname : List UInt8) : (swapon devname : VfsM ρ ℕ).Keeps (KeepsNames F) := by
    apply (keepsNames (keeps_findmount _)).bind
    intro found
    apply Op.Keeps.ite (Op.keeps_fail _)
    apply (Op.keeps_kassert _).bind
    intro _
    apply (keepsNames_setKdFs _ (by simp)).bind
    intro _
    exact (keepsNames (keeps_vopIncref _)).bind fun _ => Op.keeps_pure _
  unfold vfsSwapon
  apply Op.Keeps.bind
  · exact Op.Keeps.ite ((keepsNames keeps_vfsKmalloc).bind fun _ => Op.keeps_pure _) (Op.keeps_pure _)
  · intro devname
    exact keepsNames_locked (hrest devname)

theorem keepsNames_vfsSwapoff (devname : List UInt8) : (vfsSwapoff devname : VfsM ρ Unit).Keeps (KeepsNames F) := by
  apply keepsNames_locked
  apply (keepsNames (keeps_findmount devname)).bind
  intro found
  exact Op.Keeps.ite (Op.keeps_fail _) (keepsNames_setKdFs _ (by simp))

section
variable {devname : List UInt8} {mountfunc : ℕ → Op (FsState ρ) Errno ℕ}

theorem Vfs.Mounts.unique {i j fs gs : ℕ} (h : s.Mounts devname mountfunc i fs) (h' : s.Mounts devname mountfunc j gs) :
    i = j ∧ fs = gs := by
  obtain rfl : i = j := Option.some.inj (h.found.symm.trans h'.found)
  obtain ⟨kd, dev, t, hkd, -, hdev, hmount⟩ := h.mounted
  obtain ⟨kd', dev', t', hkd', -, hdev', hmount'⟩ := h'.mounted
  obtain rfl : kd = kd' := Option.some.inj (hkd.symm.trans hkd')
  obtain rfl : dev = dev' := Option.some.inj (hdev.symm.trans hdev')
  rw [hmount] at hmount'
  exact ⟨rfl, (Res.ok.inj hmount').1⟩

/-- `vfs_mount` puts what the mount function gave into the entry, or leaves the table alone. -/
def Vfs.Mounted (s : Vfs ρ) (devname : List UInt8) (mountfunc : ℕ → Op (FsState ρ) Errno ℕ) (t : Vfs ρ) : Prop :=
  (∃ i fs, s.Mounts devname mountfunc i fs ∧
    t.knowndevs = s.knowndevs.modify i fun kd => { kd with fs := .fs fs }) ∨
  (t.knowndevs = s.knowndevs ∧ ∀ i fs, ¬ s.Mounts devname mountfunc i fs)

theorem vfsMount_wp : (vfsMount devname mountfunc).wp True (fun _ t => s.Mounted devname mountfunc t)
    (fun _ t => s.Mounted devname mountfunc t) s := by
  unfold vfsMount
  rw [Op.wp_bind, wp_vfsBiglockAcquire, Op.wp_bind, Op.wp_attempt]
  apply findmount_wp
  · intro i kd hi hkd
    have hkd' : s.knowndevs[i]? = some kd := hkd
    dsimp only
    rw [Op.wp_ite]
    constructor
    · intro hbusy
      rw [Op.wp_bind, wp_vfsBiglockRelease]
      intro _ _
      refine .inr ⟨rfl, ?_⟩
      intro j fs hj
      obtain rfl : j = i := Option.some.inj (hj.found.symm.trans hi)
      obtain ⟨kd'', dev, t, hkd'', hnull, -⟩ := hj.mounted
      rw [hkd', Option.some_inj] at hkd''
      exact hbusy (hkd'' ▸ hnull)
    · intro hnull
      rw [not_not] at hnull
      cases hdev : kd.device with
      | none => trivial
      | some dev =>
        dsimp only
        rw [Op.wp_bind, Op.wp_attempt, wp_callFs]
        unfold Op.wp
        cases hm : mountfunc dev { s.fs with held := true, depth := s.fs.depth + 1 } with
        | panic => trivial
        | err e f =>
          change (vfsBiglockRelease >>= fun _ => Op.fail e).wp True _ _ _
          rw [Op.wp_bind, wp_vfsBiglockRelease]
          intro _ _
          refine .inr ⟨rfl, ?_⟩
          intro j fs hj
          obtain rfl : j = i := Option.some.inj (hj.found.symm.trans hi)
          obtain ⟨kd'', dev', t, hkd'', -, hdev', hm'⟩ := hj.mounted
          obtain rfl : kd = kd'' := Option.some.inj (hkd'.symm.trans hkd'')
          obtain rfl : dev = dev' := Option.some.inj (hdev.symm.trans hdev')
          rw [hm] at hm'
          cases hm'
        | ok fs f =>
          change (setKdFs i (.fs fs) >>= fun _ => vfsBiglockRelease).wp True _ _ _
          rw [Op.wp_bind]
          unfold setKdFs
          rw [Op.wp_modify, wp_vfsBiglockRelease]
          intro _ _
          exact .inl ⟨i, fs, ⟨hi, kd, dev, f, hkd', hnull, hdev, hm⟩, rfl⟩
  · intro hnone
    dsimp only
    rw [Op.wp_bind, wp_vfsBiglockRelease]
    intro _ _
    refine .inr ⟨rfl, ?_⟩
    intro j fs hj
    cases hnone.symm.trans hj.found

theorem Distinct.mount {i fs : ℕ} (h : Distinct F s.knowndevs) (hm : s.Mounts devname mountfunc i fs)
    (hfresh : s.FreshVolname F (.mount devname mountfunc)) :
    Distinct F (s.knowndevs.modify i fun kd => { kd with fs := .fs fs }) := by
  apply h.modify
  intro b _ n hn
  rcases Knowndev.mem_names.mp hn with hname | hraw | hvol
  · exact .inl (Knowndev.mem_names.mpr (.inl hname))
  · exact .inl (Knowndev.mem_names.mpr (.inr (.inl hraw)))
  · exact .inr (hfresh i fs n hm hvol)

/-- A volume name that another entry has makes the table ambiguous. -/
theorem freshVolname_of_distinct (ht : s.Mounted devname mountfunc t) (h : Distinct F t.knowndevs) :
    s.FreshVolname F (.mount devname mountfunc) := by
  intro i fs n hm hvol j kd hj hkd hn
  obtain ⟨k, gs, hk, heq⟩ | ⟨-, hno⟩ := ht
  · obtain ⟨rfl, rfl⟩ := hm.unique hk
    obtain ⟨b, dev, f, hb, -⟩ := hm.mounted
    rw [heq] at h
    have hi : (s.knowndevs.modify i fun kd => { kd with fs := .fs fs })[i]? = some { b with fs := .fs fs } := by
      rw [List.getElem?_modify, hb]
      exact congrArg some (if_pos rfl)
    have hj' : (s.knowndevs.modify i fun kd => { kd with fs := .fs fs })[j]? = some kd := by
      rw [List.getElem?_modify, hkd]
      exact congrArg some (if_neg (Ne.symm hj))
    exact hj (h j i kd _ hj' hi n hn (Knowndev.mem_names.mpr (.inr (.inr hvol))))
  · exact hno i fs hm

end

theorem distinct_step {e : VfslistEv ρ} (hs : Distinct F s.knowndevs) (hfresh : s.FreshVolname F e)
    (ht : vfslistStep F s e = some t) : Distinct F t.knowndevs := by
  cases e with
  | adddev devname dev mountable vnode => exact (keepsNames_vfsDoadd devname mountable _ _ vnode s).after ht hs
  | addfs devname fs vnode => exact (keepsNames_vfsDoadd devname false _ _ vnode s).after ht hs
  | mount devname mountfunc =>
    obtain ⟨i, fs, hm, heq⟩ | ⟨heq, -⟩ := vfsMount_wp.after ht
    · rw [heq]
      exact hs.mount hm hfresh
    · rw [heq]
      exact hs
  | unmount devname => exact (keepsNames_vfsUnmount devname s).after ht hs
  | swapon devname =>
    exact (((keepsNames_vfsSwapon devname).bind fun _ => Op.keeps_pure ()) s).after ht hs
  | swapoff devname => exact (keepsNames_vfsSwapoff devname s).after ht hs

theorem freshVolname_of_step {e : VfslistEv ρ} (ht : vfslistStep F s e = some t) (h : Distinct F t.knowndevs) :
    s.FreshVolname F e := by
  cases e with
  | mount devname mountfunc => exact freshVolname_of_distinct (vfsMount_wp.after ht) h
  | _ => trivial

section
variable (F) (fs : FsState ρ) (bootfsVnode cwd : Option ℕ) (evs : List (VfslistEv ρ))

theorem distinct_empty : Distinct F (Vfs.mk fs [] bootfsVnode cwd).knowndevs := by
  intro i j a b ha
  simp at ha

theorem allSteps_freshVolname
    (h : AllStates (vfslistStep F) (Vfs.OneDevice F) ⟨fs, [], bootfsVnode, cwd⟩ evs) :
    AllSteps (vfslistStep F) (Vfs.FreshVolname F) ⟨fs, [], bootfsVnode, cwd⟩ evs := by
  apply allSteps_of_states (I := fun s => Distinct F s.knowndevs) _ (distinct_empty F fs bootfsVnode cwd) allSteps_true h
  intro s e t hs _ hst ht
  exact ⟨freshVolname_of_step hst ht.names, ht.names⟩

/-- From an empty table on, a name belongs to one device for as long as no file system
is mounted whose volume name another device has. -/
theorem vfs_names_run : AllStates (vfslistStep F) (Vfs.OneDevice F) ⟨fs, [], bootfsVnode, cwd⟩ evs ↔
    AllSteps (vfslistStep F) (Vfs.FreshVolname F) ⟨fs, [], bootfsVnode, cwd⟩ evs := by
  constructor
  · exact allSteps_freshVolname F fs bootfsVnode cwd evs
  · intro h
    apply AllStates.mono (P := fun s => Distinct F s.knowndevs)
    · intro s hs
      exact Vfs.oneDevice_iff.mpr hs
    · apply allStates_of_inv (I := fun s => Distinct F s.knowndevs) _ (distinct_empty F fs bootfsVnode cwd) h
      intro s e t hs hfresh hst
      exact distinct_step hs hfresh hst

end

/-- File systems that all report the volume name "vol". -/
def volOps : FsOps Unit where
  vnFs := some
  getvolname _ := some [118, 111, 108]
  getroot _ := Op.fail .enosys
  sync _ := pure ()
  unmount _ := pure ()
  reclaim _ := pure ()
  eachopen _ _ := pure ()
  gettype _ := pure sIfdir
  truncate _ _ := Op.fail .enosys
  namefile _ := pure ()
  creat _ _ _ _ := Op.fail .enosys
  symlink _ _ _ := Op.fail .enosys
  readlink _ := Op.fail .enosys
  mkdir _ _ _ := Op.fail .enosys
  link _ _ _ := Op.fail .enosys
  remove _ _ := Op.fail .enosys
  rmdir _ _ := Op.fail .enosys
  rename _ _ _ _ := Op.fail .enosys
  lookup _ _ := Op.fail .enosys
  lookparent _ _ _ := Op.fail .enosys
  uiomove _ := pure ()

/-- Nothing held and nothing allocated. -/
def quietFs : FsState Unit := ⟨false, 0, fun _ => 0, [], ()⟩

/-- Two disks, "lhd0" and "lhd1", and a volume named "vol" on each. -/
def twoVolumes : List (VfslistEv Unit) :=
  [.adddev [108, 104, 100, 48] 0 true 0, .adddev [108, 104, 100, 49] 1 true 1,
    .mount [108, 104, 100, 48] fun dev => pure dev, .mount [108, 104, 100, 49] fun dev => pure dev]

theorem vfs_mount_same_volname :
    ¬ AllStates (vfslistStep volOps) (Vfs.OneDevice volOps) ⟨quietFs, [], none, none⟩ twoVolumes := by
  intro h
  have hrun : (exec (vfslistStep volOps) ⟨quietFs, [], none, none⟩ twoVolumes).map Vfs.knowndevs =
      some [⟨[108, 104, 100, 48], some [108, 104, 100, 48, 114, 97, 119], some 0, 0, .fs 0⟩,
        ⟨[108, 104, 100, 49], some [108, 104, 100, 49, 114, 97, 119], some 1, 1, .fs 1⟩] := by
    decide +kernel
  obtain ⟨t, ht, hdevs⟩ := Option.map_eq_some_iff.mp hrun
  have hone := (h.exec ht).names 0 1 _ _ (by rw [hdevs]; rfl) (by rw [hdevs]; rfl) [118, 111, 108]
  exact absurd (hone (by decide) (by decide)) (by decide)

end Os161
