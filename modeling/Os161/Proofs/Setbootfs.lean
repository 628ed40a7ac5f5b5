import Os161.Proofs.Getdevice

/-! `vfs_setbootfs`: which names it takes for what they say. -/

namespace Os161

variable {ρ : Type} {F : FsOps ρ} {s : Vfs ρ} {name : List UInt8}

theorem vfsSetbootfs_eq (F : FsOps ρ) (name : List UInt8) :
    vfsSetbootfs F name = (do
      vfsBiglockAcquire
      if 58 ∈ name.take 254 then do
        vfsBiglockRelease
        Op.fail .einval
      else bootTo F (vfsChdir F (name.take 254 ++ [58])) : VfsM ρ Unit) := rfl

theorem vfsSetbootfs_colon (h : 58 ∈ name.take 254) : ∃ t, vfsSetbootfs F name s = .err .einval t := by
  rewrite [vfsSetbootfs_eq]
  simp only [if_pos h]
  exact ⟨_, rfl⟩

theorem vfsSetbootfs_boot (h : 58 ∉ name.take 254) :
    vfsSetbootfs F name = (do
      vfsBiglockAcquire
      bootTo F (vfsChdir F (name.take 254 ++ [58])) : VfsM ρ Unit) := by
  rw [vfsSetbootfs_eq]
  simp only [if_neg h]

/-- A device name with a colon behind it is looked up by that name. -/
theorem vfsLookup_device (hplain : Plain name) (hne : name ≠ []) (s : Vfs ρ) :
    vfsLookup F (name ++ [58]) s = rootNamed F name s := by
  have hstart : pathStart (name ++ [58]) = .device name := by
    rw [pathStart_split hplain (Or.inl rfl), if_pos rfl, if_neg hne]
  have hsub : subpath (name ++ [58]) = [] := by simp [subpath, hstart]
  have hget : getdevice F (name ++ [58]) = (do
      assertBiglock
      let startvn ← vfsGetroot F name
      pure ([], startvn) : VfsM ρ (List UInt8 × ℕ)) := by
    rewrite [getdevice_eq, hstart, hsub]
    rfl
  rewrite [vfsLookup, rootNamed, hget]
  simp only [bind, vfsBiglockAcquire, Op.modify, Op.attempt, assertBiglock_run, if_true]
  cases vfsGetroot F name _ with
  | ok v t => rfl
  | err e t => rfl
  | panic => rfl

/-! A state in which only a file system of the name can be selected. -/

/-- The roots of its file systems are vnode 1, a directory. -/
def bootOps : FsOps Unit where
  vnFs _ := none
  getvolname _ := none
  getroot _ := pure 1
  sync _ := Op.panic
  unmount _ := Op.panic
  reclaim _ := Op.panic
  eachopen _ _ := Op.panic
  gettype _ := pure sIfdir
  truncate _ _ := Op.panic
  namefile _ := Op.panic
  creat _ _ _ _ := Op.panic
  symlink _ _ _ := Op.panic
  readlink _ := Op.panic
  mkdir _ _ _ := Op.panic
  link _ _ _ := Op.panic
  remove _ _ := Op.panic
  rmdir _ _ := Op.panic
  rename _ _ _ _ := Op.panic
  lookup _ _ := Op.panic
  lookparent _ _ _ := Op.panic
  uiomove _ := Op.panic

/-- One file system, with that name; neither a current directory nor a boot file system. -/
def onlyNamed (name : List UInt8) : Vfs Unit where
  fs := { held := false, depth := 0, refcount := fun _ => 2, kmem := [], rest := () }
  knowndevs := [{ name := name, rawname := none, device := none, vnode := 0, fs := .fs 0 }]
  bootfsVnode := none
  cwd := none

theorem bootNamed_onlyNamed (name : List UInt8) : ∃ t, bootNamed bootOps name (onlyNamed name) = .ok () t := by
  have hroot : ∀ s : Vfs Unit, s.fs.held = true → s.knowndevs = (onlyNamed name).knowndevs →
      vfsGetroot bootOps name s = .ok 1 s := by
    intro s hheld hdevs
    simp only [vfsGetroot, bind, assertBiglock_run, if_pos hheld, Op.get, hdevs, onlyNamed]
    simp [Knowndev.getroot, callFs, Op.zoom, bootOps, pure]
  rw [bootNamed]
  simp only [bootTo, chdirTo, rootNamed, bind, vfsBiglockAcquire, Op.modify, Op.attempt, hroot]
  exact ⟨_, rfl⟩

/-- With the lock held. -/
def Vfs.locked (s : Vfs ρ) (depth : ℕ) : Vfs ρ := { s with fs := { s.fs with held := true, depth := depth } }

theorem assertBiglock_locked (s : Vfs ρ) (depth : ℕ) : assertBiglock (s.locked depth) = .ok () (s.locked depth) := rfl

/-- Nothing is selected where the vnode to start from is not found. -/
theorem vfsSetbootfs_err {m : List UInt8} {e : Errno} (hcolon : 58 ∉ name.take 254)
    (h : (pathStart (name.take 254 ++ [58])).vnode bootOps ((onlyNamed m).locked 2) = .err e ((onlyNamed m).locked 2)) :
    ∃ t, vfsSetbootfs bootOps name (onlyNamed m) = .err e t := by
  have hget : getdevice bootOps (name.take 254 ++ [58]) ((onlyNamed m).locked 2) = .err e ((onlyNamed m).locked 2) := by
    rw [getdevice_eq]
    simp only [bind, assertBiglock_locked, h]
  have hlookup : vfsLookup bootOps (name.take 254 ++ [58]) ((onlyNamed m).locked 1) = .err e ((onlyNamed m).locked 1) := by
    have hacq : vfsBiglockAcquire ((onlyNamed m).locked 1) = .ok () ((onlyNamed m).locked 2) := rfl
    rw [vfsLookup]
    simp only [bind, hacq, Op.attempt, hget]
    rfl
  have hacq : vfsBiglockAcquire (onlyNamed m) = .ok () ((onlyNamed m).locked 1) := rfl
  rw [vfsSetbootfs_boot hcolon]
  simp only [bind, hacq, bootTo, vfsChdir, Op.attempt, hlookup]
  exact ⟨_, rfl⟩

theorem vfsGetroot_onlyNamed {m p : List UInt8} (h : p ≠ m) :
    vfsGetroot bootOps p ((onlyNamed m).locked 2) = .err .enodev ((onlyNamed m).locked 2) := by
  have hnone : (onlyNamed m).knowndevs.findSome? (fun kd => kd.getroot bootOps p) = none := by
    simp [onlyNamed, Knowndev.getroot, Knowndev.volname, bootOps, h.symm]
  have hdevs : ((onlyNamed m).locked 2).knowndevs = (onlyNamed m).knowndevs := rfl
  simp only [vfsGetroot, bind, assertBiglock_locked, Op.get, hdevs, hnone]
  rfl

/-- Another name, or a slash in it, leads nowhere. -/
theorem start_onlyNamed {m p : List UInt8} (hcolon : 58 ∉ p) :
    (∃ e, e ≠ Errno.einval ∧
      (pathStart (p ++ [58])).vnode bootOps ((onlyNamed m).locked 2) = .err e ((onlyNamed m).locked 2)) ∨
    Plain p ∧ p = m := by
  rcases plain_or_split p with hplain | ⟨a, c, b, rfl, ha, hc⟩
  · have hstart := pathStart_split (b := []) hplain (Or.inl rfl)
    rw [if_pos rfl] at hstart
    by_cases hnil : p = []
    · rw [if_pos hnil] at hstart
      exact Or.inl ⟨.enoent, by decide, by rewrite [hstart]; rfl⟩
    · rw [if_neg hnil] at hstart
      by_cases hm : p = m
      · exact Or.inr ⟨hplain, hm⟩
      · exact Or.inl ⟨.enodev, by decide, by rewrite [hstart]; exact vfsGetroot_onlyNamed hm⟩
  · -- A slash comes first: the path starts at the boot file system or the current directory.
    have hc : c = 47 := hc.resolve_left fun h => hcolon (by simp [h])
    have hstart := pathStart_split (b := b ++ [58]) ha (Or.inr hc)
    rw [if_neg (by simp [hc])] at hstart
    rw [List.append_assoc, List.cons_append, hstart]
    by_cases hnil : a = []
    · rewrite [if_pos hnil]
      exact Or.inl ⟨.enoent, by decide, rfl⟩
    · rewrite [if_neg hnil]
      exact Or.inl ⟨.enoent, by decide, rfl⟩

theorem not_colon_of_ok {t : Vfs ρ} (h : vfsSetbootfs F name s = .ok () t) : 58 ∉ name.take 254 := by
  intro hmem
  obtain ⟨t', ht'⟩ := vfsSetbootfs_colon (F := F) (s := s) hmem
  rw [ht'] at h
  cases h

/-- A name that selects the file system of name `m` is, as far as it is copied, `m` itself. -/
theorem eq_of_vfsSetbootfs {m : List UInt8} {t : Vfs Unit} (h : vfsSetbootfs bootOps name (onlyNamed m) = .ok () t) :
    Plain (name.take 254) ∧ name.take 254 = m := by
  have hcolon := not_colon_of_ok h
  rcases start_onlyNamed hcolon with ⟨e, -, he⟩ | hsame
  · obtain ⟨t', ht'⟩ := vfsSetbootfs_err hcolon he
    rw [ht'] at h
    cases h
  · exact hsame

/-- A colon behind the part that is copied is not noticed. -/
theorem colon_of_einval {t : Vfs Unit} (hname : name ≠ []) (h : vfsSetbootfs bootOps name (onlyNamed []) = .err .einval t) :
    58 ∈ name.take 254 := by
  by_contra hcolon
  rcases start_onlyNamed (m := []) hcolon with ⟨e, hne, he⟩ | ⟨-, hnil⟩
  · obtain ⟨t', ht'⟩ := vfsSetbootfs_err hcolon he
    rw [ht'] at h
    cases h
    exact hne rfl
  · rcases List.take_eq_nil_iff.mp hnil with h | h
    · cases h
    · exact hname h

/-- The name fills `tmp` exactly, so that neither a colon behind it nor any of it is lost. -/
theorem vfsSetbootfs_full (hlen : name.length = 254) (hplain : Plain name) (s : Vfs ρ) :
    vfsSetbootfs F name s = vfsSetbootfs F (name ++ [58]) s ∧ vfsSetbootfs F name s = bootNamed F name s := by
  have htake : name.take 254 = name := List.take_of_length_le hlen.le
  have htake' : (name ++ [58]).take 254 = name := by rw [← hlen, List.take_left]
  have hcolon : 58 ∉ name := fun h => (hplain 58 h).1 rfl
  have hne : name ≠ [] := List.ne_nil_of_length_eq_add_one hlen
  have hboot : vfsSetbootfs F name = bootNamed F name := by
    have hchdir : vfsChdir F (name ++ [58]) = chdirTo F (rootNamed F name) := by
      rewrite [← funext (vfsLookup_device hplain hne)]
      rfl
    rewrite [vfsSetbootfs_boot (by rwa [htake]), htake, hchdir]
    rfl
  have hsame : vfsSetbootfs F (name ++ [58]) = vfsSetbootfs F name := by
    rw [vfsSetbootfs_boot (by rwa [htake']), vfsSetbootfs_boot (by rwa [htake]), htake, htake']
  exact ⟨by rw [hsame], by rw [hboot]⟩

/-- Of the names without a colon `vfs_setbootfs` treats exactly those right that have 254
characters and no slash, and of those with a colon before the end those that have one among
their first 254 characters. -/
theorem setbootfs_right_iff (name : CStr) :
    SetbootfsRight name.chars ↔
      (58 ∉ name.chars → name.chars.length = 254 ∧ 47 ∉ name.chars) ∧
      (58 ∈ name.chars.dropLast → 58 ∈ name.chars.take 254) := by
  constructor
  · intro h
    refine ⟨fun hcolon => ?_, fun hcolon => ?_⟩
    · obtain ⟨hsame, hexact⟩ := (h Unit bootOps (onlyNamed name.chars)).1 hcolon
      obtain ⟨t, ht⟩ := bootNamed_onlyNamed name.chars
      rw [ht] at hexact
      rw [hexact] at hsame
      have hlong := not_colon_of_ok hsame.symm
      obtain ⟨hplain, htake⟩ := eq_of_vfsSetbootfs hexact
      rw [htake] at hplain
      refine ⟨?_, fun hslash => (hplain 47 hslash).2 rfl⟩
      have hle : name.chars.length ≤ 254 := (List.take_eq_self_iff name.chars).mp htake
      by_contra hlt
      apply hlong
      rw [List.take_of_length_le (by simp; omega)]
      exact List.mem_append_right _ (List.mem_singleton.mpr rfl)
    · obtain ⟨t, ht⟩ := (h Unit bootOps (onlyNamed [])).2 hcolon
      exact colon_of_einval (fun hnil => by simp [hnil] at hcolon) ht
  · rintro ⟨hfull, hinner⟩ ρ F s
    refine ⟨fun hcolon => ?_, fun hcolon => vfsSetbootfs_colon (hinner hcolon)⟩
    obtain ⟨hlen, hslash⟩ := hfull hcolon
    exact vfsSetbootfs_full hlen (fun c hc => ⟨fun h => hcolon (h ▸ hc), fun h => hslash (h ▸ hc)⟩) s

/-- "lhd0" is mounted. It can be booted from, and "lhd0:" is refused. -/
theorem setbootfs_colon_refused :
    (∃ t, vfsSetbootfs bootOps [108, 104, 100, 48] (onlyNamed [108, 104, 100, 48]) = .ok () t) ∧
    (∃ t, vfsSetbootfs bootOps [108, 104, 100, 48, 58] (onlyNamed [108, 104, 100, 48]) = .err .einval t) :=
  ⟨⟨_, rfl⟩, ⟨_, rfl⟩⟩

end Os161
