import Os161.Proofs.Vfslist
import Os161.Spec.Mounts

/-! `kd_fs` through every call of `vfslist.c`. A file system is destroyed only by an
unmount that returns 0, and then its entry no longer names it; so no operation is made
on one that is gone as long as no two entries name the same. -/

namespace Os161

variable {N : Prop} {s t : Vfs FsScript} {devs : List Knowndev} {gone : List ℕ} {kd : Knowndev} {n : ℕ}
  {volname : ℕ → Option (List UInt8)} {root : ℕ → ℕ}

/-! ### The table -/

/-- What holds of the table: attached file systems are there, an entry without a device
cannot be unmounted, and only a mountable device is used for swap. -/
structure Sound (gone : List ℕ) (devs : List Knowndev) : Prop where
  once : AttachedOnce devs
  live : AttachedLive gone devs
  device : ∀ kd ∈ devs, kd.device = none → kd.rawname = none ∧ kd.fs ≠ .null
  swap : ∀ kd ∈ devs, kd.fs = .swap → kd.rawname ≠ none

theorem sound_empty : Sound gone [] where
  once i j a b f ha := by simp at ha
  live kd hkd := by simp at hkd
  device kd hkd := by simp at hkd
  swap kd hkd := by simp at hkd

theorem Sound.device_of_rawname (h : Sound gone devs) (hkd : kd ∈ devs) (hraw : kd.rawname ≠ none) : kd.device ≠ none :=
  fun hdev => hraw (h.device kd hkd hdev).1

/-- A new entry whose file system, if it has one, is attached nowhere else. -/
theorem Sound.append (h : Sound gone devs) (hnew : ∀ f, kd.fs = .fs f → f ∉ gone ∧ ∀ a ∈ devs, a.fs ≠ .fs f)
    (hdevice : kd.device = none → kd.rawname = none ∧ kd.fs ≠ .null) (hswap : kd.fs ≠ .swap) :
    Sound gone (devs ++ [kd]) where
  once := by
    intro i j a b f ha hb hfa hfb
    rcases getElem?_concat_cases ha with ha' | ⟨hi, rfl⟩ <;> rcases getElem?_concat_cases hb with hb' | ⟨hj, rfl⟩
    · exact h.once i j a b f ha' hb' hfa hfb
    · exact absurd hfa ((hnew f hfb).2 a (List.mem_of_getElem? ha'))
    · exact absurd hfb ((hnew f hfa).2 b (List.mem_of_getElem? hb'))
    · rw [hi, hj]
  live := by
    intro a ha f hf hfa
    rcases List.mem_append.mp ha with ha' | ha'
    · exact h.live a ha' f hf hfa
    · obtain rfl := List.mem_singleton.mp ha'
      exact (hnew f hfa).1 hf
  device := by
    intro a ha
    rcases List.mem_append.mp ha with ha' | ha'
    · exact h.device a ha'
    · obtain rfl := List.mem_singleton.mp ha'
      exact hdevice
  swap := by
    intro a ha
    rcases List.mem_append.mp ha with ha' | ha'
    · exact h.swap a ha'
    · obtain rfl := List.mem_singleton.mp ha'
      intro hs
      exact absurd hs hswap

/-- The entry at `i`, which is mountable, gets another `kd_fs`. -/
theorem Sound.put (h : Sound gone devs) {i : ℕ} {fs : KdFs} (hkd : devs[i]? = some kd) (hraw : kd.rawname ≠ none)
    (hnew : ∀ f, fs = .fs f → f ∉ gone ∧ ∀ a ∈ devs, a.fs ≠ .fs f) :
    Sound gone (devs.modify i fun kd => { kd with fs := fs }) where
  once := by
    intro j k a b f ha hb hfa hfb
    rcases getElem?_modify_cases ha with ⟨hj, ha'⟩ | ⟨rfl, a', ha', rfl⟩ <;>
      rcases getElem?_modify_cases hb with ⟨hk, hb'⟩ | ⟨rfl, b', hb', rfl⟩
    · exact h.once j k a b f ha' hb' hfa hfb
    · exact absurd hfa ((hnew f hfb).2 a (List.mem_of_getElem? ha'))
    · exact absurd hfb ((hnew f hfa).2 b (List.mem_of_getElem? hb'))
    · rfl
  live := by
    intro a ha f hf hfa
    obtain ⟨j, hj⟩ := List.mem_iff_getElem?.mp ha
    rcases getElem?_modify_cases hj with ⟨-, ha'⟩ | ⟨rfl, a', ha', rfl⟩
    · exact h.live a (List.mem_of_getElem? ha') f hf hfa
    · exact (hnew f hfa).1 hf
  device := by
    intro a ha hdev
    obtain ⟨j, hj⟩ := List.mem_iff_getElem?.mp ha
    rcases getElem?_modify_cases hj with ⟨-, ha'⟩ | ⟨rfl, a', ha', rfl⟩
    · exact h.device a (List.mem_of_getElem? ha') hdev
    · rw [hkd, Option.some_inj] at ha'
      exact absurd (h.device kd (List.mem_of_getElem? hkd) (ha' ▸ hdev)).1 hraw
  swap := by
    intro a ha hswap
    obtain ⟨j, hj⟩ := List.mem_iff_getElem?.mp ha
    rcases getElem?_modify_cases hj with ⟨-, ha'⟩ | ⟨rfl, a', ha', rfl⟩
    · exact h.swap a (List.mem_of_getElem? ha') hswap
    · rw [hkd, Option.some_inj] at ha'
      exact ha' ▸ hraw

/-- The file system at `i` is destroyed and taken out of its entry. -/
theorem Sound.unmount (h : Sound gone devs) {i f : ℕ} (hkd : devs[i]? = some kd) (hraw : kd.rawname ≠ none)
    (hf : kd.fs = .fs f) : Sound (f :: gone) (devs.modify i fun kd => { kd with fs := .null }) := by
  have hput : Sound gone (devs.modify i fun kd => { kd with fs := .null }) := h.put hkd hraw (by simp)
  refine { hput with live := ?live }
  intro a ha g hg hga
  obtain ⟨j, hj⟩ := List.mem_iff_getElem?.mp ha
  rcases getElem?_modify_cases hj with ⟨hji, ha'⟩ | ⟨rfl, a', ha', rfl⟩
  · rcases List.mem_cons.mp hg with rfl | hg'
    · exact hji (h.once j i a kd g ha' hkd hga hf)
    · exact hput.live a ha g hg' hga
  · cases hga

/-! ### The steps inside a call -/

/-- The lock has been taken `n` times, and the table is sound if `N`. -/
structure Vfs.In (N : Prop) (n : ℕ) (s : Vfs FsScript) : Prop where
  depth : s.fs.depth = n
  held : s.fs.held = decide (0 < n)
  sound : N → Sound s.fs.rest.gone s.knowndevs

/-- Nothing has changed that the table is about. -/
structure Vfs.Calm (s t : Vfs FsScript) : Prop where
  knowndevs : t.knowndevs = s.knowndevs
  depth : t.fs.depth = s.fs.depth
  held : t.fs.held = s.fs.held
  gone : t.fs.rest.gone = s.fs.rest.gone

theorem Vfs.Calm.refl (s : Vfs FsScript) : s.Calm s := ⟨rfl, rfl, rfl, rfl⟩

theorem Vfs.Calm.trans {u : Vfs FsScript} (h : s.Calm t) (h' : t.Calm u) : s.Calm u :=
  ⟨h'.knowndevs.trans h.knowndevs, h'.depth.trans h.depth, h'.held.trans h.held, h'.gone.trans h.gone⟩

theorem Vfs.In.calm (h : s.In N n) (hst : s.Calm t) : t.In N n where
  depth := hst.depth.trans h.depth
  held := hst.held.trans h.held
  sound hN := by
    rw [hst.gone, hst.knowndevs]
    exact h.sound hN

section
variable {α : Type} {Q : Unit → Vfs FsScript → Prop} {E : Errno → Vfs FsScript → Prop}

theorem calm_vfsKmalloc (hQ : ∀ t, s.Calm t → Q () t) (hE : ∀ e t, s.Calm t → E e t) :
    vfsKmalloc.wp False Q E s := by
  unfold vfsKmalloc
  rw [Op.wp_bind, Op.wp_get]
  cases s.fs.kmem with
  | nil => exact hQ s (Vfs.Calm.refl s)
  | cons okay rest =>
    rw [Op.wp_bind, Op.wp_set, Op.wp_ite]
    constructor
    · intro _
      exact hQ _ ⟨rfl, rfl, rfl, rfl⟩
    · intro _
      exact hE _ _ ⟨rfl, rfl, rfl, rfl⟩

theorem calm_setRefcount {v m : ℕ} (hQ : ∀ t, s.Calm t → Q () t) : (setRefcount v m).wp False Q E s :=
  hQ _ ⟨rfl, rfl, rfl, rfl⟩

theorem calm_vopIncref {v : ℕ} (hQ : ∀ t, s.Calm t → Q () t) : (vopIncref v).wp False Q E s :=
  hQ _ ⟨rfl, rfl, rfl, rfl⟩

theorem assertBiglock_in (hs : s.In N (n + 1)) (hQ : Q () s) : assertBiglock.wp False Q E s := by
  unfold assertBiglock
  rw [Op.wp_bind, Op.wp_get]
  exact (Op.wp_kassert_of (by rw [hs.held]; simp)).mpr hQ

theorem acquire_in (hs : s.In N n)
    (hQ : ∀ t, t.In N (n + 1) → t.knowndevs = s.knowndevs → t.fs.rest = s.fs.rest → Q () t) :
    vfsBiglockAcquire.wp False Q E s := by
  rw [wp_vfsBiglockAcquire]
  exact hQ _ ⟨by simp only [hs.depth], by simp, hs.sound⟩ rfl rfl

theorem release_in (hs : s.In N (n + 1)) (hQ : ∀ t, t.In N n → t.knowndevs = s.knowndevs → Q () t) :
    vfsBiglockRelease.wp False Q E s := by
  unfold vfsBiglockRelease
  rw [Op.wp_bind, Op.wp_get, Op.wp_bind]
  apply (Op.wp_kassert_of (by rw [hs.held]; simp)).mpr
  rw [Op.wp_bind]
  apply (Op.wp_kassert_of (by rw [hs.depth]; omega)).mpr
  rw [Op.wp_set]
  apply hQ
  · exact ⟨by simp only [hs.depth]; omega, by simp only [hs.depth, Nat.add_sub_cancel, Nat.pos_iff_ne_zero], hs.sound⟩
  · rfl

/-- An operation on a file system that is there. -/
theorem answer_wp {Q : Unit → FsState FsScript → Prop} {E : Errno → FsState FsScript → Prop} {u : FsState FsScript}
    {f : ℕ} (hf : f ∉ u.rest.gone) (hQ : ∀ r, Q () { u with rest := { u.rest with results := r } })
    (hE : ∀ e r, E e { u with rest := { u.rest with results := r } }) : (answer f).wp False Q E u := by
  unfold answer
  rw [Op.wp_bind, Op.wp_get, Op.wp_bind]
  apply (Op.wp_kassert_of hf).mpr
  split
  · exact hQ u.rest.results
  · exact hQ _
  · exact hE _ _

theorem calm_sync {f : ℕ} (hf : f ∉ s.fs.rest.gone) (hQ : ∀ t, s.Calm t → Q () t) (hE : ∀ e t, s.Calm t → E e t) :
    (callFs ((scriptOps volname root).sync f)).wp False Q E s := by
  rw [wp_callFs]
  apply answer_wp hf
  · intro r
    exact hQ _ ⟨rfl, rfl, rfl, rfl⟩
  · intro e r
    exact hE _ _ ⟨rfl, rfl, rfl, rfl⟩

theorem calm_syncTwice {f : ℕ} {Q : Except Errno Unit → Vfs FsScript → Prop} {E : Errno → Vfs FsScript → Prop}
    (hf : f ∉ s.fs.rest.gone) (hok : ∀ t, s.Calm t → Q (.ok ()) t) (herr : ∀ e t, s.Calm t → Q (.error e) t) :
    (syncTwice (scriptOps volname root) f).wp False Q E s := by
  unfold syncTwice
  rw [Op.wp_bind, Op.wp_attempt]
  apply calm_sync hf
  · exact hok
  · intro e t ht
    dsimp only
    rw [Op.wp_attempt]
    apply calm_sync (by rw [ht.gone]; exact hf)
    · intro v hv
      exact hok v (ht.trans hv)
    · intro e' v hv
      exact herr e' v (ht.trans hv)

theorem unmount_wp {f : ℕ} (hf : f ∉ s.fs.rest.gone)
    (hQ : ∀ t, t.knowndevs = s.knowndevs → t.fs.depth = s.fs.depth → t.fs.held = s.fs.held →
      t.fs.rest.gone = f :: s.fs.rest.gone → Q () t) (hE : ∀ e t, s.Calm t → E e t) :
    (callFs ((scriptOps volname root).unmount f)).wp False Q E s := by
  rw [wp_callFs]
  change ((answer f >>= fun _ => Op.modify _).wp _ _ _ _)
  rw [Op.wp_bind]
  apply answer_wp hf
  · intro r
    exact hQ _ rfl rfl rfl rfl
  · intro e r
    exact hE _ _ ⟨rfl, rfl, rfl, rfl⟩

/-- The device that `findmount` finds is mountable. -/
theorem findmount_in {Q : ℕ × Knowndev → Vfs FsScript → Prop} {devname : List UInt8} (hs : s.In N (n + 1))
    (hQ : ∀ i kd, s.knowndevs[i]? = some kd → kd.rawname ≠ none → Q (i, kd) s) (hE : E .enodev s) :
    (findmount devname).wp False Q E s := by
  unfold findmount
  rw [Op.wp_bind]
  apply assertBiglock_in hs
  rw [Op.wp_bind, Op.wp_get]
  split
  · exact hE
  · rename_i i hi
    obtain ⟨hlt, hmatch, -⟩ := List.findIdx?_eq_some_iff_getElem.mp hi
    rw [List.getElem?_eq_getElem hlt]
    refine hQ i _ (List.getElem?_eq_getElem hlt) ?_
    exact (of_decide_eq_true hmatch).1

end

/-! ### The functions -/

/-- Between two calls the lock is free. -/
abbrev Vfs.Idle (s : Vfs FsScript) : Prop := s.In True 0

section
variable {α : Type} {devname : List UInt8}

/-- The functions that take the lock, do their work and return what it returned. -/
theorem locked_in {x : VfsM FsScript α} (hs : s.Idle)
    (hx : ∀ u, u.In True 1 → u.knowndevs = s.knowndevs → u.fs.rest = s.fs.rest →
      x.wp False (fun _ t => t.In N 1) (fun _ t => t.In True 1 ∧ t.knowndevs = s.knowndevs) u) :
    (do vfsBiglockAcquire; let result ← Op.attempt x; vfsBiglockRelease; returns result).wp False
      (fun _ t => t.In N 0) (fun _ t => t.Idle ∧ t.knowndevs = s.knowndevs) s := by
  rw [Op.wp_bind]
  apply acquire_in hs
  intro u hu hdevs hrest
  rw [Op.wp_bind, Op.wp_attempt]
  apply (hx u hu hdevs hrest).mono
  · intro a t ht
    rw [Op.wp_bind]
    apply release_in ht
    intro v hv _
    exact hv
  · intro e t ht
    rw [Op.wp_bind]
    apply release_in ht.1
    intro v hv hdevs'
    exact ⟨hv, hdevs'.trans ht.2⟩

theorem setKdFs_in {i : ℕ} {fs : KdFs} {E : Errno → Vfs FsScript → Prop} (hs : s.In True n) (hkd : s.knowndevs[i]? = some kd)
    (hraw : kd.rawname ≠ none) (hnew : N → ∀ f, fs = .fs f → f ∉ s.fs.rest.gone ∧ ∀ a ∈ s.knowndevs, a.fs ≠ .fs f) :
    (setKdFs i fs).wp False (fun _ t => t.In N n) E s := by
  refine ⟨hs.depth, hs.held, ?_⟩
  intro hN
  exact (hs.sound trivial).put hkd hraw (hnew hN)

/-- The entry that `vfs_doadd` makes. -/
theorem doadd_in {mountable : Bool} {dev : Option ℕ} {fs : KdFs} {vnode : ℕ} (hs : s.In True 1)
    (hnew : N → ∀ f, fs = .fs f → f ∉ s.fs.rest.gone ∧ ∀ a ∈ s.knowndevs, a.fs ≠ .fs f)
    (hdevice : dev = none → mountable = false ∧ fs ≠ .null) (hswap : fs ≠ .swap) :
    (doadd (scriptOps volname root) devname mountable dev fs vnode).wp False (fun _ t => t.In N 1)
      (fun _ t => t.In True 1 ∧ t.knowndevs = s.knowndevs) s := by
  have herr (e : Errno) (t : Vfs FsScript) (ht : s.Calm t) : t.In True 1 ∧ t.knowndevs = s.knowndevs :=
    ⟨hs.calm ht, ht.knowndevs⟩
  unfold doadd
  rw [Op.wp_bind]
  apply calm_vfsKmalloc _ herr
  intro t₁ h₁
  rw [Op.wp_bind]
  -- the raw name is made for a mountable device only
  have hrawname : (rawnameOf mountable devname).wp False
      (fun rawname t => (mountable = false → rawname = none) ∧ s.Calm t) (fun _ t => s.Calm t) t₁ := by
    unfold rawnameOf
    rw [Op.wp_ite]
    constructor
    · intro hm
      rw [Op.wp_bind]
      unfold mkrawname
      rw [Op.wp_bind]
      apply calm_vfsKmalloc
      · intro t ht
        exact ⟨fun h => absurd (hm.symm.trans h) (by simp), h₁.trans ht⟩
      · intro e t ht
        exact h₁.trans ht
    · intro hm
      exact ⟨fun _ => rfl, h₁⟩
  refine hrawname.mono ?_ herr
  intro rawname t₂ h₂
  rw [Op.wp_bind]
  apply calm_vfsKmalloc _ fun e t ht => herr e t (h₂.2.trans ht)
  intro t₃ h₃
  rw [Op.wp_bind]
  apply calm_setRefcount
  intro t₄ h₄
  have hcalm : s.Calm t₄ := (h₂.2.trans h₃).trans h₄
  have hfail (e : Errno) (t : Vfs FsScript) (ht : s.Calm t) :
      (setRefcount vnode 0 >>= fun _ => Op.fail e : VfsM FsScript Unit).wp False (fun _ t => t.In N 1)
        (fun _ t => t.In True 1 ∧ t.knowndevs = s.knowndevs) t := by
    rw [Op.wp_bind]
    apply calm_setRefcount
    intro u hu
    exact herr e u (ht.trans hu)
  rw [Op.wp_bind, Op.wp_attempt, Op.wp_bind]
  apply calm_vfsKmalloc _ fun e t ht => hfail e t (hcalm.trans ht)
  intro t₅ h₅
  rw [Op.wp_bind]
  apply assertBiglock_in (hs.calm (hcalm.trans h₅))
  rw [Op.wp_bind, Op.wp_get, Op.wp_ite]
  constructor
  · intro _
    exact hfail .eexist t₅ (hcalm.trans h₅)
  · intro _
    rw [Op.wp_bind]
    apply calm_vfsKmalloc _ fun e t ht => hfail e t ((hcalm.trans h₅).trans ht)
    intro t₆ h₆
    have hsame := (hcalm.trans h₅).trans h₆
    have hin := hs.calm hsame
    refine ⟨hin.depth, hin.held, ?_⟩
    intro hN
    apply (hin.sound trivial).append
    · intro f hf
      rw [hsame.gone, hsame.knowndevs]
      exact hnew hN f hf
    · intro hdev
      exact ⟨h₂.1 (hdevice hdev).1, (hdevice hdev).2⟩
    · exact hswap

theorem vfsDoadd_in {mountable : Bool} {dev : Option ℕ} {fs : KdFs} {vnode : ℕ} (hs : s.Idle)
    (hnew : N → ∀ f, fs = .fs f → f ∉ s.fs.rest.gone ∧ ∀ a ∈ s.knowndevs, a.fs ≠ .fs f)
    (hdevice : dev = none → mountable = false ∧ fs ≠ .null) (hswap : fs ≠ .swap) :
    (vfsDoadd (scriptOps volname root) devname mountable dev fs vnode).wp False (fun _ t => t.In N 0)
      (fun _ t => t.Idle ∧ t.knowndevs = s.knowndevs) s := by
  unfold vfsDoadd
  rw [Op.wp_bind]
  apply acquire_in hs
  intro u hu hdevs hrest
  rw [Op.wp_bind, Op.wp_attempt]
  have hnew' : N → ∀ f, fs = .fs f → f ∉ u.fs.rest.gone ∧ ∀ a ∈ u.knowndevs, a.fs ≠ .fs f := by
    rw [hdevs, hrest]
    exact hnew
  apply (doadd_in hu hnew' hdevice hswap).mono
  · intro _ t ht
    apply release_in ht
    intro v hv _
    exact hv
  · intro e t ht
    dsimp only
    rw [Op.wp_bind]
    apply release_in ht.1
    intro v hv hdevs'
    exact ⟨hv, hdevs'.trans (ht.2.trans hdevs)⟩

theorem vfsMount_in {result : Except Errno ℕ} (hs : s.Idle)
    (hnew : N → ∀ f, result = .ok f → f ∉ s.fs.rest.gone ∧ ∀ a ∈ s.knowndevs, a.fs ≠ .fs f) :
    (vfsMount devname (mountReturning result)).wp False (fun _ t => t.In N 0)
      (fun _ t => t.Idle ∧ t.knowndevs = s.knowndevs) s := by
  unfold vfsMount
  rw [Op.wp_bind]
  apply acquire_in hs
  intro u hu hdevs hrest
  have hfail (e : Errno) : (vfsBiglockRelease >>= fun _ => Op.fail e : VfsM FsScript Unit).wp False
      (fun _ t => t.In N 0) (fun _ t => t.Idle ∧ t.knowndevs = s.knowndevs) u := by
    rw [Op.wp_bind]
    apply release_in hu
    intro v hv hdevs'
    exact ⟨hv, hdevs'.trans hdevs⟩
  rw [Op.wp_bind, Op.wp_attempt]
  apply findmount_in hu _ (hfail .enodev)
  intro i kd hkd hraw
  dsimp only
  rw [Op.wp_ite]
  constructor
  · intro _
    exact hfail .ebusy
  · intro _
    cases hdev : kd.device with
    | none => exact absurd hdev ((hu.sound trivial).device_of_rawname (List.mem_of_getElem? hkd) hraw)
    | some dev =>
      dsimp only
      rw [Op.wp_bind, Op.wp_attempt, wp_callFs]
      cases result with
      | error e => exact hfail e
      | ok f =>
        change (setKdFs i (.fs f) >>= fun _ => vfsBiglockRelease).wp False _ _ u
        rw [Op.wp_bind]
        apply (setKdFs_in (N := N) hu hkd hraw _).mono
        · intro _ t ht
          apply release_in ht
          intro v hv _
          exact hv
        · exact fun _ _ h => h
        · intro hN g hg
          rw [hdevs, hrest]
          exact hnew hN g (by rw [KdFs.fs.injEq] at hg; rw [hg])

theorem vfsUnmount_in (hs : s.Idle) : (vfsUnmount (scriptOps volname root) devname).wp False (fun _ t => t.Idle)
    (fun _ t => t.Idle ∧ t.knowndevs = s.knowndevs) s := by
  apply locked_in hs
  intro u hu hdevs _
  unfold unmount
  rw [Op.wp_bind]
  apply findmount_in hu
  · intro i kd hkd hraw
    dsimp only
    split
    · rename_i f hf
      have hmem := List.mem_of_getElem? hkd
      have hlive : f ∉ u.fs.rest.gone := fun h => (hu.sound trivial).live kd hmem f h hf
      rw [Op.wp_bind]
      apply (Op.wp_kassert_of ((hu.sound trivial).device_of_rawname hmem hraw)).mpr
      rw [Op.wp_bind]
      have herr (e : Errno) (t : Vfs FsScript) (ht : u.Calm t) : t.In True 1 ∧ t.knowndevs = s.knowndevs :=
        ⟨hu.calm ht, ht.knowndevs.trans hdevs⟩
      apply calm_sync hlive _ herr
      intro t ht
      rw [Op.wp_bind]
      apply unmount_wp (by rw [ht.gone]; exact hlive)
      · intro v hv hdepth hheld hgone
        refine ⟨hdepth.trans (ht.depth.trans hu.depth), hheld.trans (ht.held.trans hu.held), ?_⟩
        intro _
        change Sound v.fs.rest.gone (v.knowndevs.modify i _)
        rw [hgone, hv, ht.gone, ht.knowndevs]
        exact (hu.sound trivial).unmount hkd hraw hf
      · intro e v hv
        exact herr e v (ht.trans hv)
    · exact ⟨hu, hdevs⟩
  · exact ⟨hu, hdevs⟩

theorem vfsSwapon_in (hs : s.Idle) : (vfsSwapon devname).wp False (fun _ t => t.Idle)
    (fun _ t => t.Idle ∧ t.knowndevs = s.knowndevs) s := by
  have hwork (t : Vfs FsScript) (name : List UInt8) (ht : s.Calm t) :
      (do vfsBiglockAcquire; let result ← Op.attempt (swapon name); vfsBiglockRelease; returns result).wp False
        (fun _ t => t.Idle) (fun _ t => t.Idle ∧ t.knowndevs = s.knowndevs) t := by
    rw [← ht.knowndevs]
    apply locked_in (hs.calm ht)
    intro u hu hdevs _
    unfold swapon
    rw [Op.wp_bind]
    apply findmount_in hu
    · intro i kd hkd hraw
      dsimp only
      rw [Op.wp_ite]
      constructor
      · intro _
        exact ⟨hu, hdevs⟩
      · intro _
        rw [Op.wp_bind]
        apply (Op.wp_kassert_of ((hu.sound trivial).device_of_rawname (List.mem_of_getElem? hkd) hraw)).mpr
        rw [Op.wp_bind]
        apply (setKdFs_in (N := True) hu hkd hraw (by simp)).mono
        · intro _ v hv
          rw [Op.wp_bind]
          apply calm_vopIncref
          intro w hw
          exact hv.calm hw
        · exact fun _ _ h => h
    · exact ⟨hu, hdevs⟩
  unfold vfsSwapon swapName
  rw [Op.wp_bind, Op.wp_ite]
  constructor
  · intro _
    rw [Op.wp_bind]
    apply calm_vfsKmalloc
    · intro t ht
      exact hwork t _ ht
    · intro e t ht
      exact ⟨hs.calm ht, ht.knowndevs⟩
  · intro _
    exact hwork s _ (Vfs.Calm.refl s)

theorem vfsSwapoff_in (hs : s.Idle) : (vfsSwapoff devname).wp False (fun _ t => t.Idle)
    (fun _ t => t.Idle ∧ t.knowndevs = s.knowndevs) s := by
  apply locked_in hs
  intro u hu hdevs _
  unfold swapoff
  rw [Op.wp_bind]
  apply findmount_in hu
  · intro i kd hkd hraw
    dsimp only
    rw [Op.wp_ite]
    constructor
    · intro _
      exact ⟨hu, hdevs⟩
    · intro _
      exact setKdFs_in hu hkd hraw (by simp)
  · exact ⟨hu, hdevs⟩

/-- A turn of the loop of `vfs_unmountall`; it goes on after every error. -/
theorem unmountallAt_in {i : ℕ} {E : Errno → Vfs FsScript → Prop} (hs : s.In True 1) (hi : i < s.knowndevs.length) :
    (unmountallAt (scriptOps volname root) i).wp False
      (fun _ t => t.In True 1 ∧ t.knowndevs.length = s.knowndevs.length) E s := by
  have hkd := List.getElem?_eq_getElem hi
  generalize s.knowndevs[i] = kd at hkd
  have hcalm (t : Vfs FsScript) (ht : s.Calm t) : t.In True 1 ∧ t.knowndevs.length = s.knowndevs.length :=
    ⟨hs.calm ht, congrArg List.length ht.knowndevs⟩
  unfold unmountallAt
  rw [Op.wp_bind, Op.wp_get, hkd]
  dsimp only
  rw [Op.wp_ite]
  constructor
  · intro _
    exact hcalm s (Vfs.Calm.refl s)
  · intro hraw
    split
    · exact hcalm s (Vfs.Calm.refl s)
    · refine ⟨⟨hs.depth, hs.held, fun _ => (hs.sound trivial).put hkd hraw (by simp)⟩, ?_⟩
      exact List.length_modify ..
    · rename_i f hf
      have hlive : f ∉ s.fs.rest.gone := fun h => (hs.sound trivial).live kd (List.mem_of_getElem? hkd) f h hf
      rw [Op.wp_bind]
      apply calm_syncTwice hlive
      · intro t ht
        dsimp only
        rw [Op.wp_bind, Op.wp_attempt]
        apply unmount_wp (by rw [ht.gone]; exact hlive)
        · intro v hv hdepth hheld hgone
          refine ⟨⟨hdepth.trans (ht.depth.trans hs.depth), hheld.trans (ht.held.trans hs.held), ?_⟩, ?_⟩
          · intro _
            change Sound v.fs.rest.gone (v.knowndevs.modify i _)
            rw [hgone, hv, ht.gone, ht.knowndevs]
            exact (hs.sound trivial).unmount hkd hraw hf
          · rw [← ht.knowndevs, ← hv]
            exact List.length_modify ..
        · intro e v hv
          exact hcalm v (ht.trans hv)
      · intro e t ht
        exact hcalm t ht

theorem vfsUnmountall_in (hs : s.Idle) : (vfsUnmountall (scriptOps volname root)).wp False (fun _ t => t.Idle)
    (fun _ t => t.Idle ∧ t.knowndevs = s.knowndevs) s := by
  unfold vfsUnmountall
  rw [Op.wp_bind]
  apply acquire_in hs
  intro u hu _ _
  rw [Op.wp_bind, Op.wp_get, Op.wp_bind]
  apply Op.wp_foldlM_range (fun _ _ t => t.In True 1 ∧ t.knowndevs.length = u.knowndevs.length)
  · intro i hi _ t ht
    apply (unmountallAt_in ht.1 (by rw [ht.2]; exact hi)).mono
    · intro _ v hv
      exact ⟨hv.1, hv.2.trans ht.2⟩
    · exact fun _ _ h => h
  · intro _ t ht
    apply release_in ht.1
    intro v hv _
    exact hv
  · exact ⟨hu, rfl⟩

theorem vfsSync_in (hs : s.Idle) : (vfsSync (scriptOps volname root)).wp False (fun _ t => t.Idle)
    (fun _ t => t.Idle ∧ t.knowndevs = s.knowndevs) s := by
  unfold vfsSync
  rw [Op.wp_bind]
  apply acquire_in hs
  intro u hu _ _
  rw [Op.wp_bind, Op.wp_get, Op.wp_bind]
  apply Op.wp_foldlM (fun rest _ t => rest ⊆ u.knowndevs ∧ u.Calm t)
  · intro kd rest _ t ht
    have hrest : rest ⊆ u.knowndevs := fun a ha => ht.1 (List.mem_cons_of_mem _ ha)
    have hmem : kd ∈ u.knowndevs := ht.1 List.mem_cons_self
    split
    · rename_i f hf
      rw [Op.wp_bind, Op.wp_attempt]
      have hlive : f ∉ t.fs.rest.gone := by
        rw [ht.2.gone]
        exact fun h => (hu.sound trivial).live kd hmem f h hf
      apply calm_sync hlive
      · intro v hv
        exact ⟨hrest, ht.2.trans hv⟩
      · intro _ v hv
        exact ⟨hrest, ht.2.trans hv⟩
    · exact ⟨hrest, ht.2⟩
  · intro _ t ht
    apply release_in (hu.calm ht.2)
    intro v hv _
    exact hv
  · exact ⟨List.Subset.refl _, Vfs.Calm.refl u⟩

/-- `vfs_getroot` at the entry it stops at. -/
theorem getroot_in {x : VfsM FsScript ℕ} (hs : s.In True 1) (hkd : kd ∈ s.knowndevs)
    (hx : kd.getroot (scriptOps volname root) devname = some x) :
    x.wp False (fun _ t => t.In True 1) (fun _ t => t.In True 1 ∧ t.knowndevs = s.knowndevs) s := by
  have hitself (hdev : kd.device ≠ none) : (do
      Op.kassert (kd.device ≠ none)
      vopIncref kd.vnode
      pure kd.vnode : VfsM FsScript ℕ).wp False (fun _ t => t.In True 1)
        (fun _ t => t.In True 1 ∧ t.knowndevs = s.knowndevs) s := by
    rw [Op.wp_bind]
    apply (Op.wp_kassert_of hdev).mpr
    rw [Op.wp_bind]
    apply calm_vopIncref
    intro t ht
    exact hs.calm ht
  have hraw (n : List UInt8) (h : kd.rawname = some n) : kd.device ≠ none :=
    (hs.sound trivial).device_of_rawname hkd (by rw [h]; simp)
  unfold Knowndev.getroot at hx
  dsimp only at hx
  split at hx
  · rename_i f hf
    have hlive : f ∉ s.fs.rest.gone := fun h => (hs.sound trivial).live kd hkd f h hf
    split_ifs at hx with hname hrawname
    · obtain rfl := Option.some.inj hx
      rw [wp_callFs]
      change ((answer f >>= fun _ => pure (root f)).wp _ _ _ _)
      rw [Op.wp_bind]
      apply answer_wp hlive
      · intro r
        exact hs.calm ⟨rfl, rfl, rfl, rfl⟩
      · intro e r
        exact ⟨hs.calm ⟨rfl, rfl, rfl, rfl⟩, rfl⟩
    · obtain rfl := Option.some.inj hx
      exact hitself (hraw _ hrawname)
  · rename_i hnofs
    split_ifs at hx with hmountable hname hrawname
    · obtain rfl := Option.some.inj hx
      exact ⟨hs, rfl⟩
    · obtain rfl := Option.some.inj hx
      -- a device without a raw name is not used for swap, and keeps the file system it came with
      have hnone : kd.rawname = none := by
        by_contra hne
        exact hmountable ⟨hne, hname⟩
      have hnull : kd.fs = .null := by
        cases hfs : kd.fs with
        | null => rfl
        | swap => exact absurd hnone ((hs.sound trivial).swap kd hkd hfs)
        | fs f => exact absurd hfs (hnofs f)
      rw [Op.wp_bind]
      apply (Op.wp_kassert_of hnull).mpr
      apply hitself
      intro hdev
      exact ((hs.sound trivial).device kd hkd hdev).2 hnull
    · obtain rfl := Option.some.inj hx
      exact hitself (hraw _ hrawname)

theorem lockedGetroot_in (hs : s.Idle) : (lockedGetroot (scriptOps volname root) devname).wp False (fun _ t => t.Idle)
    (fun _ t => t.Idle ∧ t.knowndevs = s.knowndevs) s := by
  apply locked_in hs
  intro u hu hdevs _
  unfold vfsGetroot
  rw [Op.wp_bind]
  apply assertBiglock_in hu
  rw [Op.wp_bind, Op.wp_get, ← hdevs]
  cases hfound : u.knowndevs.findSome? fun kd => kd.getroot (scriptOps volname root) devname with
  | none => exact ⟨hu, rfl⟩
  | some x =>
    obtain ⟨kd, hkd, hx⟩ := List.exists_of_findSome?_eq_some hfound
    exact getroot_in hu hkd hx

end

/-! ### Runs -/

theorem mountCall_in (volname : ℕ → Option (List UInt8)) (root : ℕ → ℕ) (e : MountEv) (hs : s.Idle) : (mountCall (scriptOps volname root) e).wp False
    (fun _ t => t.In (s.BringsNew e) 0) (fun _ t => t.Idle ∧ t.knowndevs = s.knowndevs) s := by
  -- a call that brings no file system
  have hplain {α : Type} {x : VfsM FsScript α}
      (h : x.wp False (fun _ t => t.Idle) (fun _ t => t.Idle ∧ t.knowndevs = s.knowndevs) s) :
      x.wp False (fun _ t => t.In (s.BringsNew e) 0) (fun _ t => t.Idle ∧ t.knowndevs = s.knowndevs) s := by
    apply h.mono
    · intro _ t ht
      exact ⟨ht.depth, ht.held, fun _ => ht.sound trivial⟩
    · exact fun _ _ h => h
  cases e with
  | adddev devname dev mountable vnode => exact vfsDoadd_in hs (by simp) (by simp) (by simp)
  | addfs devname fs vnode =>
    apply vfsDoadd_in hs _ (by simp) (by simp)
    intro hnew f hf
    exact hnew f (congrArg some (KdFs.fs.inj hf))
  | mount devname result =>
    apply vfsMount_in hs
    intro hnew f hf
    exact hnew f (by rw [hf]; rfl)
  | unmount devname => exact hplain (vfsUnmount_in hs)
  | swapon devname =>
    change (vfsSwapon devname >>= fun _ => pure ()).wp _ _ _ s
    rw [Op.wp_bind]
    exact hplain (vfsSwapon_in hs)
  | swapoff devname => exact hplain (vfsSwapoff_in hs)
  | unmountall => exact hplain (vfsUnmountall_in hs)
  | sync => exact hplain (vfsSync_in hs)
  | getroot devname =>
    change (lockedGetroot _ devname >>= fun _ => pure ()).wp _ _ _ s
    rw [Op.wp_bind]
    exact hplain (lockedGetroot_in hs)

/-- A call returns, and leaves the lock free and, if what it brings is new, the table sound. -/
theorem mountStep_in (volname : ℕ → Option (List UInt8)) (root : ℕ → ℕ) (e : MountEv) (hs : s.Idle) :
    ∃ t, mountStep (scriptOps volname root) s e = some t ∧ (s.BringsNew e → t.Idle) := by
  unfold mountStep Op.after
  obtain ⟨_, t, ht, hin⟩ | ⟨_, t, ht, hin⟩ | ⟨_, hf⟩ := (mountCall_in volname root e hs).cases
  · rw [ht]
    refine ⟨t, rfl, ?_⟩
    intro hnew
    exact ⟨hin.depth, hin.held, fun _ => hin.sound hnew⟩
  · rw [ht]
    exact ⟨t, rfl, fun _ => hin.1⟩
  · exact hf.elim

theorem idle_step (e : MountEv) (hs : s.Idle) (hnew : s.BringsNew e)
    (hst : mountStep (scriptOps volname root) s e = some t) : t.Idle := by
  obtain ⟨u, hu, hidle⟩ := mountStep_in volname root e hs
  rw [hst, Option.some_inj] at hu
  exact hu ▸ hidle hnew

theorem errorKeeps_of_idle (e : MountEv) (hs : s.Idle) : s.ErrorKeeps (scriptOps volname root) e := by
  intro err t ht
  have h := mountCall_in volname root e hs
  rw [Op.wp_of_err ht] at h
  rw [h.2]

theorem exec_isSome (evs : List MountEv) (hs : s.Idle)
    (hnew : AllSteps (mountStep (scriptOps volname root)) Vfs.BringsNew s evs) :
    (exec (mountStep (scriptOps volname root)) s evs).isSome = true := by
  induction evs generalizing s with
  | nil => rfl
  | cons e es ih =>
    obtain ⟨t, ht, hidle⟩ := mountStep_in volname root e hs
    change ((mountStep _ s e).bind _).isSome = true
    rw [ht, Option.bind_some]
    exact ih (hidle (hnew t ht).1) (hnew t ht).2

theorem idle_boot (refcount : ℕ → ℕ) (kmem : List Bool) (results : List (Option Errno)) :
    (Vfs.boot refcount kmem results).Idle := ⟨rfl, rfl, fun _ => sound_empty⟩

theorem sfsSyncFreemap_clean {s : Sfs} {E : Errno → Sfs → Prop} (hE : ∀ e t, E e t) :
    sfsSyncFreemap.wp True (fun _ t => t.freemapdirty = false) E s := by
  unfold sfsSyncFreemap
  rw [Op.wp_bind, Op.wp_get, Op.wp_ite]
  constructor
  · intro _
    rw [Op.wp_bind]
    unfold Op.wp
    cases sfsFreemapioWrite s with
    | ok _ t => rfl
    | err e t => exact hE e t
    | panic => trivial
  · intro hclean
    exact Bool.eq_false_of_not_eq_true hclean

theorem sfsSyncSuperblock_clean {s : SfsSuper} (hs : s.fs.freemapdirty = false) :
    sfsSyncSuperblock.wp True (fun _ t => t.superdirty = false ∧ t.fs.freemapdirty = false) (fun _ _ => True) s := by
  unfold sfsSyncSuperblock
  rw [Op.wp_bind, Op.wp_get, Op.wp_ite]
  constructor
  · intro _
    rw [Op.wp_bind]
    unfold onVolume onDev
    rw [Op.wp_zoom, Op.wp_zoom]
    unfold Op.wp
    cases sfsWriteblock 0 s.sb s.fs.dev with
    | ok _ d => exact ⟨rfl, hs⟩
    | err e d => trivial
    | panic => trivial
  · intro hclean
    exact ⟨Bool.eq_false_of_not_eq_true hclean, hs⟩

/-- `sfs_unmount` is called after an `sfs_sync` that returned 0. -/
theorem sfsUnmount_after_sync {s t : SfsSuper} (h : sfsSyncAll s = .ok () t) : sfsUnmount t ≠ .panic := by
  have hclean : sfsSyncAll.wp True (fun _ t => t.superdirty = false ∧ t.fs.freemapdirty = false) (fun _ _ => True) s := by
    unfold sfsSyncAll
    rw [Op.wp_bind]
    unfold Op.wp
    cases onVolume sfsSyncVnodes s with
    | ok _ u =>
      change Op.wp _ _ _ _ _
      rw [Op.wp_bind]
      unfold onVolume
      rw [Op.wp_zoom]
      apply (sfsSyncFreemap_clean (E := fun _ _ => True) (fun _ _ => trivial)).mono
      · intro _ v hv
        exact sfsSyncSuperblock_clean hv
      · exact fun _ _ h => h
    | err e u => trivial
    | panic => trivial
  rw [Op.wp_of_ok h] at hclean
  have hunmount : sfsUnmount.wp False (fun _ _ => True) (fun _ _ => True) t := by
    unfold sfsUnmount
    rw [Op.wp_bind, Op.wp_get, Op.wp_ite]
    constructor
    · intro _
      trivial
    · intro hnone
      rw [Op.wp_bind]
      apply (Op.wp_kassert_of hclean.1).mpr
      rw [Op.wp_bind]
      apply (Op.wp_kassert_of hclean.2).mpr
      exact (Op.wp_kassert_of (Nat.eq_zero_of_not_pos hnone)).mpr trivial
  intro hpanic
  unfold Op.wp at hunmount
  rw [hpanic] at hunmount
  exact hunmount

end Os161
