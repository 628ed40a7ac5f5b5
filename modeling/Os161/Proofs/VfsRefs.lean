import Os161.Proofs.Vfs
import Os161.Spec.VfsRefs

/-! The functions of the VFS layer keep the balance of references, over any file systems
that hand back references as they should. -/

namespace Os161

open Op

variable {ρ α : Type} {ok : α → ℕ → ℤ} {err : ℕ → ℤ}

/-! What the steps add to the references of the callers. -/

theorem adds_callFs {x : Op (FsState ρ) Errno α} (hx : x.Adds FsState.refs ok err) : (callFs x).Adds Vfs.refs ok err := by
  apply hx.zoom
  intro s r
  simp only [Vfs.refs]
  abel

theorem adds_returns {r : Except Errno α} (hok : ∀ a, r = .ok a → ok a = 0) (herr : ∀ e, r = .error e → err = 0) :
    (returns r : VfsM ρ α).Adds Vfs.refs ok err := by
  cases r with
  | ok a => exact adds_pure (hok a rfl)
  | error e => exact adds_fail (herr e rfl)

theorem adds_biglockAcquire : (vfsBiglockAcquire : VfsM ρ Unit).Adds Vfs.refs 0 err :=
  adds_modify fun _ => (add_zero _).symm

theorem adds_biglockRelease : (vfsBiglockRelease : VfsM ρ Unit).Adds Vfs.refs 0 err := by
  intro s
  rw [wp_vfsBiglockRelease]
  intro _ _
  exact (add_zero _).symm

theorem adds_assertBiglock : (assertBiglock : VfsM ρ Unit).Adds Vfs.refs 0 err := by
  intro s
  rw [wp_assertBiglock]
  intro _
  exact (add_zero _).symm

theorem refs_setRefcount (s : FsState ρ) (v n : ℕ) :
    ({ s with refcount := Function.update s.refcount v n } : FsState ρ).refs =
      s.refs + (n - s.refcount v : ℤ) • oneRef v := by
  funext w
  by_cases hw : w = v
  · subst hw
    simp [FsState.refs, oneRef]
  · simp [FsState.refs, oneRef, hw]

theorem setRefcount_wp {s : Vfs ρ} {v n : ℕ} {Q : Unit → Vfs ρ → Prop} {E : Errno → Vfs ρ → Prop}
    (h : ∀ t, t.refs = s.refs + (n - s.fs.refcount v : ℤ) • oneRef v → Q () t) : (setRefcount v n).wp True Q E s := by
  apply h
  simp only [Vfs.refs, refs_setRefcount]
  abel

theorem adds_vopIncref (v : ℕ) : (vopIncref v : VfsM ρ Unit).Adds Vfs.refs (fun _ => oneRef v) err := by
  apply adds_get_bind
  intro s
  apply setRefcount_wp
  intro t ht
  rw [ht]
  simp

/-- A vnode is handed back with a reference of its own. -/
theorem adds_copy (v : ℕ) : (do
    vopIncref v
    pure v : VfsM ρ ℕ).Adds Vfs.refs oneRef 0 := by
  apply (adds_vopIncref v).bind
  intro _
  exact adds_pure (sub_self _)

variable {F : FsOps ρ}

theorem adds_vopDecref (hF : F.HandsBack) (v : ℕ) : (vopDecref F v).Adds Vfs.refs (fun _ => -oneRef v) err := by
  apply adds_get_bind
  intro s
  rw [wp_bind, wp_kassert_true]
  intro hpos
  rw [wp_ite]
  constructor
  · intro hmany
    apply setRefcount_wp
    intro t ht
    rw [ht]
    push_cast [Nat.cast_sub hpos]
    simp
  · intro hone
    rw [wp_bind, wp_attempt, wp_callFs]
    have hrefs (t : FsState ρ) (ht : t.refs = s.fs.refs - oneRef v) :
        ({ s with fs := t } : Vfs ρ).refs = s.refs + -oneRef v := by
      simp only [Vfs.refs, ht]
      abel
    apply (hF.reclaim v s.fs (by omega)).mono
    · intro _ t ht
      exact hrefs t ht
    · intro _ t ht
      exact hrefs t ht

theorem adds_vopDecrefOpt (hF : F.HandsBack) (o : Option ℕ) :
    (vopDecrefOpt F o).Adds Vfs.refs (fun _ => -ownedRef o) err := by
  cases o with
  | none => exact adds_pure neg_zero
  | some v => exact adds_vopDecref hF v

/-- One vnode takes the place of another, which is let go. -/
theorem exchange_wp (hF : F.HandsBack) {s : Vfs ρ} {f : Vfs ρ → Vfs ρ} {o : Option ℕ} {d : Unit → ℕ → ℤ}
    {e : ℕ → ℤ} (hf : (f s).refs = s.refs + ownedRef o + d ()) :
    (do
      Op.modify f
      vopDecrefOpt F o).wp True (fun a t => t.refs = s.refs + d a) (fun _ t => t.refs = s.refs + e) s := by
  have hdecref : (vopDecrefOpt F o).Adds Vfs.refs (fun _ => -ownedRef o) (e - ownedRef o - d ()) := adds_vopDecrefOpt hF o
  rw [wp_bind, wp_modify]
  apply (hdecref (f s)).mono
  · intro _ t ht
    beta_reduce at ht
    rw [ht, hf]
    abel
  · intro _ t ht
    rw [ht, hf]
    abel

/-! `vfslist.c`, `vfscwd.c` and `vfslookup.c` -/

theorem adds_getroot (hF : F.HandsBack) {kd : Knowndev} {devname : List UInt8} {x : VfsM ρ ℕ}
    (hx : kd.getroot F devname = some x) : x.Adds Vfs.refs oneRef 0 := by
  have hitself : (do
      Op.kassert (kd.device ≠ none)
      vopIncref kd.vnode
      pure kd.vnode : VfsM ρ ℕ).Adds Vfs.refs oneRef 0 := by
    apply (adds_kassert _).bind
    intro _
    exact (adds_copy kd.vnode).congr (fun _ => sub_zero _) (sub_zero _)
  unfold Knowndev.getroot at hx
  split at hx
  case h_1 f _ =>
    split_ifs at hx
    · cases hx
      exact adds_callFs (hF.getroot f)
    · cases hx
      exact hitself
  case h_2 =>
    split_ifs at hx
    · cases hx
      exact adds_fail rfl
    · cases hx
      apply (adds_kassert _).bind
      intro _
      exact hitself.congr (fun _ => sub_zero _) (sub_zero _)
    · cases hx
      exact hitself

theorem adds_vfsGetroot (hF : F.HandsBack) (devname : List UInt8) :
    (vfsGetroot F devname).Adds Vfs.refs oneRef 0 := by
  apply adds_assertBiglock.bind
  intro _
  apply adds_get_bind
  intro s
  cases hfind : s.knowndevs.findSome? fun kd => kd.getroot F devname with
  | none => exact (adds_fail rfl).congr (fun _ => sub_zero _) (sub_zero _) s
  | some x =>
    obtain ⟨kd, -, hkd⟩ := List.exists_of_findSome?_eq_some hfind
    exact (adds_getroot hF hkd).congr (fun _ => sub_zero _) (sub_zero _) s

theorem adds_vfsGetcurdir : (vfsGetcurdir : VfsM ρ ℕ).Adds Vfs.refs oneRef 0 := by
  apply adds_get_bind
  intro s
  cases s.cwd with
  | none => exact adds_fail rfl s
  | some v => exact adds_copy v s

theorem adds_vfsSetcurdir (hF : F.HandsBack) (dir : ℕ) : (vfsSetcurdir F dir).Adds Vfs.refs 0 0 := by
  apply (adds_callFs (hF.gettype dir)).bind
  intro vtype
  apply Adds.ite
  · intro _
    exact adds_fail (sub_zero _)
  · intro _
    apply (adds_vopIncref dir).bind
    intro _
    apply adds_get_bind
    intro s
    apply exchange_wp hF
    simp only [Vfs.refs, ownedRef, Pi.zero_apply]
    abel

theorem adds_vfsClearcurdir (hF : F.HandsBack) : (vfsClearcurdir F).Adds Vfs.refs 0 0 := by
  apply adds_get_bind
  intro s
  apply exchange_wp hF
  simp only [Vfs.refs, ownedRef]
  abel

theorem adds_changeBootfs (hF : F.HandsBack) (newvn : Option ℕ) :
    (changeBootfs F newvn).Adds Vfs.refs (fun _ => -ownedRef newvn) err := by
  apply adds_get_bind
  intro s
  apply exchange_wp hF
  simp only [Vfs.refs]
  abel

theorem adds_getdeviceRoot (hF : F.HandsBack) (path : List UInt8) : (getdeviceRoot F path).Adds Vfs.refs oneRef 0 := by
  apply Adds.ite
  · intro _
    apply adds_get_bind
    intro s
    cases s.bootfsVnode with
    | none => exact adds_fail rfl s
    | some v => exact adds_copy v s
  · intro _
    apply adds_vfsGetcurdir.bind
    intro vn
    cases F.vnFs vn with
    | none => exact adds_panic
    | some f =>
      apply (adds_callFs (hF.getroot f)).attempt.bind
      intro result
      apply (adds_vopDecref hF vn).bind
      intro _
      cases result with
      | ok a =>
        apply adds_pure
        simp [sides]
      | error e =>
        apply adds_fail
        simp [sides]

theorem adds_getdevice (hF : F.HandsBack) (path : List UInt8) :
    (getdevice F path).Adds Vfs.refs (fun r => oneRef r.2) 0 := by
  -- each way to a vnode is followed by what is left of the path
  have hrest {x : VfsM ρ ℕ} (hx : x.Adds Vfs.refs oneRef 0) (p : List UInt8) : (do
      let startvn ← x
      pure (p, startvn) : VfsM ρ (List UInt8 × ℕ)).Adds Vfs.refs (fun r => oneRef r.2 - 0) (0 - 0) := by
    simp only [sub_zero]
    apply hx.bind
    intro v
    exact adds_pure (sub_self _)
  apply adds_assertBiglock.bind
  intro _
  split
  · exact hrest adds_vfsGetcurdir _
  · exact hrest (adds_getdeviceRoot hF path) _
  · apply Adds.ite
    · intro _
      exact hrest (adds_vfsGetroot hF _) _
    · intro _
      exact hrest adds_vfsGetcurdir _

theorem adds_lookparentFrom (hF : F.HandsBack) (startvn : ℕ) (path : List UInt8) (buflen : ℕ) :
    (lookparentFrom F startvn path buflen).Adds Vfs.refs (fun r => oneRef r.1) 0 := by
  apply Adds.ite
  · intro _
    exact adds_fail rfl
  · intro _
    exact adds_callFs (hF.lookparent startvn path buflen)

/-- The lock is released on the way out. -/
theorem adds_release_fail {e : Errno} (herr : err = 0) : (do
    vfsBiglockRelease
    Op.fail e : VfsM ρ α).Adds Vfs.refs ok err := by
  apply adds_biglockRelease.bind
  intro _
  exact adds_fail ((sub_zero _).trans herr)

/-- A reference is dropped before the result of an earlier call is returned. -/
theorem adds_decref_returns (hF : F.HandsBack) (v : ℕ) {result : Except Errno α}
    (hok : ∀ a, result = .ok a → ok a = -oneRef v) (herr : ∀ e, result = .error e → err = -oneRef v) : (do
    vopDecref F v
    returns result : VfsM ρ α).Adds Vfs.refs ok err := by
  apply (adds_vopDecref hF v).bind
  intro _
  apply adds_returns
  · intro a ha
    rw [hok a ha, sub_self]
  · intro e he
    rw [herr e he, sub_self]

theorem adds_vfsLookparent (hF : F.HandsBack) (path : List UInt8) (buflen : ℕ) :
    (vfsLookparent F path buflen).Adds Vfs.refs (fun r => oneRef r.1) 0 := by
  apply adds_biglockAcquire.bind
  intro _
  apply (adds_getdevice hF path).attempt.bind
  intro device
  cases device with
  | error e =>
    apply adds_release_fail
    simp [sides]
  | ok r =>
    apply (adds_lookparentFrom hF r.2 r.1 buflen).attempt.bind
    intro result
    apply (adds_vopDecref hF r.2).bind
    intro _
    apply adds_biglockRelease.bind
    intro _
    apply adds_returns
    · rintro a rfl
      simp [sides]
    · rintro e rfl
      simp [sides]

theorem adds_vfsLookup (hF : F.HandsBack) (path : List UInt8) : (vfsLookup F path).Adds Vfs.refs oneRef 0 := by
  apply adds_biglockAcquire.bind
  intro _
  apply (adds_getdevice hF path).attempt.bind
  intro device
  cases device with
  | error e =>
    apply adds_release_fail
    simp [sides]
  | ok r =>
    apply Adds.ite
    · intro _
      apply adds_biglockRelease.bind
      intro _
      apply adds_pure
      simp [sides]
    · intro _
      apply (adds_callFs (hF.lookup r.2 r.1)).attempt.bind
      intro result
      apply (adds_vopDecref hF r.2).bind
      intro _
      apply adds_biglockRelease.bind
      intro _
      apply adds_returns
      · rintro a rfl
        simp [sides]
      · rintro e rfl
        simp [sides]

theorem adds_vfsChdir (hF : F.HandsBack) (path : List UInt8) : (vfsChdir F path).Adds Vfs.refs 0 0 := by
  apply (adds_vfsLookup hF path).bind
  intro vn
  apply (adds_vfsSetcurdir hF vn).attempt.bind
  intro result
  apply adds_decref_returns hF
  · rintro a rfl
    simp [sides]
  · rintro e rfl
    simp [sides]

theorem adds_vfsSetbootfs (hF : F.HandsBack) (fsname : List UInt8) : (vfsSetbootfs F fsname).Adds Vfs.refs 0 0 := by
  apply adds_biglockAcquire.bind
  intro _
  apply Adds.ite
  · intro _
    apply adds_release_fail
    simp
  · intro _
    apply (adds_vfsChdir hF _).attempt.bind
    intro changed
    cases changed with
    | error e =>
      apply adds_release_fail
      simp [sides]
    | ok _ =>
      apply adds_vfsGetcurdir.attempt.bind
      intro got
      cases got with
      | error e =>
        apply adds_release_fail
        simp [sides]
      | ok newguy =>
        apply (adds_changeBootfs hF (some newguy)).bind
        intro _
        apply adds_biglockRelease.congr
        · intro _
          simp [sides, ownedRef]
        · rfl

/-! `vfspath.c` -/

theorem adds_openTruncate (hF : F.HandsBack) (openflags vn : ℕ) : (openTruncate F openflags vn).Adds Vfs.refs 0 0 := by
  apply Adds.ite
  · intro _
    apply Adds.ite
    · intro _
      exact adds_fail rfl
    · intro _
      exact adds_callFs (hF.truncate vn 0)
  · intro _
    exact adds_pure rfl

/-- The reference to a vnode that could not be opened is dropped. -/
theorem adds_openVnode (hF : F.HandsBack) (openflags vn : ℕ) :
    (openVnode F openflags vn).Adds Vfs.refs (fun v => oneRef v - oneRef vn) (-oneRef vn) := by
  have hfail (e : Errno) {d : ℕ → ℕ → ℤ} : (do
      vopDecref F vn
      Op.fail e : VfsM ρ ℕ).Adds Vfs.refs d (-oneRef vn) := by
    apply (adds_vopDecref hF vn).bind
    intro _
    exact adds_fail (sub_self _)
  apply (adds_callFs (hF.eachopen vn openflags)).attempt.bind
  intro opened
  cases opened with
  | error e => exact (hfail e).congr (fun _ => rfl) (sub_zero _)
  | ok _ =>
    apply (adds_openTruncate hF openflags vn).attempt.bind
    intro truncated
    cases truncated with
    | error e =>
      apply (hfail e).congr (fun _ => rfl)
      simp [sides]
    | ok _ =>
      apply adds_pure
      simp [sides]

theorem adds_vfsOpen (hF : F.HandsBack) (path : List UInt8) (openflags mode : ℕ) :
    (vfsOpen F path openflags mode).Adds Vfs.refs oneRef 0 := by
  apply Adds.ite
  · intro _
    exact adds_fail rfl
  · intro _
    apply Adds.ite
    · intro _
      apply (adds_vfsLookparent hF path (nameMax + 1)).bind
      intro r
      apply (adds_callFs (hF.creat r.1 r.2 (openflags.testBit 3) mode)).attempt.bind
      intro result
      apply (adds_vopDecref hF r.1).bind
      intro _
      cases result with
      | error e =>
        apply adds_fail
        simp [sides]
      | ok vn =>
        apply (adds_openVnode hF openflags vn).congr
        · intro v
          simp only [sides]
          abel
        · simp only [sides]
          abel
    · intro _
      apply (adds_vfsLookup hF path).bind
      intro vn
      apply (adds_openVnode hF openflags vn).congr
      · intro v
        rfl
      · exact zero_sub _

theorem adds_inParent (hF : F.HandsBack) (path : List UInt8) {work : ℕ → List UInt8 → Op (FsState ρ) Errno Unit}
    (hwork : ∀ dir name, (work dir name).Adds FsState.refs 0 0) : (inParent F path work).Adds Vfs.refs 0 0 := by
  apply (adds_vfsLookparent hF path (nameMax + 1)).bind
  intro r
  apply (adds_callFs (hwork r.1 r.2)).attempt.bind
  intro result
  apply adds_decref_returns hF
  · rintro a rfl
    simp [sides]
  · rintro e rfl
    simp [sides]

/-- Both references are dropped. -/
theorem adds_inSameFs (hF : F.HandsBack) (old newdir : ℕ) {work : Op (FsState ρ) Errno Unit}
    (hwork : work.Adds FsState.refs 0 0) :
    (inSameFs F old newdir work).Adds Vfs.refs (fun _ => -oneRef old - oneRef newdir) (-oneRef old - oneRef newdir) := by
  apply Adds.ite
  · intro _
    apply (adds_vopDecref hF newdir).bind
    intro _
    apply (adds_vopDecref hF old).bind
    intro _
    apply adds_fail
    simp
  · intro _
    apply (adds_callFs hwork).attempt.bind
    intro result
    apply (adds_vopDecref hF newdir).bind
    intro _
    apply adds_decref_returns hF
    · rintro a rfl
      simp [sides]
    · rintro e rfl
      simp [sides]

theorem adds_vfsRename (hF : F.HandsBack) (oldpath newpath : List UInt8) :
    (vfsRename F oldpath newpath).Adds Vfs.refs 0 0 := by
  apply (adds_vfsLookparent hF oldpath (nameMax + 1)).bind
  intro r
  apply (adds_vfsLookparent hF newpath (nameMax + 1)).attempt.bind
  intro found
  cases found with
  | error e =>
    apply (adds_vopDecref hF r.1).bind
    intro _
    apply adds_fail
    simp [sides]
  | ok r' =>
    apply (adds_inSameFs hF r.1 r'.1 (hF.rename r.1 r.2 r'.1 r'.2)).congr
    · intro _
      simp [sides]
    · simp [sides]

theorem adds_vfsLink (hF : F.HandsBack) (oldpath newpath : List UInt8) :
    (vfsLink F oldpath newpath).Adds Vfs.refs 0 0 := by
  apply (adds_vfsLookup hF oldpath).bind
  intro oldfile
  apply (adds_vfsLookparent hF newpath (nameMax + 1)).attempt.bind
  intro found
  cases found with
  | error e =>
    apply (adds_vopDecref hF oldfile).bind
    intro _
    apply adds_fail
    simp [sides]
  | ok r =>
    apply (adds_inSameFs hF oldfile r.1 (hF.link r.1 r.2 oldfile)).congr
    · intro _
      simp [sides]
    · simp [sides]

theorem FsOps.HandsBack.balanced (hF : F.HandsBack) : F.Balanced where
  lookup := adds_vfsLookup hF
  lookparent := adds_vfsLookparent hF
  opens := adds_vfsOpen hF
  remove path := adds_inParent hF path hF.remove
  rename := adds_vfsRename hF
  link := adds_vfsLink hF
  chdir := adds_vfsChdir hF
  setcurdir := adds_vfsSetcurdir hF
  clearcurdir := adds_vfsClearcurdir hF
  setbootfs := adds_vfsSetbootfs hF

end Os161
