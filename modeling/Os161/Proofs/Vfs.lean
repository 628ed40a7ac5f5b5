import Os161.Spec.Vfs

/-! Rules for the steps that the functions of the VFS layer are made of. -/

namespace Os161

variable {ρ α : Type} {s : Vfs ρ} {c : Prop} {E : Errno → Vfs ρ → Prop}

@[simp] theorem wp_callFs {Q : α → Vfs ρ → Prop} (x : Op (FsState ρ) Errno α) :
    (callFs x).wp c Q E s ↔
      x.wp c (fun a t => Q a { s with fs := t }) (fun e t => E e { s with fs := t }) s.fs :=
  Op.wp_zoom ..

@[simp] theorem wp_vfsBiglockAcquire {Q : Unit → Vfs ρ → Prop} : vfsBiglockAcquire.wp c Q E s ↔
    Q () { s with fs := { s.fs with held := true, depth := s.fs.depth + 1 } } := Iff.rfl

theorem wp_vfsBiglockRelease {Q : Unit → Vfs ρ → Prop} : vfsBiglockRelease.wp True Q E s ↔
    (s.fs.held = true → 0 < s.fs.depth →
      Q () { s with fs := { s.fs with held := s.fs.depth - 1 ≠ 0, depth := s.fs.depth - 1 } }) := by
  unfold vfsBiglockRelease
  simp only [Op.wp_bind, Op.wp_get, Op.wp_kassert_true, Op.wp_set]

theorem wp_assertBiglock {Q : Unit → Vfs ρ → Prop} : assertBiglock.wp True Q E s ↔ (s.fs.held = true → Q () s) := by
  unfold assertBiglock
  simp only [Op.wp_bind, Op.wp_get, Op.wp_kassert_true]

/-- Only the part that the file systems share has changed. -/
structure Vfs.SameTables (s t : Vfs ρ) : Prop where
  knowndevs : t.knowndevs = s.knowndevs
  bootfsVnode : t.bootfsVnode = s.bootfsVnode
  cwd : t.cwd = s.cwd

instance : IsPreorder (Vfs ρ) Vfs.SameTables where
  refl _ := ⟨rfl, rfl, rfl⟩
  trans _ _ _ h h' :=
    ⟨h'.knowndevs.trans h.knowndevs, h'.bootfsVnode.trans h.bootfsVnode, h'.cwd.trans h.cwd⟩

theorem keeps_callFs (x : Op (FsState ρ) Errno α) : (callFs x).Keeps Vfs.SameTables := by
  intro s
  rw [wp_callFs]
  unfold Op.wp
  cases x s.fs
  · exact ⟨rfl, rfl, rfl⟩
  · exact ⟨rfl, rfl, rfl⟩
  · trivial

theorem keeps_setRefcount (v n : ℕ) : (setRefcount v n : VfsM ρ Unit).Keeps Vfs.SameTables :=
  Op.keeps_modify fun _ => ⟨rfl, rfl, rfl⟩

theorem keeps_vfsBiglockAcquire : (vfsBiglockAcquire : VfsM ρ Unit).Keeps Vfs.SameTables :=
  Op.keeps_modify fun _ => ⟨rfl, rfl, rfl⟩

theorem keeps_vfsBiglockRelease : (vfsBiglockRelease : VfsM ρ Unit).Keeps Vfs.SameTables := by
  intro s
  rw [wp_vfsBiglockRelease]
  intro _ _
  exact ⟨rfl, rfl, rfl⟩

theorem keeps_assertBiglock : (assertBiglock : VfsM ρ Unit).Keeps Vfs.SameTables :=
  Op.keeps_get.bind fun _ => Op.keeps_kassert _

theorem keeps_returns (r : Except Errno α) : (returns r : VfsM ρ α).Keeps Vfs.SameTables := by
  cases r with
  | error e => exact Op.keeps_fail e
  | ok a => exact Op.keeps_pure a

theorem keeps_vfsKmalloc : (vfsKmalloc : VfsM ρ Unit).Keeps Vfs.SameTables := by
  intro s
  unfold vfsKmalloc
  rw [Op.wp_bind, Op.wp_get]
  cases s.fs.kmem with
  | nil => exact ⟨rfl, rfl, rfl⟩
  | cons okay rest =>
    rw [Op.wp_bind, Op.wp_set, Op.wp_ite]
    exact ⟨fun _ => ⟨rfl, rfl, rfl⟩, fun _ => ⟨rfl, rfl, rfl⟩⟩

theorem keeps_vopIncref (v : ℕ) : (vopIncref v : VfsM ρ Unit).Keeps Vfs.SameTables :=
  Op.keeps_get.bind fun _ => keeps_setRefcount _ _

end Os161
