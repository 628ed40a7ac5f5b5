import Os161.Spec.Getdevice

/-! The loops of `getdevice` find what the syntax of paths speaks of: the first colon or
slash, and the end of a run of slashes. -/

namespace Os161

variable {ρ : Type} {s : PathCall ρ}

theorem readPath_run {i : ℕ} {c : UInt8} (h : s.path[i]? = some c) : readPath i s = .ok c s := by
  simp only [readPath, bind, Op.get, h]
  rfl

/-- What the loop finds in the rest `l` of the path, `i` bytes behind its beginning. -/
def firstOf (i : ℕ) : List UInt8 → ℤ × ℤ
  | [] => (-1, -1)
  | c :: l => if c = 58 then (i, -1) else if c = 47 then (-1, i) else firstOf (i + 1) l

theorem findFirst_run (pre l : List UInt8) (turns : ℕ) (hpath : s.path = pre ++ l ++ [0]) (hl : 0 ∉ l)
    (hturns : l.length < turns) : findFirst turns pre.length s = .ok (firstOf pre.length l) s := by
  induction l generalizing pre turns with
  | nil =>
    obtain ⟨turns, rfl⟩ : ∃ k, turns = k + 1 := ⟨turns - 1, by omega⟩
    have hread : readPath pre.length s = .ok 0 s := readPath_run (by simp [hpath])
    simp [findFirst, bind, hread, firstOf, pure]
  | cons c l ih =>
    obtain ⟨turns, rfl⟩ : ∃ k, turns = k + 1 := ⟨turns - 1, by omega⟩
    have hread : readPath pre.length s = .ok c s := readPath_run (by simp [hpath])
    have hc : c ≠ 0 := fun h => hl (by simp [h])
    have hrest := ih (pre ++ [c]) turns (by simp [hpath]) (fun h => hl (by simp [h]))
      (by simpa using hturns)
    simp only [List.length_append, List.length_singleton] at hrest
    simp only [findFirst, bind, hread, firstOf, if_neg hc]
    split_ifs
    · rfl
    · rfl
    · exact hrest

/-- The run of slashes behind position `p`. -/
theorem bumpSlashes_run (pre : List UInt8) (c : UInt8) (l : List UInt8) (turns : ℕ) (hpath : s.path = pre ++ c :: l ++ [0])
    (hturns : l.length < turns) :
    bumpSlashes turns pre.length s = .ok (pre.length + (l.takeWhile (· = 47)).length) s := by
  induction l generalizing pre c turns with
  | nil =>
    obtain ⟨turns, rfl⟩ : ∃ k, turns = k + 1 := ⟨turns - 1, by omega⟩
    have hread : readPath (pre.length + 1) s = .ok 0 s := readPath_run (by simp [hpath])
    simp [bumpSlashes, bind, hread, pure]
  | cons d l ih =>
    obtain ⟨turns, rfl⟩ : ∃ k, turns = k + 1 := ⟨turns - 1, by omega⟩
    have hread : readPath (pre.length + 1) s = .ok d s := readPath_run (by simp [hpath])
    simp only [bumpSlashes, bind, hread]
    split_ifs with hd
    · have hrest := ih (pre ++ [c]) d turns (by simp [hpath]) (by simpa using hturns)
      rw [List.length_append, List.length_singleton] at hrest
      rw [hrest]
      simp [hd]
      omega
    · simp [hd, pure]

/-- Neither a colon nor a slash. -/
def Plain (l : List UInt8) : Prop := ∀ c ∈ l, c ≠ 58 ∧ c ≠ 47

theorem plain_or_split (path : List UInt8) :
    Plain path ∨ ∃ a c b, path = a ++ c :: b ∧ Plain a ∧ (c = 58 ∨ c = 47) := by
  induction path with
  | nil => exact Or.inl fun c hc => absurd hc List.not_mem_nil
  | cons d path ih =>
    by_cases hd : d = 58 ∨ d = 47
    · exact Or.inr ⟨[], d, path, rfl, fun c hc => absurd hc List.not_mem_nil, hd⟩
    · have hcons : ∀ l, Plain l → Plain (d :: l) := fun l hl c hc => by
        rcases List.mem_cons.mp hc with rfl | hc
        · exact not_or.mp hd
        · exact hl c hc
      rcases ih with hplain | ⟨a, c, b, rfl, ha, hc⟩
      · exact Or.inl (hcons path hplain)
      · exact Or.inr ⟨d :: a, c, b, rfl, hcons a ha, hc⟩

theorem firstOf_append {a : List UInt8} (ha : Plain a) (i : ℕ) (b : List UInt8) :
    firstOf i (a ++ b) = firstOf (i + a.length) b := by
  induction a generalizing i with
  | nil => rfl
  | cons c a ih =>
    obtain ⟨hcolon, hslash⟩ := ha c List.mem_cons_self
    rw [List.cons_append, firstOf, if_neg hcolon, if_neg hslash, ih (fun x hx => ha x (List.mem_cons_of_mem c hx))]
    rw [List.length_cons]
    congr 1
    omega

theorem pathStart_plain {path : List UInt8} (h : Plain path) : pathStart path = .relative := by
  have hnone : path.findIdx? (fun c => c = 58 ∨ c = 47) = none := by
    refine List.findIdx?_eq_none_iff.mpr fun c hc => ?_
    simpa using h c hc
  simp only [pathStart, hnone]

theorem findIdx?_split {a b : List UInt8} {c : UInt8} (ha : Plain a) (hc : c = 58 ∨ c = 47) :
    (a ++ c :: b).findIdx? (fun c => c = 58 ∨ c = 47) = some a.length := by
  refine List.findIdx?_eq_some_iff_getElem.mpr ⟨by simp, by simpa using hc, fun j hj => ?_⟩
  have hmem : a[j] ∈ a := List.getElem_mem hj
  rw [List.getElem_append_left hj]
  simpa using ha _ hmem

theorem pathStart_split {a b : List UInt8} {c : UInt8} (ha : Plain a) (hc : c = 58 ∨ c = 47) :
    pathStart (a ++ c :: b) =
      if c = 58 then (if a = [] then .current else .device a) else if a = [] then .boot else .relative := by
  have hat : (a ++ c :: b)[a.length]? = some c := by simp
  simp only [pathStart, findIdx?_split ha hc, hat, Option.some.injEq, List.length_eq_zero_iff, List.take_left]

theorem onVfs_run {α : Type} (x : VfsM ρ α) (v : Vfs ρ) (path : List UInt8) :
    onVfs x ⟨v, path⟩ = (x v).map fun t => ⟨t, path⟩ := by
  simp only [onVfs, Op.zoom]
  cases x v <;> rfl

theorem assertBiglock_run (v : Vfs ρ) : assertBiglock v = if v.fs.held = true then .ok () v else .panic := by
  simp only [assertBiglock, bind, Op.get, Op.kassert]
  split_ifs <;> rfl

variable (F : FsOps ρ) (v : Vfs ρ)

/-- The vnode is looked up with the buffer as it is by then. -/
theorem onVfs_at {α β : Type} (x : VfsM ρ α) (g : α → β) (path : List UInt8) :
    (do let a ← onVfs x; pure (g a) : PathM ρ β) ⟨v, path⟩ =
      ((do let a ← x; pure (g a) : VfsM ρ β) v).map fun t => ⟨t, path⟩ := by
  simp only [bind, onVfs_run]
  cases x v <;> rfl

variable {F v} {path : List UInt8} {colon slash : ℤ} {k : ℕ}

/-- Behind the loop the rest of the call is to agree with the syntax. -/
theorem splitsPath_of_from (hnul : 0 ∉ path) (hfirst : firstOf 0 path = (colon, slash))
    (hk : (markedPath path ++ [0]).drop k = subpath path ++ [0])
    (hfrom : getdeviceFrom F colon slash ⟨v, path ++ [0]⟩ =
      ((do let startvn ← (pathStart path).vnode F; pure (k, startvn) : VfsM ρ (ℕ × ℕ)) v).map
        fun t => ⟨t, markedPath path ++ [0]⟩) : SplitsPath F v path := by
  refine ⟨k, hk, ?_⟩
  have hloop : findFirst (path ++ [0]).length 0 (⟨v, path ++ [0]⟩ : PathCall ρ) =
      .ok (colon, slash) ⟨v, path ++ [0]⟩ := by
    rw [← hfirst]
    exact findFirst_run [] path _ rfl hnul (by simp)
  by_cases hheld : v.fs.held = true
  · rewrite [getdeviceScan]
    simp only [bind, onVfs_run, assertBiglock_run, if_pos hheld, Res.map, Op.get, hloop]
    exact hfrom
  · rewrite [getdeviceScan]
    simp only [bind, onVfs_run, assertBiglock_run, if_neg hheld, Res.map]

theorem getdeviceFrom_relative (hcolon : colon < 0) (hslash : slash ≠ 0) :
    getdeviceFrom F colon slash ⟨v, path⟩ =
      ((do let startvn ← vfsGetcurdir; pure (0, startvn) : VfsM ρ (ℕ × ℕ)) v).map fun t => ⟨t, path⟩ := by
  rw [← onVfs_at, getdeviceFrom]
  simp only [if_pos (And.intro hcolon hslash)]
  rfl

theorem getdeviceFrom_device (a b : List UInt8) (ha : a ≠ []) (hnul : 0 ∉ a) (k : ℕ)
    (hk : k = a.length + (b.takeWhile (· = 47)).length + 1) :
    getdeviceFrom F a.length (-1) ⟨v, a ++ 58 :: b ++ [0]⟩ =
      ((do let startvn ← vfsGetroot F a; pure (k, startvn) : VfsM ρ (ℕ × ℕ)) v).map
        fun t => ⟨t, a ++ 0 :: b ++ [0]⟩ := by
  have hpos : (0 : ℤ) < a.length := by
    exact_mod_cast List.length_pos_of_ne_nil ha
  have hset : (a ++ 58 :: b ++ [0]).set a.length 0 = a ++ 0 :: b ++ [0] := by simp
  have hname : (a ++ 0 :: b ++ [0]).takeWhile (· ≠ 0) = a := by
    rw [List.append_assoc, List.takeWhile_append_of_pos (fun c hc => by simpa using ne_of_mem_of_not_mem hc hnul)]
    simp
  have hbump := bumpSlashes_run (s := (⟨v, a ++ 0 :: b ++ [0]⟩ : PathCall ρ)) a 0 b (a ++ 58 :: b ++ [0]).length rfl
    (by simp; omega)
  have hnot : ¬ ((a.length : ℤ) < 0 ∧ (-1 : ℤ) ≠ 0) := fun h => absurd h.1 (by omega)
  rw [← onVfs_at, getdeviceFrom]
  simp only [if_neg hnot, if_pos hpos]
  simp only [bind, Op.get, Op.modify, Int.toNat_natCast, hset, hbump, hname, hk]

/-- The last two lines of the call, behind the choice of `startvn`. -/
theorem onVfs_bump (x : VfsM ρ ℕ) (c : UInt8) (b : List UInt8) :
    (do let startvn ← onVfs x
        let p ← bumpSlashes (c :: b ++ [0]).length 0
        pure (p + 1, startvn) : PathM ρ (ℕ × ℕ)) ⟨v, c :: b ++ [0]⟩ =
      ((do let startvn ← x; pure ((b.takeWhile (· = 47)).length + 1, startvn) : VfsM ρ (ℕ × ℕ)) v).map
        fun t => ⟨t, c :: b ++ [0]⟩ := by
  have hbump : ∀ t : Vfs ρ, bumpSlashes (c :: b ++ [0]).length 0 (⟨t, c :: b ++ [0]⟩ : PathCall ρ) =
      .ok (b.takeWhile (· = 47)).length ⟨t, c :: b ++ [0]⟩ := fun t => by
    have h := bumpSlashes_run (s := (⟨t, c :: b ++ [0]⟩ : PathCall ρ)) [] c b (c :: b ++ [0]).length rfl (by simp)
    simpa using h
  simp only [bind, onVfs_run]
  cases x v with
  | ok a t => simp only [Res.map, hbump, pure]
  | err e t => rfl
  | panic => rfl

theorem getdeviceFrom_boot (b : List UInt8) :
    getdeviceFrom F (-1) 0 ⟨v, 47 :: b ++ [0]⟩ =
      ((do let startvn ← bootRoot; pure ((b.takeWhile (· = 47)).length + 1, startvn) : VfsM ρ (ℕ × ℕ)) v).map
        fun t => ⟨t, 47 :: b ++ [0]⟩ := by
  rewrite [← onVfs_bump, getdeviceFrom]
  rfl

theorem getdeviceFrom_current (b : List UInt8) :
    getdeviceFrom F 0 (-1) ⟨v, 58 :: b ++ [0]⟩ =
      ((do let startvn ← currentRoot F; pure ((b.takeWhile (· = 47)).length + 1, startvn) : VfsM ρ (ℕ × ℕ)) v).map
        fun t => ⟨t, 58 :: b ++ [0]⟩ := by
  rewrite [← onVfs_bump, getdeviceFrom]
  rfl

theorem drop_slashes (b : List UInt8) :
    (b ++ [0]).drop (b.takeWhile (· = 47)).length = b.dropWhile (· = 47) ++ [0] := by
  have hb : b = b.takeWhile (· = 47) ++ b.dropWhile (· = 47) := List.takeWhile_append_dropWhile.symm
  have h : (b.takeWhile (· = 47) ++ (b.dropWhile (· = 47) ++ [0])).drop (b.takeWhile (· = 47)).length =
      b.dropWhile (· = 47) ++ [0] := List.drop_left
  rwa [← List.append_assoc, ← hb] at h

theorem splitsPath_relative (hnul : 0 ∉ path) (hstart : pathStart path = .relative)
    (hfirst : firstOf 0 path = (-1, slash)) (hslash : slash ≠ 0) : SplitsPath F v path := by
  have hmarked : markedPath path = path := by simp only [markedPath, hstart]
  have hsub : subpath path = path := by simp only [subpath, hstart]
  refine splitsPath_of_from (k := 0) hnul hfirst ?_ ?_
  · rw [hmarked, hsub, List.drop_zero]
  · rewrite [hmarked, hstart]
    exact getdeviceFrom_relative (by decide) hslash

theorem splitsPath_root {c : UInt8} {b : List UInt8} (hnul : 0 ∉ c :: b) (hc : c = 58 ∨ c = 47) :
    SplitsPath F v (c :: b) := by
  have hstart : pathStart (c :: b) = if c = 58 then .current else .boot :=
    pathStart_split (fun d hd => absurd hd List.not_mem_nil) hc
  have hmarked : markedPath (c :: b) = c :: b := by
    rcases hc with rfl | rfl <;> rewrite [markedPath, hstart] <;> rfl
  have hsub : subpath (c :: b) = b.dropWhile (· = 47) := by
    rcases hc with rfl | rfl <;> rewrite [subpath, hstart] <;> rfl
  have hk : (markedPath (c :: b) ++ [0]).drop ((b.takeWhile (· = 47)).length + 1) = subpath (c :: b) ++ [0] := by
    rewrite [hmarked, hsub]
    exact drop_slashes b
  rcases hc with rfl | rfl
  · refine splitsPath_of_from hnul rfl hk ?_
    rewrite [hmarked, hstart]
    exact getdeviceFrom_current b
  · refine splitsPath_of_from hnul rfl hk ?_
    rewrite [hmarked, hstart]
    exact getdeviceFrom_boot b

theorem splitsPath_device {a b : List UInt8} (hnul : 0 ∉ a ++ 58 :: b) (ha : Plain a) (hne : a ≠ []) :
    SplitsPath F v (a ++ 58 :: b) := by
  have hstart : pathStart (a ++ 58 :: b) = .device a := by
    rw [pathStart_split ha (Or.inl rfl), if_pos rfl, if_neg hne]
  have hmarked : markedPath (a ++ 58 :: b) = a ++ 0 :: b := by simp [markedPath, hstart]
  have hsub : subpath (a ++ 58 :: b) = b.dropWhile (· = 47) := by simp [subpath, hstart]
  have hfirst : firstOf 0 (a ++ 58 :: b) = ((a.length : ℤ), -1) := by
    rw [firstOf_append ha, Nat.zero_add, firstOf, if_pos rfl]
  refine splitsPath_of_from (k := a.length + (b.takeWhile (· = 47)).length + 1) hnul hfirst ?_ ?_
  · rw [hmarked, hsub, ← drop_slashes, List.append_assoc, List.cons_append, Nat.add_assoc, ← List.drop_drop,
      List.drop_left, List.drop_succ_cons]
  · rewrite [hmarked, hstart]
    exact getdeviceFrom_device a b hne (fun h => hnul (List.mem_append_left _ h)) _ rfl

/-- The call on lists that the rest of the name translation is written with has the same
syntax of paths. -/
theorem getdevice_eq (path : List UInt8) :
    getdevice F path = (do
      assertBiglock
      let startvn ← (pathStart path).vnode F
      pure (subpath path, startvn) : VfsM ρ (List UInt8 × ℕ)) := by
  rcases plain_or_split path with hplain | ⟨a, c, b, rfl, ha, hc⟩
  · have hstart := pathStart_plain hplain
    have hnone : path.findIdx? (fun c => c = 58 ∨ c = 47) = none := by
      refine List.findIdx?_eq_none_iff.mpr fun c hc => ?_
      simpa using hplain c hc
    simp only [getdevice, hnone, subpath, hstart, PathStart.vnode]
  · have hstart := pathStart_split (b := b) ha hc
    simp only [getdevice, findIdx?_split ha hc]
    cases a with
    | nil =>
      rcases hc with rfl | rfl
      · simp only [subpath, hstart]
        rfl
      · simp only [subpath, hstart]
        rfl
    | cons d a =>
      have hat : (d :: a ++ c :: b)[a.length + 1]? = some c := by simp
      have htake : (d :: a ++ c :: b).take (a.length + 1) = d :: a := by simp
      have hne : d :: a ≠ [] := List.cons_ne_nil d a
      simp only [List.length_cons, hat, htake, subpath, hstart, if_neg hne, skipSlashes]
      rcases hc with rfl | rfl
      · simp only [if_true, PathStart.vnode, List.length_cons]
      · simp only [Option.some.injEq, if_neg (show (47 : UInt8) ≠ 58 by decide), PathStart.vnode]

/-- `getdevice` splits every path as the syntax of paths says. -/
theorem getdevice_splits (F : FsOps ρ) (v : Vfs ρ) (path : CStr) : SplitsPath F v path.chars := by
  have hnul := path.noNul
  rcases plain_or_split path.chars with hplain | ⟨a, c, b, hsplit, ha, hc⟩
  · have hfirst := firstOf_append hplain 0 []
    rw [List.append_nil] at hfirst
    exact splitsPath_relative hnul (pathStart_plain hplain) hfirst (by decide)
  · rw [hsplit] at hnul ⊢
    by_cases hne : a = []
    · subst hne
      exact splitsPath_root hnul hc
    · rcases hc with rfl | rfl
      · exact splitsPath_device hnul ha hne
      · -- The first one is a slash, and not the first character.
        have hstart : pathStart (a ++ 47 :: b) = .relative := by
          rw [pathStart_split ha (Or.inr rfl), if_neg (by decide), if_neg hne]
        have hfirst : firstOf 0 (a ++ 47 :: b) = (-1, (a.length : ℤ)) := by
          rw [firstOf_append ha, Nat.zero_add, firstOf, if_neg (by decide), if_pos rfl]
        exact splitsPath_relative hnul hstart hfirst (by simpa using hne)

end Os161
