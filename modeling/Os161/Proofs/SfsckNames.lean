import Os161.Spec.SfsckPasses
import Os161.Proofs.Qsort
import Os161.Proofs.Dinode

/-! The check for duplicate names in pass 2 of `sfsck`. In the sorted order the entries of one
name are next to each other, and all of them but the last are removed or renamed; a name that
is made up may be there already. -/

namespace Os161

namespace Fsck

open Op

variable {s t : Fsck} {c : Prop} {E : FsckExit → Fsck → Prop} {d : List Direntry} {a b id : ℕ} {v : List ℕ}

/-! ### Names that are made up -/

/-- The number that digits stand for. -/
def digitsValue (l : List UInt8) : ℕ := l.foldl (fun n c => n * 10 + (c.toNat - 48)) 0

theorem digitsValue_concat (l : List UInt8) (c : UInt8) : digitsValue (l ++ [c]) = digitsValue l * 10 + (c.toNat - 48) := by
  simp [digitsValue]

theorem digitsValue_decimalDigits (places n : ℕ) (h : n < 10 ^ places) : digitsValue (decimalDigits places n) = n := by
  induction places generalizing n with
  | zero =>
    rw [Nat.pow_zero] at h
    rw [show n = 0 by omega]
    rfl
  | succ places ih =>
    rw [Nat.pow_succ] at h
    have hdigit : (UInt8.ofNat (48 + n % 10)).toNat - 48 = n % 10 := by
      rw [UInt8.toNat_ofNat']
      omega
    rw [decimalDigits, digitsValue_concat, hdigit]
    by_cases hn : n < 10
    · rw [if_pos hn]
      change 0 * 10 + _ = n
      omega
    · rw [if_neg hn, ih (n / 10) (by omega)]
      omega

theorem decimal_injective {m n : ℕ} (hm : m < 4294967296) (hn : n < 4294967296) (h : decimal m = decimal n) : m = n := by
  rw [← digitsValue_decimalDigits 10 m (by omega), ← digitsValue_decimalDigits 10 n (by omega)]
  exact congrArg digitsValue h

theorem decimalDigits_range (places n : ℕ) : ∀ c ∈ decimalDigits places n, 48 ≤ c.toNat := by
  induction places generalizing n with
  | zero => exact fun c hc => absurd hc (by simp [decimalDigits])
  | succ places ih =>
    intro c hc
    rw [decimalDigits, List.mem_append, List.mem_singleton] at hc
    rcases hc with hc | rfl
    · by_cases hn : n < 10
      · rw [if_pos hn] at hc
        exact absurd hc (by simp)
      · rw [if_neg hn] at hc
        exact ih _ c hc
    · rw [UInt8.toNat_ofNat']
      omega

theorem not_mem_decimal {c : UInt8} (hc : c.toNat < 48) (n : ℕ) : c ∉ decimal n := fun hmem =>
  absurd (decimalDigits_range 10 n c hmem) (by omega)

/-- The number at its end tells made up names apart. -/
theorem fsckName_id {ino ino' id' : ℕ} (hid : id < 4294967296) (hid' : id' < 4294967296)
    (h : fsckName ino id = fsckName ino' id') : id = id' := by
  have hdot : ∀ n, (46 : UInt8) ∉ decimal n := not_mem_decimal (by decide)
  unfold fsckName at h
  rw [List.append_assoc, List.append_assoc, List.append_assoc, List.append_assoc, List.append_cancel_left_eq,
    List.singleton_append, List.singleton_append, List.append_cons_inj_of_notMem (hdot _) (hdot _)] at h
  exact decimal_injective hid hid' h.2.2

theorem zero_notMem_fsckName (ino id : ℕ) : (0 : UInt8) ∉ fsckName ino id := by
  have hzero : ∀ n, (0 : UInt8) ∉ decimal n := not_mem_decimal (by decide)
  simp [fsckName, hzero]

theorem takeWhile_append_zero {l : List UInt8} (h : (0 : UInt8) ∉ l) (m : List UInt8) :
    (l ++ 0 :: m).takeWhile (· ≠ 0) = l := by
  rw [List.takeWhile_append_of_pos (by
    intro c hc
    exact decide_eq_true (fun hz => h (hz ▸ hc)))]
  simp

theorem cname_putName (ino : ℕ) (name : List UInt8) {str : List UInt8} (h : (0 : UInt8) ∉ str) :
    cname ⟨ino, putName name str⟩ = str := by
  rw [cname, putName, List.append_assoc, List.singleton_append, takeWhile_append_zero h]

/-! ### Entries in memory -/

theorem entryAt_get? (ha : a < d.length) : d[a]? = some (entryAt d a) := by
  rw [entryAt, List.getD_eq_getElem?_getD, List.getElem?_eq_getElem ha, Option.getD_some]

theorem entryAt_set (ha : a < d.length) (e : Direntry) (b : ℕ) : entryAt (d.set a e) b = if b = a then e else entryAt d b := by
  rw [entryAt, List.getD_eq_getElem?_getD, List.getElem?_set]
  by_cases hb : b = a
  · rw [if_pos hb.symm, if_pos ha, if_pos hb, Option.getD_some]
  · rw [if_neg (Ne.symm hb), if_neg hb, ← List.getD_eq_getElem?_getD, entryAt]

theorem dirEntry_wp (ha : a < d.length) {Q : Direntry → Fsck → Prop} (hQ : Q (entryAt d a) s) :
    (dirEntry d a).wp c Q E s := by
  unfold dirEntry
  rw [entryAt_get? ha]
  exact hQ

/-- The string of an entry whose name has a null. -/
theorem str_eq_cname (behind : List UInt8) (ha : a < d.length) (hnull : 0 ∈ (entryAt d a).name) :
    Direntry.str behind d a = cname (entryAt d a) := by
  have hget : d[a] = entryAt d a := by
    rw [← Option.some_inj, ← entryAt_get? ha, List.getElem?_eq_getElem ha]
  obtain ⟨l, m, hname, hl⟩ := List.eq_append_cons_of_mem hnull
  unfold Direntry.str cname
  rw [List.drop_eq_getElem_cons ha, hget, List.flatMap_cons, Direntry.bytes, hname, takeWhile_append_zero hl]
  have hfour : (toBe 4 (entryAt d a).ino).length = 4 := length_toBe ..
  simp only [List.append_assoc, List.cons_append]
  rw [List.drop_left' hfour, takeWhile_append_zero hl]

/-! ### What is left of two neighbours -/

/-- The neighbours `a` and `b` have one name and different inodes. -/
abbrev Clash (d : List Direntry) (a b : ℕ) : Prop :=
  SameName (entryAt d a) (entryAt d b) ∧ (entryAt d a).ino ≠ (entryAt d b).ino

/-- Entry `a` after it has been compared with `b`. -/
def mergedEntry (d : List Direntry) (id a b : ℕ) : Direntry :=
  if SameName (entryAt d a) (entryAt d b) then
    if (entryAt d a).ino = (entryAt d b).ino then (entryAt d a).cleared
    else ⟨(entryAt d a).ino, putName (entryAt d a).name (fsckName (entryAt d a).ino id)⟩
  else entryAt d a

def nextId (d : List Direntry) (id a b : ℕ) : ℕ := if Clash d a b then (id + 1) % 4294967296 else id

/-- The entries `v` after the check, in this order. -/
def resolved (d : List Direntry) (id : ℕ) : List ℕ → List Direntry
  | [] => []
  | [a] => [entryAt d a]
  | a :: b :: v => mergedEntry d id a b :: resolved d (nextId d id a b) (b :: v)

theorem mergePair_wp {r : Entries} (hd : Terminated d) (hlen : r.d.length = d.length) (ha : a < d.length) (hb : b < d.length)
    (hab : a ≠ b) (hra : entryAt r.d a = entryAt d a) (hrb : entryAt r.d b = entryAt d b) {Q : Entries → Fsck → Prop}
    (hQ : ∀ r' t, r'.d.length = d.length → (∀ i, entryAt r'.d i = if i = a then mergedEntry d s.uniquecounter a b else entryAt r.d i) →
      t.uniquecounter = nextId d s.uniquecounter a b → Q r' t) :
    (mergePair r (a, b)).wp c Q E s := by
  have hset : ∀ e i, entryAt (r.d.set a e) i = if i = a then e else entryAt r.d i := entryAt_set (hlen ▸ ha)
  have hlenset : ∀ e, (r.d.set a e).length = d.length := fun e => by rw [List.length_set, hlen]
  unfold mergePair
  rw [wp_bind, wp_get, wp_bind]
  apply dirEntry_wp (hlen ▸ ha)
  rw [wp_bind]
  apply dirEntry_wp (hlen ▸ hb)
  rw [wp_bind, wp_kassert_of hab, hra, hrb, wp_ite]
  constructor
  · intro hzero
    have hno : ¬ SameName (entryAt d a) (entryAt d b) := fun h => hzero.elim h.1 h.2.1
    refine hQ r s hlen (fun i => ?_) ?_
    · rw [mergedEntry, if_neg hno]
      split_ifs with hi
      · rw [hi, hra]
      · rfl
    · rw [nextId, if_neg fun h => hno h.1]
  · intro hlive
    rw [not_or] at hlive
    rw [str_eq_cname _ (hlen ▸ ha) (hra ▸ hd a ha hlive.1), str_eq_cname _ (hlen ▸ hb) (hrb ▸ hd b hb hlive.2), hra, hrb, wp_ite]
    constructor
    · intro hname
      have hsame : SameName (entryAt d a) (entryAt d b) := ⟨hlive.1, hlive.2, hname⟩
      rw [wp_ite]
      constructor
      · intro hino
        rw [wp_bind]
        refine hQ _ _ (hlenset _) (fun i => ?_) ?_
        · rw [hset, mergedEntry, if_pos hsame, if_pos hino]
        · rw [nextId, if_neg fun h => h.2 hino]
      · intro hino
        rw [wp_bind, uniqueid, wp_bind, wp_get, wp_bind, wp_set, wp_pure, wp_bind]
        refine hQ _ _ (hlenset _) (fun i => ?_) ?_
        · rw [hset, mergedEntry, if_pos hsame, if_neg hino]
        · rw [nextId, if_pos ⟨hsame, hino⟩]
    · intro hname
      have hno : ¬ SameName (entryAt d a) (entryAt d b) := fun h => hname h.2.2
      refine hQ r s hlen (fun i => ?_) ?_
      · rw [mergedEntry, if_neg hno]
        split_ifs with hi
        · rw [hi, hra]
        · rfl
      · rw [nextId, if_neg fun h => hno h.1]

/-- All neighbours of the order `v`. Each comparison finds its two entries as they were: an
entry is changed only when it is the first of the two. -/
theorem mergePairs_wp (hd : Terminated d) (v : List ℕ) (hv : v.Nodup) (hin : ∀ i ∈ v, i < d.length) {r : Entries}
    (hlen : r.d.length = d.length) (hr : ∀ i ∈ v, entryAt r.d i = entryAt d i) {Q : Entries → Fsck → Prop}
    (hQ : ∀ r' t, v.map (entryAt r'.d) = resolved d s.uniquecounter v → (∀ i ∉ v, entryAt r'.d i = entryAt r.d i) → Q r' t) :
    ((v.zip v.tail).foldlM mergePair r).wp c Q E s := by
  induction v generalizing r s Q with
  | nil => exact hQ r s rfl fun _ _ => rfl
  | cons a v ih =>
    cases v with
    | nil =>
      refine hQ r s ?_ fun _ _ => rfl
      rw [List.map_singleton, hr a (by simp), resolved]
    | cons b v =>
      rw [List.nodup_cons] at hv
      have hab : a ≠ b := fun h => hv.1 (by simp [h])
      rw [List.tail_cons, List.zip_cons_cons, List.foldlM_cons, wp_bind]
      refine mergePair_wp hd hlen (hin a (by simp)) (hin b (by simp)) hab (hr a (by simp)) (hr b (by simp))
        fun r' t hlen' hset hid => ?_
      refine ih hv.2 (fun i hi => hin i (List.mem_cons_of_mem _ hi)) hlen' (fun i hi => ?_) fun r'' u hmap hrest => ?_
      · rw [hset, if_neg (ne_of_mem_of_not_mem hi hv.1)]
        exact hr i (List.mem_cons_of_mem _ hi)
      · refine hQ r'' u ?_ fun i hi => ?_
        · rw [List.map_cons, hmap, hrest a hv.1, hset, if_pos rfl, hid, resolved]
        · rw [List.mem_cons, not_or] at hi
          rw [hrest i hi.2, hset, if_neg hi.1]

/-! ### The order -/

theorem strcmp_eq_zero {l m : List UInt8} : strcmp l m = 0 ↔ l = m := by
  induction l generalizing m with
  | nil => cases m <;> simp [strcmp]
  | cons x l ih =>
    cases m with
    | nil => simp [strcmp]
    | cons y m =>
      rw [strcmp]
      by_cases hxy : x = y
      · rw [if_pos hxy, ih, hxy, List.cons.injEq, eq_self, true_and]
      · rw [if_neg hxy, List.cons.injEq]
        split_ifs <;> simp [hxy]

theorem strcmp_neg (l m : List UInt8) : strcmp m l = -strcmp l m := by
  induction l generalizing m with
  | nil => cases m <;> rfl
  | cons x l ih =>
    cases m with
    | nil => rfl
    | cons y m =>
      rw [strcmp, strcmp, ih]
      by_cases hxy : x = y
      · rw [if_pos hxy, if_pos hxy.symm]
      · rw [if_neg hxy, if_neg (Ne.symm hxy)]
        have hne : x.toNat ≠ y.toNat := fun h => hxy (UInt8.toNat_inj.mp h)
        simp only [UInt8.lt_iff_toNat_lt]
        split_ifs <;> omega

theorem strcmp_cons_le {x y : UInt8} {l m : List UInt8} :
    strcmp (x :: l) (y :: m) ≤ 0 ↔ x.toNat < y.toNat ∨ x = y ∧ strcmp l m ≤ 0 := by
  rw [strcmp]
  by_cases hxy : x = y
  · simp [hxy]
  · have hne : x.toNat ≠ y.toNat := fun h => hxy (UInt8.toNat_inj.mp h)
    rw [if_neg hxy]
    simp only [UInt8.lt_iff_toNat_lt, hxy, false_and, or_false]
    split_ifs <;> omega

theorem strcmp_trans {l m n : List UInt8} (h : strcmp l m ≤ 0) (h' : strcmp m n ≤ 0) : strcmp l n ≤ 0 := by
  induction l generalizing m n with
  | nil => cases n <;> simp [strcmp]
  | cons x l ih =>
    cases m with
    | nil => exact absurd h (by simp [strcmp])
    | cons y m =>
      cases n with
      | nil => exact absurd h' (by simp [strcmp])
      | cons z n =>
        rw [strcmp_cons_le] at h h' ⊢
        rcases h with hxy | ⟨rfl, h⟩
        · rcases h' with hyz | ⟨rfl, _⟩
          · exact Or.inl (hxy.trans hyz)
          · exact Or.inl hxy
        · rcases h' with hyz | ⟨rfl, h'⟩
          · exact Or.inl hyz
          · exact Or.inr ⟨rfl, ih h h'⟩

theorem dirsortfunc_eq (behind : List UInt8) (d : List Direntry) (a b : ℕ) : dirsortfunc behind d a b =
    if (entryAt d a).ino = 0 ∧ (entryAt d b).ino = 0 then 0 else if (entryAt d a).ino = 0 then 1
    else if (entryAt d b).ino = 0 then -1 else strcmp (Direntry.str behind d a) (Direntry.str behind d b) := rfl

theorem isComparison_dirsortfunc (behind : List UInt8) (d : List Direntry) : IsComparison (dirsortfunc behind d) := by
  constructor
  · intro a b
    have hneg := strcmp_neg (Direntry.str behind d a) (Direntry.str behind d b)
    rw [dirsortfunc_eq, dirsortfunc_eq]
    by_cases ha : (entryAt d a).ino = 0 <;> by_cases hb : (entryAt d b).ino = 0 <;> simp [ha, hb]
    omega
  · intro a b c
    rw [dirsortfunc_eq, dirsortfunc_eq, dirsortfunc_eq]
    by_cases ha : (entryAt d a).ino = 0 <;> by_cases hb : (entryAt d b).ino = 0 <;>
      by_cases hc : (entryAt d c).ino = 0 <;> simp [ha, hb, hc]
    exact strcmp_trans

/-- What the order is good for: entries without an inode are at the end, and entries of one
name are next to each other. -/
structure Ordered (d : List Direntry) (v : List ℕ) : Prop where
  nodup : v.Nodup
  inside : ∀ i ∈ v, i < d.length
  sorted : v.Pairwise fun a b => (entryAt d b).ino ≠ 0 → (entryAt d a).ino ≠ 0 ∧ strcmp (cname (entryAt d a)) (cname (entryAt d b)) ≤ 0

theorem sfsdirSort_ordered (hd : Terminated d) {nd : ℕ} (hnd : nd ≤ d.length) (behind : List UInt8) :
    ∃ v, qsort (dirsortfunc behind d) (List.range nd) = some v ∧ v.Perm (List.range nd) ∧ Ordered d v := by
  obtain ⟨v, hsort, hperm, hsorted⟩ := qsortDepth_spec (isComparison_dirsortfunc behind d) (nd + 1) (List.range nd) (by simp)
  have hin : ∀ i ∈ v, i < d.length := fun i hi => by
    have := List.mem_range.mp (hperm.mem_iff.mp hi)
    omega
  refine ⟨v, by simpa [qsort] using hsort, hperm, hperm.nodup_iff.mpr List.nodup_range, hin, ?_⟩
  refine hsorted.imp_of_mem fun {a b} ha hb hle hlive => ?_
  rw [dirsortfunc_eq] at hle
  have halive : (entryAt d a).ino ≠ 0 := fun hzero => by simp [hzero, hlive] at hle
  refine ⟨halive, ?_⟩
  rw [← str_eq_cname behind (hin a ha) (hd a (hin a ha) halive), ← str_eq_cname behind (hin b hb) (hd b (hin b hb) hlive)]
  simpa [halive, hlive] using hle

/-! ### What is left of the directory -/

theorem generatedNames_cons (d : List Direntry) (id a b : ℕ) (v : List ℕ) : generatedNames d id (a :: b :: v) =
    (if Clash d a b then [fsckName (entryAt d a).ino id] else []) ++ generatedNames d (nextId d id a b) (b :: v) := by
  rw [generatedNames, nextId]
  by_cases h : Clash d a b
  · rw [if_pos h, if_pos h, if_pos h]
    rfl
  · rw [if_neg h, if_neg h, if_neg h]
    rfl

theorem nextId_lt (hid : id < 4294967296) : nextId d id a b < 4294967296 := by
  unfold nextId
  split_ifs <;> omega

/-- The three outcomes of a comparison. -/
theorem mergedEntry_cases (d : List Direntry) (id a b : ℕ) :
    ¬ SameName (entryAt d a) (entryAt d b) ∧ ¬ Clash d a b ∧ mergedEntry d id a b = entryAt d a ∨
    SameName (entryAt d a) (entryAt d b) ∧ ¬ Clash d a b ∧ (entryAt d a).ino = (entryAt d b).ino ∧ (mergedEntry d id a b).ino = 0 ∨
    Clash d a b ∧ (mergedEntry d id a b).ino = (entryAt d a).ino ∧ cname (mergedEntry d id a b) = fsckName (entryAt d a).ino id := by
  unfold mergedEntry
  by_cases hsame : SameName (entryAt d a) (entryAt d b)
  · rw [if_pos hsame]
    by_cases hino : (entryAt d a).ino = (entryAt d b).ino
    · rw [if_pos hino]
      exact Or.inr (Or.inl ⟨hsame, fun h => h.2 hino, hino, rfl⟩)
    · rw [if_neg hino]
      exact Or.inr (Or.inr ⟨⟨hsame, hino⟩, rfl, cname_putName _ _ (zero_notMem_fsckName _ _)⟩)
  · rw [if_neg hsame]
    exact Or.inl ⟨hsame, fun h => hsame h.1, rfl⟩

/-- A name that is in use afterwards was made up or was there. -/
theorem mem_resolved {e : Direntry} (he : e ∈ resolved d id v) (hlive : e.ino ≠ 0) :
    cname e ∈ generatedNames d id v ∨ ∃ i ∈ v, (entryAt d i).ino ≠ 0 ∧ cname e = cname (entryAt d i) := by
  induction v generalizing id with
  | nil => exact absurd he (by simp [resolved])
  | cons a v ih =>
    cases v with
    | nil =>
      rw [resolved, List.mem_singleton] at he
      exact Or.inr ⟨a, by simp, he ▸ hlive, by rw [he]⟩
    | cons b v =>
      rw [resolved, List.mem_cons] at he
      rw [generatedNames_cons, List.mem_append]
      rcases he with rfl | he
      · rcases mergedEntry_cases d id a b with ⟨_, _, heq⟩ | ⟨_, _, _, hzero⟩ | ⟨hclash, _, hname⟩
        · exact Or.inr ⟨a, by simp, heq ▸ hlive, by rw [heq]⟩
        · exact absurd hzero hlive
        · exact Or.inl (Or.inl (by rw [if_pos hclash, hname]; simp))
      · rcases ih he with hgen | ⟨i, hi, hname⟩
        · exact Or.inl (Or.inr hgen)
        · exact Or.inr ⟨i, List.mem_cons_of_mem _ hi, hname⟩

/-- A name that was in use stays in use. -/
theorem name_kept (id : ℕ) {i : ℕ} (hi : i ∈ v) (hlive : (entryAt d i).ino ≠ 0) :
    ∃ e ∈ resolved d id v, e.ino ≠ 0 ∧ cname e = cname (entryAt d i) := by
  induction v generalizing id i with
  | nil => exact absurd hi (by simp)
  | cons a v ih =>
    cases v with
    | nil =>
      rw [List.mem_singleton] at hi
      exact ⟨entryAt d a, by simp [resolved], hi ▸ hlive, by rw [hi]⟩
    | cons b v =>
      have hrest : ∀ j ∈ b :: v, (entryAt d j).ino ≠ 0 → cname (entryAt d j) = cname (entryAt d i) →
          ∃ e ∈ resolved d id (a :: b :: v), e.ino ≠ 0 ∧ cname e = cname (entryAt d i) := fun j hj hjlive hname => by
        obtain ⟨e, he, helive, hename⟩ := ih (nextId d id a b) hj hjlive
        exact ⟨e, by rw [resolved]; exact List.mem_cons_of_mem _ he, helive, hename.trans hname⟩
      rcases List.mem_cons.mp hi with rfl | hi
      · by_cases hsame : SameName (entryAt d i) (entryAt d b)
        · exact hrest b (by simp) hsame.2.1 hsame.2.2.symm
        · refine ⟨entryAt d i, ?_, hlive, rfl⟩
          rw [resolved, mergedEntry, if_neg hsame]
          simp
      · exact hrest i hi hlive rfl

/-- A name that was made up is in use. -/
theorem generated_in_use {name : List UInt8} (h : name ∈ generatedNames d id v) :
    ∃ e ∈ resolved d id v, e.ino ≠ 0 ∧ cname e = name := by
  induction v generalizing id with
  | nil => exact absurd h (by simp [generatedNames])
  | cons a v ih =>
    cases v with
    | nil => exact absurd h (by simp [generatedNames])
    | cons b v =>
      rw [generatedNames_cons, List.mem_append] at h
      rw [resolved]
      rcases h with h | h
      · by_cases hclash : Clash d a b
        · rw [if_pos hclash, List.mem_singleton] at h
          rcases mergedEntry_cases d id a b with ⟨_, hno, _⟩ | ⟨_, hno, _⟩ | ⟨_, hino, hname⟩
          · exact absurd hclash hno
          · exact absurd hclash hno
          · exact ⟨_, List.mem_cons_self, hino ▸ hclash.1.1, hname.trans h.symm⟩
        · rw [if_neg hclash] at h
          exact absurd h (by simp)
      · obtain ⟨e, he, hlive⟩ := ih h
        exact ⟨e, List.mem_cons_of_mem _ he, hlive⟩

/-- The numbers in the names that are made up. -/
theorem generated_id {name : List UInt8} (hid : id < 4294967296) (h : name ∈ generatedNames d id v) :
    ∃ ino k, k + 1 < v.length ∧ name = fsckName ino ((id + k) % 4294967296) := by
  induction v generalizing id with
  | nil => exact absurd h (by simp [generatedNames])
  | cons a v ih =>
    cases v with
    | nil => exact absurd h (by simp [generatedNames])
    | cons b v =>
      rw [generatedNames_cons, List.mem_append] at h
      by_cases hclash : Clash d a b
      · rw [if_pos hclash, nextId, if_pos hclash, List.mem_singleton] at h
        rcases h with h | h
        · exact ⟨_, 0, by simp, by rw [h, Nat.add_zero, Nat.mod_eq_of_lt hid]⟩
        · obtain ⟨ino, k, hk, hname⟩ := ih (Nat.mod_lt _ (by omega)) h
          refine ⟨ino, k + 1, by simpa using hk, ?_⟩
          rw [hname, show ((id + 1) % 4294967296 + k) % 4294967296 = (id + (k + 1)) % 4294967296 by omega]
      · rw [if_neg hclash, nextId, if_neg hclash] at h
        rcases h with h | h
        · exact absurd h (by simp)
        · obtain ⟨ino, k, hk, hname⟩ := ih hid h
          exact ⟨ino, k, by simp only [List.length_cons] at hk ⊢; omega, hname⟩

/-- No name of the entries `v` is made up again. -/
def Fresh (d : List Direntry) (id : ℕ) (v : List ℕ) : Prop :=
  ∀ i ∈ v, (entryAt d i).ino ≠ 0 → cname (entryAt d i) ∉ generatedNames d id v

theorem Fresh.tail (h : Fresh d id (a :: b :: v)) : Fresh d (nextId d id a b) (b :: v) := fun i hi hlive hgen =>
  h i (List.mem_cons_of_mem _ hi) hlive (by rw [generatedNames_cons]; exact List.mem_append_right _ hgen)

theorem Ordered.tail (h : Ordered d (a :: v)) : Ordered d v :=
  ⟨(List.nodup_cons.mp h.nodup).2, fun i hi => h.inside i (List.mem_cons_of_mem _ hi), (List.pairwise_cons.mp h.sorted).2⟩

/-- In the order, a name that the next entry does not have does not come again. -/
theorem Ordered.name_ne (h : Ordered d (a :: b :: v)) (hsame : ¬ SameName (entryAt d a) (entryAt d b)) {i : ℕ}
    (hi : i ∈ b :: v) (halive : (entryAt d a).ino ≠ 0) (hlive : (entryAt d i).ino ≠ 0) :
    cname (entryAt d a) ≠ cname (entryAt d i) := by
  intro hname
  rcases List.mem_cons.mp hi with rfl | hiv
  · exact hsame ⟨halive, hlive, hname⟩
  · have hbi := (List.pairwise_cons.mp h.tail.sorted).1 i hiv hlive
    have hab := (List.pairwise_cons.mp h.sorted).1 b (by simp) hbi.1
    rw [hname] at hab
    have hneg := strcmp_neg (cname (entryAt d i)) (cname (entryAt d b))
    have hzero : strcmp (cname (entryAt d i)) (cname (entryAt d b)) = 0 := by omega
    exact hsame ⟨halive, hbi.1, hname.trans (strcmp_eq_zero.mp hzero)⟩

theorem unique_of_fresh (hord : Ordered d v) (hid : id < 4294967296) (hlen : v.length ≤ 4294967296) (hfresh : Fresh d id v) :
    (resolved d id v).Pairwise fun e e' => ¬ SameName e e' := by
  induction v generalizing id with
  | nil => exact List.Pairwise.nil
  | cons a v ih =>
    cases v with
    | nil => exact List.pairwise_singleton _ _
    | cons b v =>
      rw [List.length_cons] at hlen
      rw [resolved, List.pairwise_cons]
      refine ⟨fun e he hsame => ?_, ih hord.tail (nextId_lt hid) (by omega) hfresh.tail⟩
      obtain ⟨hhead, helive, hname⟩ := hsame
      have hgen : ∀ i ∈ a :: b :: v, (entryAt d i).ino ≠ 0 → cname (entryAt d i) ∉ generatedNames d (nextId d id a b) (b :: v) :=
        fun i hi hlive hmem => hfresh i hi hlive (by rw [generatedNames_cons]; exact List.mem_append_right _ hmem)
      rcases mergedEntry_cases d id a b with ⟨hno, _, heq⟩ | ⟨_, _, _, hzero⟩ | ⟨hclash, hino, hmade⟩
      · -- the entry is as it was
        rw [heq] at hhead hname
        rcases mem_resolved he helive with hmem | ⟨i, hi, hlive, hename⟩
        · exact hgen a (by simp) hhead (hname ▸ hmem)
        · exact hord.name_ne hno hi hhead hlive (hname.trans hename)
      · exact hhead hzero
      · -- the entry has a name that was made up
        rw [hmade] at hname
        rcases mem_resolved he helive with hmem | ⟨i, hi, hlive, hename⟩
        · obtain ⟨ino, k, hk, hlater⟩ := generated_id (nextId_lt hid) hmem
          have heq := fsckName_id hid (Nat.mod_lt _ (by omega)) (hname.trans hlater)
          rw [nextId, if_pos hclash] at heq
          simp only [List.length_cons] at hk hlen
          omega
        · refine hfresh i (List.mem_cons_of_mem _ hi) hlive ?_
          rw [generatedNames_cons, if_pos hclash, ← hename, ← hname]
          simp

theorem fresh_of_unique (h : (resolved d id v).Pairwise fun e e' => ¬ SameName e e') : Fresh d id v := by
  induction v generalizing id with
  | nil => exact fun i hi => absurd hi (by simp)
  | cons a v ih =>
    cases v with
    | nil => exact fun i _ _ hgen => absurd hgen (by simp [generatedNames])
    | cons b v =>
      rw [resolved, List.pairwise_cons] at h
      have htail := ih h.2
      -- a name of the entries behind `a` is neither made up for `a` nor behind it
      have hbehind : ∀ i ∈ b :: v, (entryAt d i).ino ≠ 0 → cname (entryAt d i) ∉ generatedNames d id (a :: b :: v) := by
        intro i hi hlive hgen
        rw [generatedNames_cons, List.mem_append] at hgen
        rcases hgen with hgen | hgen
        · by_cases hclash : Clash d a b
          · rw [if_pos hclash, List.mem_singleton] at hgen
            obtain ⟨e, he, helive, hename⟩ := name_kept (nextId d id a b) hi hlive
            rcases mergedEntry_cases d id a b with ⟨_, hno, _⟩ | ⟨_, hno, _⟩ | ⟨_, hino, hmade⟩
            · exact hno hclash
            · exact hno hclash
            · exact h.1 e he ⟨hino ▸ hclash.1.1, helive, by rw [hmade, hename, hgen]⟩
          · rw [if_neg hclash] at hgen
            exact absurd hgen (by simp)
        · exact htail i hi hlive hgen
      intro i hi hlive hgen
      rcases List.mem_cons.mp hi with rfl | hi
      · by_cases hsame : SameName (entryAt d i) (entryAt d b)
        · exact hbehind b (by simp) hsame.2.1 (hsame.2.2 ▸ hgen)
        · rw [generatedNames_cons, if_neg fun hclash => hsame hclash.1, List.nil_append] at hgen
          obtain ⟨e, he, helive, hename⟩ := generated_in_use hgen
          refine h.1 e he ?_
          rw [mergedEntry, if_neg hsame]
          exact ⟨hlive, helive, hename.symm⟩
      · exact hbehind i hi hlive hgen

/-- Each entry keeps its inode, or a copy of it does. -/
theorem inode_kept (id : ℕ) {i : ℕ} (hi : i ∈ v) (hlive : (entryAt d i).ino ≠ 0) :
    ∃ p ∈ v.zip (resolved d id v),
      (p.1 = i ∨ SameName (entryAt d p.1) (entryAt d i) ∧ (entryAt d p.1).ino = (entryAt d i).ino) ∧
      p.2.ino = (entryAt d i).ino := by
  induction v generalizing id i with
  | nil => exact absurd hi (by simp)
  | cons a v ih =>
    cases v with
    | nil =>
      rw [List.mem_singleton] at hi
      exact ⟨(a, entryAt d a), by simp [resolved], Or.inl hi.symm, by rw [hi]⟩
    | cons b v =>
      rw [resolved, List.zip_cons_cons]
      have hrest : ∀ j ∈ b :: v, (entryAt d j).ino ≠ 0 → ∃ p ∈ (a, mergedEntry d id a b) :: (b :: v).zip (resolved d (nextId d id a b) (b :: v)),
          (p.1 = j ∨ SameName (entryAt d p.1) (entryAt d j) ∧ (entryAt d p.1).ino = (entryAt d j).ino) ∧ p.2.ino = (entryAt d j).ino :=
        fun j hj hjlive => by
          obtain ⟨p, hp, hcopy⟩ := ih (nextId d id a b) hj hjlive
          exact ⟨p, List.mem_cons_of_mem _ hp, hcopy⟩
      rcases List.mem_cons.mp hi with rfl | hi
      · rcases mergedEntry_cases d id i b with ⟨_, _, heq⟩ | ⟨hsame, _, hino, _⟩ | ⟨_, hino, _⟩
        · exact ⟨_, List.mem_cons_self, Or.inl rfl, by rw [heq]⟩
        · obtain ⟨p, hp, hcopy, hkept⟩ := hrest b (by simp) hsame.2.1
          refine ⟨p, hp, Or.inr ?_, hkept.trans hino.symm⟩
          rcases hcopy with heq | ⟨hpb, hpino⟩
          · rw [heq]
            exact ⟨⟨hsame.2.1, hsame.1, hsame.2.2.symm⟩, hino.symm⟩
          · exact ⟨⟨hpb.1, hsame.1, hpb.2.2.trans hsame.2.2.symm⟩, hpino.trans hino.symm⟩
        · exact ⟨_, List.mem_cons_self, Or.inl rfl, hino⟩
      · exact hrest i hi hlive

/-! ### The check as a whole -/

variable {nd : ℕ}

theorem checkDuplicates_wp (hd : Terminated d) (hnd : nd ≤ d.length) {Q : Entries → Fsck → Prop}
    (hQ : ∀ v r t, qsort (dirsortfunc s.behind d) (List.range nd) = some v → v.Perm (List.range nd) → Ordered d v →
      v.map (entryAt r.d) = resolved d s.uniquecounter v → Q r t) : (checkDuplicates d nd).wp c Q E s := by
  obtain ⟨v, hsort, hperm, hord⟩ := sfsdirSort_ordered hd hnd s.behind
  unfold checkDuplicates sfsdirSort
  rw [wp_bind, wp_bind, wp_get, hsort]
  exact mergePairs_wp hd v hord.nodup hord.inside rfl (fun _ _ => rfl) fun r t hmap _ => hQ v r t hsort hperm hord hmap

theorem generatedFresh_iff {v : List ℕ} (hsort : qsort (dirsortfunc s.behind d) (List.range nd) = some v)
    (hperm : v.Perm (List.range nd)) : s.GeneratedFresh nd d ↔ Fresh d s.uniquecounter v := by
  unfold GeneratedFresh Fresh
  simp only [hsort, Option.some.injEq, forall_eq', hperm.mem_iff, List.mem_range]

/-- The entries are told apart by their names exactly if those in the sorted order are. -/
theorem unique_iff {r : List Direntry} {v : List ℕ} (hperm : v.Perm (List.range nd)) :
    (∀ i < nd, ∀ j < nd, i ≠ j → ¬ SameName (entryAt r i) (entryAt r j)) ↔
      (v.map (entryAt r)).Pairwise fun e e' => ¬ SameName e e' := by
  have hmem : ∀ i, i ∈ v ↔ i < nd := fun i => hperm.mem_iff.trans List.mem_range
  rw [List.pairwise_map]
  constructor
  · intro h
    exact (hperm.nodup_iff.mpr List.nodup_range).pairwise_of_forall_ne fun i hi j hj hij =>
      h i ((hmem i).mp hi) j ((hmem j).mp hj) hij
  · intro h i hi j hj hij
    have : Std.Symm fun i j => ¬ SameName (entryAt r i) (entryAt r j) :=
      ⟨fun i j hno hsame => hno ⟨hsame.2.1, hsame.1, hsame.2.2.symm⟩⟩
    exact h.forall ((hmem i).mpr hi) ((hmem j).mpr hj) hij

theorem kept_of_resolved {r : List Direntry} {v : List ℕ} (hperm : v.Perm (List.range nd))
    (hmap : v.map (entryAt r) = resolved d id v) {i : ℕ} (hi : i < nd) (hlive : (entryAt d i).ino ≠ 0) :
    ∃ j < nd, (j = i ∨ SameName (entryAt d j) (entryAt d i) ∧ (entryAt d j).ino = (entryAt d i).ino) ∧
      (entryAt r j).ino = (entryAt d i).ino := by
  obtain ⟨p, hp, hcopy, hkept⟩ := inode_kept id (hperm.mem_iff.mpr (List.mem_range.mpr hi)) hlive
  have hzip := List.zip_map' (f := fun j : ℕ => j) (g := entryAt r) (l := v)
  rw [List.map_id'] at hzip
  rw [← hmap, hzip] at hp
  obtain ⟨j, hj, rfl⟩ := List.mem_map.mp hp
  exact ⟨j, List.mem_range.mp (hperm.mem_iff.mp hj), hcopy, hkept⟩

theorem generatedFresh_of_resolves (hd : Terminated d) (hnd : nd ≤ d.length) (h : s.ResolvesDuplicates nd d) : s.GeneratedFresh nd d := by
  have hshape : (checkDuplicates d nd).wp False (fun r _ => DuplicatesResolved nd d r.d → s.GeneratedFresh nd d)
      (fun _ _ => False) s := by
    refine checkDuplicates_wp hd hnd fun v r t hsort hperm hord hmap hresolved => ?_
    rw [generatedFresh_iff hsort hperm]
    exact fresh_of_unique (hmap ▸ (unique_iff hperm).mp hresolved.unique)
  rcases (h.and hshape).cases with ⟨r, t, _, hresolved, hfresh⟩ | ⟨e, t, _, hfalse, _⟩ | ⟨_, hfalse⟩
  · exact hfresh hresolved
  · exact hfalse.elim
  · exact hfalse.elim

/-- The check for duplicate names leaves no two entries of one name, and loses no inode,
exactly if the names that it makes up are new to the directory. -/
theorem duplicates_resolved_iff (s : Fsck) (sfi : Block) (d : List Direntry) (hsize : sfi.sfiSize / 64 ≤ d.length)
    (hd : Terminated d) (hid : s.uniquecounter < 4294967296) :
    s.ResolvesDuplicates (sfi.sfiSize / 64) d ↔ s.GeneratedFresh (sfi.sfiSize / 64) d := by
  have hbound : sfi.sfiSize < 4294967296 := Bytes.num_lt 4 sfi 0
  constructor
  · exact generatedFresh_of_resolves hd hsize
  · intro hfresh
    refine checkDuplicates_wp hd hsize fun v r t hsort hperm hord hmap => ⟨?_, fun i hi hlive => kept_of_resolved hperm hmap hi hlive⟩
    rw [generatedFresh_iff hsort hperm] at hfresh
    have hlen : v.length ≤ 4294967296 := by
      rw [hperm.length_eq, List.length_range]
      omega
    rw [unique_iff hperm, hmap]
    exact unique_of_fresh hord hid hlen hfresh

/-- A name in its field. -/
def nameField (name : List UInt8) : List UInt8 := name ++ List.replicate (60 - name.length) 0

/-- Two entries `a`, and one with the name that is made up for the first of them. -/
def clashingDir : List Direntry := [⟨5, nameField [97]⟩, ⟨6, nameField [97]⟩, ⟨7, nameField (fsckName 5 0)⟩]

/-- Two entries `a` alone. -/
def doubledDir : List Direntry := [⟨5, nameField [97]⟩, ⟨6, nameField [97]⟩]

/-- The inode of a directory of `n` entries. -/
def dirOfSize (n : ℕ) : Block := Bytes.zero.setSfiSize (n * 64)

theorem sfiSize_dirOfSize {n : ℕ} (hn : n < 1000) : (dirOfSize n).sfiSize / 64 = n := by
  rw [dirOfSize, Bytes.sfiSize_setSfiSize (by omega)]
  omega

/-- The program before it has made up a name. -/
def freshStart : Fsck := start (fun _ => Bytes.zero) 16 [] []

theorem terminated_clashingDir : Terminated clashingDir := by
  unfold Terminated
  decide

theorem terminated_doubledDir : Terminated doubledDir := by
  unfold Terminated
  decide

/-- The first `a` is renamed to a name that another entry has. -/
theorem made_up_name_taken : Terminated clashingDir ∧ ¬ freshStart.ResolvesDuplicates 3 clashingDir := by
  refine ⟨terminated_clashingDir, fun h => ?_⟩
  have hfresh := generatedFresh_of_resolves terminated_clashingDir (by decide) h
  have hsort : qsort (dirsortfunc freshStart.behind clashingDir) (List.range 3) = some [2, 0, 1] := by decide +kernel
  exact hfresh _ hsort 2 (by decide) (by decide) (by decide +kernel)

/-- Without the third entry the first one gets a name of its own. -/
theorem duplicates_resolved_two : freshStart.ResolvesDuplicates ((dirOfSize 2).sfiSize / 64) doubledDir := by
  have hsort : qsort (dirsortfunc freshStart.behind doubledDir) (List.range 2) = some [0, 1] := by decide +kernel
  have hnames : ∀ i < 2, (entryAt doubledDir i).ino ≠ 0 →
      cname (entryAt doubledDir i) ∉ generatedNames doubledDir freshStart.uniquecounter [0, 1] := by decide +kernel
  refine (duplicates_resolved_iff freshStart (dirOfSize 2) doubledDir ?_ terminated_doubledDir (by decide)).mpr ?_
  · rw [sfiSize_dirOfSize (by decide)]
    decide
  · rw [sfiSize_dirOfSize (by decide)]
    intro v hv
    rw [hsort, Option.some.injEq] at hv
    exact hv ▸ hnames

end Fsck

end Os161
