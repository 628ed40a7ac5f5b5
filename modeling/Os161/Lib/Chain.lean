import Mathlib.Data.List.Chain
import Mathlib.Logic.Function.Basic

/-! Doubly linked chains: nodes with two links each, what it means that a list of them is
chained, and what putting a node between two others, or taking it out, does to a chain. -/

namespace Os161

variable {α : Type*}

structure Links (α : Type*) where
  prev : α → Option α
  next : α → Option α

namespace Links

/-- Each node of the list is linked with the one behind it. -/
def Chained (k : Links α) (l : List α) : Prop := l.IsChain fun x y => k.next x = some y ∧ k.prev y = some x

/-- From `x` the links lead over the nodes of the list to `y`. -/
def Leads (link : α → Option α) : α → List α → α → Prop
  | x, [], y => link x = some y
  | x, z :: l, y => link x = some z ∧ Leads link z l y

section
variable {k k' : Links α} {x y z : α} {l m : List α}

theorem Chained.leads_next (h : k.Chained (x :: l ++ [y])) : Leads k.next x l y := by
  induction l generalizing x with
  | nil => exact (List.isChain_pair.mp h).1
  | cons z l ih =>
    obtain ⟨hlink, hrest⟩ := List.isChain_cons_cons.mp h
    exact ⟨hlink.1, ih hrest⟩

theorem leads_snoc {link : α → Option α} : Leads link x (l ++ [z]) y ↔ Leads link x l z ∧ link z = some y := by
  induction l generalizing x with
  | nil => exact Iff.rfl
  | cons w l ih =>
    change link x = some w ∧ Leads link w (l ++ [z]) y ↔ (link x = some w ∧ Leads link w l z) ∧ link z = some y
    rw [ih, and_assoc]

theorem Chained.leads_prev (h : k.Chained (x :: l ++ [y])) : Leads k.prev y l.reverse x := by
  induction l generalizing x with
  | nil => exact (List.isChain_pair.mp h).2
  | cons z l ih =>
    obtain ⟨hlink, hrest⟩ := List.isChain_cons_cons.mp h
    rw [List.reverse_cons]
    exact leads_snoc.mpr ⟨ih hrest, hlink.2⟩

/-- Links that lead both ways are a chain. -/
theorem chained_of_leads (hnext : Leads k.next x l y) (hprev : Leads k.prev y l.reverse x) : k.Chained (x :: l ++ [y]) := by
  induction l generalizing x with
  | nil => exact List.isChain_pair.mpr ⟨hnext, hprev⟩
  | cons z l ih =>
    rw [List.reverse_cons, leads_snoc] at hprev
    exact List.isChain_cons_cons.mpr ⟨⟨hnext.1, hprev.2⟩, ih hnext.2 hprev.1⟩

/-- A chain where the links along it are the same. -/
theorem Chained.congr (h : k.Chained l) (hnext : ∀ x ∈ l.dropLast, k'.next x = k.next x)
    (hprev : ∀ x ∈ l.tail, k'.prev x = k.prev x) : k'.Chained l := by
  induction l with
  | nil => exact List.isChain_nil
  | cons x l ih =>
    cases l with
    | nil => exact List.isChain_singleton x
    | cons y l =>
      obtain ⟨hlink, hrest⟩ := List.isChain_cons_cons.mp h
      rw [List.dropLast_cons_cons] at hnext
      refine List.isChain_cons_cons.mpr ⟨⟨?_, ?_⟩, ih hrest (fun z hz => ?_) fun z hz => ?_⟩
      · rw [hnext x List.mem_cons_self]
        exact hlink.1
      · rw [hprev y List.mem_cons_self]
        exact hlink.2
      · exact hnext z (List.mem_cons_of_mem x hz)
      · exact hprev z (List.mem_cons_of_mem y hz)

theorem chained_split : k.Chained (l ++ x :: y :: m) ↔
    k.Chained (l ++ [x]) ∧ (k.next x = some y ∧ k.prev y = some x) ∧ k.Chained (y :: m) := by
  unfold Chained
  rw [List.isChain_split, List.isChain_cons_cons]

/-- What a chain without repetition says about its two ends at a place. -/
theorem ends_of_nodup (h : (l ++ x :: y :: m).Nodup) : x ∉ l ∧ x ≠ y ∧ x ∉ m ∧ y ∉ l ∧ y ∉ m := by
  simp only [List.nodup_append, List.nodup_cons, List.mem_cons, not_or] at h
  obtain ⟨-, ⟨⟨hxy, hxm⟩, hym, -⟩, hdisj⟩ := h
  exact ⟨fun hx => hdisj x hx x (.inl rfl) rfl, hxy, hxm, fun hy => hdisj y hy y (.inr (.inl rfl)) rfl, hym⟩

end

section
variable [DecidableEq α] {k : Links α} {a x y z : α} {l m : List α}

/-- `a` comes between `x` and `y`. -/
def insert (k : Links α) (x a y : α) : Links α where
  prev := Function.update (Function.update k.prev a (some x)) y (some a)
  next := Function.update (Function.update k.next a (some y)) x (some a)

/-- `a` goes from between `x` and `y`. -/
def remove (k : Links α) (x a y : α) : Links α where
  prev := Function.update (Function.update k.prev y (some x)) a none
  next := Function.update (Function.update k.next x (some y)) a none

theorem insert_prev_of_ne (ha : z ≠ a) (hy : z ≠ y) : (k.insert x a y).prev z = k.prev z := by
  rw [insert]
  dsimp only
  rw [Function.update_of_ne hy, Function.update_of_ne ha]

theorem insert_next_of_ne (ha : z ≠ a) (hx : z ≠ x) : (k.insert x a y).next z = k.next z := by
  rw [insert]
  dsimp only
  rw [Function.update_of_ne hx, Function.update_of_ne ha]

theorem remove_prev_of_ne (ha : z ≠ a) (hy : z ≠ y) : (k.remove x a y).prev z = k.prev z := by
  rw [remove]
  dsimp only
  rw [Function.update_of_ne ha, Function.update_of_ne hy]

theorem remove_next_of_ne (ha : z ≠ a) (hx : z ≠ x) : (k.remove x a y).next z = k.next z := by
  rw [remove]
  dsimp only
  rw [Function.update_of_ne ha, Function.update_of_ne hx]

theorem Chained.insert (h : k.Chained (l ++ x :: y :: m)) (hnodup : (l ++ x :: y :: m).Nodup)
    (ha : a ∉ l ++ x :: y :: m) : (k.insert x a y).Chained (l ++ x :: a :: y :: m) := by
  obtain ⟨hxl, hxy, hxm, hyl, hym⟩ := ends_of_nodup hnodup
  simp only [List.mem_append, List.mem_cons, not_or] at ha
  obtain ⟨hal, hax, hay, ham⟩ := ha
  obtain ⟨hleft, -, hright⟩ := chained_split.mp h
  refine chained_split.mpr ⟨?_, ⟨?_, ?_⟩, List.isChain_cons_cons.mpr ⟨⟨?_, ?_⟩, ?_⟩⟩
  · refine hleft.congr (fun z hz => ?_) fun z hz => ?_
    · rw [List.dropLast_concat] at hz
      exact insert_next_of_ne (fun e => hal (e ▸ hz)) fun e => hxl (e ▸ hz)
    · rcases List.mem_append.mp (List.mem_of_mem_tail hz) with hz | hz
      · exact insert_prev_of_ne (fun e => hal (e ▸ hz)) fun e => hyl (e ▸ hz)
      · rw [List.mem_singleton.mp hz]
        exact insert_prev_of_ne (Ne.symm hax) hxy
  · rw [Links.insert]
    exact Function.update_self ..
  · rw [Links.insert]
    dsimp only
    rw [Function.update_of_ne hay, Function.update_self]
  · rw [Links.insert]
    dsimp only
    rw [Function.update_of_ne hax, Function.update_self]
  · rw [Links.insert]
    exact Function.update_self ..
  · refine hright.congr (fun z hz => ?_) fun z hz => ?_
    · rcases List.mem_cons.mp (List.dropLast_subset _ hz) with hz | hz
      · rw [hz]
        exact insert_next_of_ne (Ne.symm hay) (Ne.symm hxy)
      · exact insert_next_of_ne (fun e => ham (e ▸ hz)) fun e => hxm (e ▸ hz)
    · exact insert_prev_of_ne (fun e => ham (e ▸ hz)) fun e => hym (e ▸ hz)

theorem Chained.remove (h : k.Chained (l ++ x :: a :: y :: m)) (hnodup : (l ++ x :: a :: y :: m).Nodup) :
    (k.remove x a y).Chained (l ++ x :: y :: m) := by
  obtain ⟨hxl, hxa, hxm, hal, ham⟩ := ends_of_nodup hnodup
  rw [List.mem_cons, not_or] at hxm ham
  have hyl : y ∉ l ∧ y ∉ m := by
    rw [List.append_cons] at hnodup
    obtain ⟨-, -, -, hy, hym⟩ := ends_of_nodup hnodup
    exact ⟨fun hl => hy (List.mem_append_left _ hl), hym⟩
  obtain ⟨hleft, -, hrest⟩ := chained_split.mp h
  have hright : k.Chained (y :: m) := (List.isChain_cons_cons.mp hrest).2
  refine chained_split.mpr ⟨?_, ⟨?_, ?_⟩, ?_⟩
  · refine hleft.congr (fun z hz => ?_) fun z hz => ?_
    · rw [List.dropLast_concat] at hz
      exact remove_next_of_ne (fun e => hal (e ▸ hz)) fun e => hxl (e ▸ hz)
    · rcases List.mem_append.mp (List.mem_of_mem_tail hz) with hz | hz
      · exact remove_prev_of_ne (fun e => hal (e ▸ hz)) fun e => hyl.1 (e ▸ hz)
      · rw [List.mem_singleton.mp hz]
        exact remove_prev_of_ne hxa hxm.1
  · rw [Links.remove]
    dsimp only
    rw [Function.update_of_ne hxa, Function.update_self]
  · rw [Links.remove]
    dsimp only
    rw [Function.update_of_ne (Ne.symm ham.1), Function.update_self]
  · refine hright.congr (fun z hz => ?_) fun z hz => ?_
    · rcases List.mem_cons.mp (List.dropLast_subset _ hz) with hz | hz
      · rw [hz]
        exact remove_next_of_ne (Ne.symm ham.1) (Ne.symm hxm.1)
      · exact remove_next_of_ne (fun e => ham.2 (e ▸ hz)) fun e => hxm.2 (e ▸ hz)
    · exact remove_prev_of_ne (fun e => ham.2 (e ▸ hz)) fun e => hyl.2 (e ▸ hz)

end

end Links

end Os161
