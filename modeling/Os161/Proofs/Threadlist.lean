import Os161.Spec.Threadlist
import Mathlib.Order.Interval.Finset.Nat

/-! The operations on thread lists do to the links what they say they do to sequences. -/

namespace Os161

open Op

namespace ThreadLists

variable {L : Type}

/-! ### The nodes of a list -/

/-- The nodes of the list `tl`, from end to end, when `l` is on it. -/
def nodes (tl : L) (l : List ThreadPtr) : List (TlNode L) := .head tl :: l.map .thread ++ [.tail tl]

/-- The node behind which something comes that is put behind `l`. -/
def lastNode (tl : L) (l : List ThreadPtr) : TlNode L := (l.map TlNode.thread).getLastD (.head tl)

/-- The node before which something comes that is put before `l`. -/
def firstNode (tl : L) (l : List ThreadPtr) : TlNode L := (l.map TlNode.thread).headD (.tail tl)

theorem mem_nodes {tl : L} {l : List ThreadPtr} {tln : TlNode L} :
    tln ∈ nodes tl l ↔ tln = .head tl ∨ tln = .tail tl ∨ ∃ t ∈ l, tln = .thread t := by
  unfold nodes
  simp only [List.mem_append, List.mem_cons, List.mem_map, List.not_mem_nil, or_false]
  constructor
  · rintro ((h | ⟨t, ht, rfl⟩) | h)
    · exact .inl h
    · exact .inr (.inr ⟨t, ht, rfl⟩)
    · exact .inr (.inl h)
  · rintro (h | h | ⟨t, ht, rfl⟩)
    · exact .inl (.inl h)
    · exact .inr h
    · exact .inl (.inr ⟨t, ht, rfl⟩)

theorem nodes_nodup (tl : L) {l : List ThreadPtr} (h : l.Nodup) : (nodes tl l).Nodup := by
  have hmap : (l.map (TlNode.thread (L := L))).Nodup := h.map fun _ _ heq => TlNode.thread.inj heq
  unfold nodes
  refine List.nodup_append.mpr ⟨List.nodup_cons.mpr ⟨by simp, hmap⟩, List.nodup_singleton _, ?_⟩
  intro x hx y hy
  rw [List.mem_singleton.mp hy]
  rcases List.mem_cons.mp hx with rfl | hx
  · simp
  · obtain ⟨t, -, rfl⟩ := List.mem_map.mp hx
    simp

/-- The nodes around a place in the list. -/
theorem nodes_append (tl : L) (m₁ m₂ : List ThreadPtr) : ∃ p q, ∀ m : List ThreadPtr,
    nodes tl (m₁ ++ m ++ m₂) = p ++ lastNode tl m₁ :: (m.map .thread ++ firstNode tl m₂ :: q) := by
  have hleft : ∃ p, TlNode.head tl :: m₁.map .thread = p ++ [lastNode tl m₁] := by
    unfold lastNode
    induction m₁ using List.reverseRecOn with
    | nil => exact ⟨[], rfl⟩
    | append_singleton l t => exact ⟨.head tl :: l.map .thread, by simp⟩
  have hright : ∃ q, m₂.map TlNode.thread ++ [.tail tl] = firstNode tl m₂ :: q := by
    unfold firstNode
    cases m₂ with
    | nil => exact ⟨[], rfl⟩
    | cons t l => exact ⟨l.map .thread ++ [.tail tl], rfl⟩
  obtain ⟨p, hp⟩ := hleft
  obtain ⟨q, hq⟩ := hright
  refine ⟨p, q, fun m => ?_⟩
  unfold nodes
  rw [List.map_append, List.map_append, List.append_assoc, ← List.cons_append, hp, List.append_assoc, List.append_assoc,
    List.append_assoc, hq]
  rfl

/-! ### Lists apart -/

variable {s : ThreadLists L}

theorem Refines.chained {d : TlCall.Contents L} (h : s.Refines d) (tl : L) : s.links.Chained (nodes tl (d tl)) :=
  Links.chained_of_leads (h.forward tl) (h.backward tl)

/-- The nodes of two lists are different. -/
theorem Refines.apart {d : TlCall.Contents L} (h : s.Refines d) {tl tl' : L} (hne : tl' ≠ tl) {tln : TlNode L}
    (hmem : tln ∈ nodes tl (d tl)) : tln ∉ nodes tl' (d tl') := by
  intro hmem'
  rw [mem_nodes] at hmem hmem'
  rcases hmem with rfl | rfl | ⟨t, ht, rfl⟩
  · rcases hmem' with heq | heq | ⟨_, _, heq⟩
    · exact hne (TlNode.head.inj heq).symm
    · cases heq
    · cases heq
  · rcases hmem' with heq | heq | ⟨_, _, heq⟩
    · cases heq
    · exact hne (TlNode.tail.inj heq).symm
    · cases heq
  · rcases hmem' with heq | heq | ⟨t', ht', heq⟩
    · cases heq
    · cases heq
    · rw [← TlNode.thread.inj heq] at ht'
      exact hne (h.unique tl' tl t ht' ht)

/-- `t` is on the list, at one place. -/
theorem Refines.split_of_mem {d : TlCall.Contents L} (h : s.Refines d) {tl : L} {t : ThreadPtr} (ht : t ∈ d tl) : ∃ m₁ m₂, d tl = m₁ ++ t :: m₂ ∧ t ∉ m₁ := by
  obtain ⟨m₁, m₂, hd⟩ := List.append_of_mem ht
  have hnd := h.nodup tl
  rw [hd] at hnd
  obtain ⟨hout, -⟩ := List.nodup_cons.mp (List.nodup_middle.mp hnd)
  exact ⟨m₁, m₂, hd, fun hin => hout (List.mem_append_left _ hin)⟩

theorem mem_nodes_of_nodeOf {d : TlCall.Contents L} {tl : L} {tln : TlNode L} (h : NodeOf d tl tln) : tln ∈ nodes tl (d tl) := by
  rw [mem_nodes]
  cases tln with
  | head tl' => exact .inl (congrArg TlNode.head h)
  | tail tl' => exact .inr (.inl (congrArg TlNode.tail h))
  | thread t => exact .inr (.inr ⟨t, h, rfl⟩)

/-- Pointers have 32 bits, so that a list cannot overflow its count. -/
theorem length_lt_of_nodup {l : List ThreadPtr} (h : l.Nodup) : l.length < 4294967296 := by
  have hinj : Function.Injective fun t : ThreadPtr => t.val.toNat := fun t t' heq =>
    Subtype.ext (UInt32.toNat_inj.mp heq)
  have hsub : (l.map fun t => t.val.toNat).toFinset ⊆ Finset.Ico 1 4294967296 := by
    intro n hn
    obtain ⟨t, -, rfl⟩ := List.mem_map.mp (List.mem_toFinset.mp hn)
    refine Finset.mem_Ico.mpr ⟨Nat.pos_of_ne_zero fun h0 => t.property (UInt32.toNat_inj.mp h0), t.val.toNat_lt⟩
  have hcard := Finset.card_le_card hsub
  rw [List.toFinset_card_of_nodup (h.map hinj), List.length_map, Nat.card_Ico] at hcard
  omega

theorem lastNode_ne_tail (tl : L) (l : List ThreadPtr) : lastNode tl l ≠ .tail tl := by
  unfold lastNode
  induction l using List.reverseRecOn with
  | nil => simp
  | append_singleton l t => simp

theorem firstNode_ne_head (tl : L) (l : List ThreadPtr) : firstNode tl l ≠ .head tl := by
  unfold firstNode
  cases l with
  | nil => simp
  | cons t l => simp

/-- The nodes around a place are not nodes of another list. -/
theorem Refines.untouched {d : TlCall.Contents L} (h : s.Refines d) {tl tl' : L} (htl : tl' ≠ tl) {t : ThreadPtr}
    (ht : t ∉ d tl') {x y : TlNode L} (hx : x ∈ nodes tl (d tl)) (hy : y ∈ nodes tl (d tl)) {s' : ThreadLists L}
    (hprev : ∀ tln, tln ≠ .thread t → tln ≠ y → s'.links.prev tln = s.links.prev tln)
    (hnext : ∀ tln, tln ≠ .thread t → tln ≠ x → s'.links.next tln = s.links.next tln)
    (hcount : s'.count tl' = s.count tl') : Untouched d tl' s s' := by
  have hne (tln : TlNode L) (hnode : NodeOf d tl' tln) : tln ≠ .thread t ∧ tln ≠ x ∧ tln ≠ y := by
    have hmem := mem_nodes_of_nodeOf hnode
    refine ⟨fun heq => ?_, fun heq => h.apart htl hx (heq ▸ hmem), fun heq => h.apart htl hy (heq ▸ hmem)⟩
    subst heq
    exact ht hnode
  refine ⟨fun tln hnode => ?_, fun tln hnode => ?_, hcount⟩
  · exact hprev tln (hne tln hnode).1 (hne tln hnode).2.2
  · exact hnext tln (hne tln hnode).1 (hne tln hnode).2.1

theorem nodeOf_congr {d d' : TlCall.Contents L} {tl : L} (h : d' tl = d tl) {tln : TlNode L} (hnode : NodeOf d tl tln) :
    NodeOf d' tl tln := by
  cases tln with
  | head tl' => exact hnode
  | tail tl' => exact hnode
  | thread t =>
    change t ∈ d' tl
    rw [h]
    exact hnode

theorem untouched_trans {d d' : TlCall.Contents L} {tl : L} {s s' s'' : ThreadLists L} (hd : d' tl = d tl) (h : Untouched d tl s s')
    (h' : Untouched d' tl s' s'') : Untouched d tl s s'' where
  prev tln hnode := (h'.prev tln (nodeOf_congr hd hnode)).trans (h.prev tln hnode)
  next tln hnode := (h'.next tln (nodeOf_congr hd hnode)).trans (h.next tln hnode)
  count := h'.count.trans h.count

theorem refines_init : (init : ThreadLists L).Refines fun _ => [] where
  forward _ := rfl
  backward _ := rfl
  ends _ := ⟨rfl, rfl⟩
  count _ := rfl
  nodup _ := List.nodup_nil
  unique _ _ _ h := absurd h List.not_mem_nil
  free _ _ := ⟨rfl, rfl⟩

/-! ### The steps on links -/

variable [DecidableEq L] {c : Prop} {Q : Unit → ThreadLists L → Prop} {E : Empty → ThreadLists L → Prop}

theorem insertafternode_wp {x y : TlNode L} {t : ThreadPtr} (hnext : s.links.next x = some y) (hx : x ≠ .thread t)
    (hQ : Q () { s with links := s.links.insert x (.thread t) y }) : (insertafternode x t).wp c Q E s := by
  simp only [insertafternode, linkNeighbours, setPrev, setNext, getPrev, getNext, wp_bind, wp_modify, wp_get, wp_pure, hnext,
    Function.update_self, Function.update_of_ne hx.symm, deref]
  exact hQ

theorem insertbeforenode_wp {x y : TlNode L} {t : ThreadPtr} (hprev : s.links.prev y = some x) (hx : x ≠ .thread t)
    (hQ : Q () { s with links := s.links.insert x (.thread t) y }) : (insertbeforenode t y).wp c Q E s := by
  simp only [insertbeforenode, linkNeighbours, setPrev, setNext, getPrev, getNext, wp_bind, wp_modify, wp_get, wp_pure, hprev,
    Function.update_self, Function.update_of_ne hx.symm, deref]
  exact hQ

theorem removenode_wp {x y tln : TlNode L} (hprev : s.links.prev tln = some x) (hnext : s.links.next tln = some y)
    (hx : x ≠ tln) (hQ : Q () { s with links := s.links.remove x tln y }) : (removenode tln).wp c Q E s := by
  simp only [removenode, setPrev, setNext, getPrev, getNext, wp_bind, wp_modify, wp_get, wp_pure, hprev, hnext,
    Function.update_of_ne hx.symm, deref]
  exact hQ

/-! ### What becomes of the lists -/

/-- A state that differs from `s` at the nodes of the list `tl` only, where it is chained. -/
theorem Refines.update {d : TlCall.Contents L} (h : s.Refines d) {tl : L} {l : List ThreadPtr} {s' : ThreadLists L}
    (hchain : s'.links.Chained (nodes tl l)) (hnodup : l.Nodup) (hnew : ∀ t ∈ l, ∀ tl', t ∈ d tl' → tl' = tl)
    (hends : s'.links.prev (.head tl) = none ∧ s'.links.next (.tail tl) = none) (hcount : (s'.count tl).toNat = l.length)
    (hother : ∀ tl' ≠ tl, Untouched d tl' s s')
    (hfree : ∀ t, (∀ tl' ≠ tl, t ∉ d tl') → t ∉ l → s'.links.prev (.thread t) = none ∧ s'.links.next (.thread t) = none) :
    s'.Refines (Function.update d tl l) := by
  have hchained (tl' : L) : s'.links.Chained (nodes tl' (Function.update d tl l tl')) := by
    by_cases htl : tl' = tl
    · subst htl
      rw [Function.update_self]
      exact hchain
    · rw [Function.update_of_ne htl]
      have hnode (tln : TlNode L) (hmem : tln ∈ nodes tl' (d tl')) : NodeOf d tl' tln := by
        rcases mem_nodes.mp hmem with rfl | rfl | ⟨t, ht, rfl⟩
        · exact rfl
        · exact rfl
        · exact ht
      refine (h.chained tl').congr (fun tln hmem => ?_) fun tln hmem => ?_
      · exact (hother tl' htl).next tln (hnode tln (List.dropLast_subset _ hmem))
      · exact (hother tl' htl).prev tln (hnode tln (List.mem_of_mem_tail hmem))
  refine ⟨fun tl' => (hchained tl').leads_next, fun tl' => (hchained tl').leads_prev, fun tl' => ?_, fun tl' => ?_,
    fun tl' => ?_, fun tl₁ tl₂ t h₁ h₂ => ?_, fun t ht => ?_⟩
  · by_cases htl : tl' = tl
    · subst htl
      exact hends
    · rw [(hother tl' htl).prev (.head tl') rfl, (hother tl' htl).next (.tail tl') rfl]
      exact h.ends tl'
  · by_cases htl : tl' = tl
    · subst htl
      rw [Function.update_self]
      exact hcount
    · rw [Function.update_of_ne htl, (hother tl' htl).count]
      exact h.count tl'
  · by_cases htl : tl' = tl
    · subst htl
      rw [Function.update_self]
      exact hnodup
    · rw [Function.update_of_ne htl]
      exact h.nodup tl'
  · by_cases htl₁ : tl₁ = tl
    · by_cases htl₂ : tl₂ = tl
      · rw [htl₁, htl₂]
      · rw [htl₁, Function.update_self] at h₁
        rw [Function.update_of_ne htl₂] at h₂
        exact absurd (hnew t h₁ tl₂ h₂) htl₂
    · rw [Function.update_of_ne htl₁] at h₁
      by_cases htl₂ : tl₂ = tl
      · rw [htl₂, Function.update_self] at h₂
        exact absurd (hnew t h₂ tl₁ h₁) htl₁
      · rw [Function.update_of_ne htl₂] at h₂
        exact h.unique tl₁ tl₂ t h₁ h₂
  · refine hfree t (fun tl' htl => ?_) ?_
    · have hnot := ht tl'
      rwa [Function.update_of_ne htl] at hnot
    · have hnot := ht tl
      rwa [Function.update_self] at hnot

/-- A thread comes between two parts of a list. -/
theorem Refines.inserted {d : TlCall.Contents L} (h : s.Refines d) {tl : L} {m₁ m₂ : List ThreadPtr} (hd : d tl = m₁ ++ m₂)
    {t : ThreadPtr} (ht : ∀ tl', t ∉ d tl') {s' : ThreadLists L}
    (hs' : s' = ⟨s.links.insert (lastNode tl m₁) (.thread t) (firstNode tl m₂),
      Function.update s.count tl (s.count tl + 1)⟩) :
    (s.links.next (lastNode tl m₁) = some (firstNode tl m₂) ∧ s.links.prev (firstNode tl m₂) = some (lastNode tl m₁) ∧
      lastNode tl m₁ ≠ .thread t) ∧
    s'.Refines (Function.update d tl (m₁ ++ t :: m₂)) ∧ ∀ tl' ≠ tl, Untouched d tl' s s' := by
  obtain ⟨p, q, hnodes⟩ := nodes_append tl m₁ m₂
  have hold : nodes tl (d tl) = p ++ lastNode tl m₁ :: firstNode tl m₂ :: q := by
    have h0 := hnodes []
    rwa [List.append_nil, ← hd] at h0
  have hnew : nodes tl (m₁ ++ t :: m₂) = p ++ lastNode tl m₁ :: .thread t :: firstNode tl m₂ :: q := by
    have h1 := hnodes [t]
    rwa [List.append_assoc] at h1
  have hchain := h.chained tl
  have hnodup := nodes_nodup tl (h.nodup tl)
  have hx : lastNode tl m₁ ∈ nodes tl (d tl) := by simp [hold]
  have hy : firstNode tl m₂ ∈ nodes tl (d tl) := by simp [hold]
  have hmem (t' : ThreadPtr) : TlNode.thread t' ∈ nodes tl (d tl) ↔ t' ∈ d tl := by simp [mem_nodes]
  have hlist : (m₁ ++ t :: m₂).Nodup := by
    have hnd := h.nodup tl
    rw [hd] at hnd
    refine List.nodup_middle.mpr (List.nodup_cons.mpr ⟨?_, hnd⟩)
    rw [← hd]
    exact ht tl
  have hcount := h.count tl
  have hlen := length_lt_of_nodup hlist
  have hlen' : (m₁ ++ t :: m₂).length = (d tl).length + 1 := by
    rw [hd]
    simp only [List.length_append, List.length_cons]
    omega
  rw [hold] at hchain hnodup
  have hat : TlNode.thread t ∉ p ++ lastNode tl m₁ :: firstNode tl m₂ :: q := by
    rw [← hold, hmem]
    exact ht tl
  have hother : ∀ tl' ≠ tl, Untouched d tl' s s' := by
    intro tl' htl
    subst hs'
    exact h.untouched htl (ht tl') hx hy (fun _ => Links.insert_prev_of_ne) (fun _ => Links.insert_next_of_ne)
      (Function.update_of_ne htl ..)
  refine ⟨⟨(Links.chained_split.mp hchain).2.1.1, (Links.chained_split.mp hchain).2.1.2, fun heq => ?_⟩, ?_, hother⟩
  · exact ht tl ((hmem t).mp (heq ▸ hx))
  · refine h.update ?_ hlist (fun t' ht' tl' hin => ?_) ⟨?_, ?_⟩ ?_ hother fun t' hfree hout => ?_
    · rw [hnew, hs']
      exact hchain.insert hnodup hat
    · rcases List.mem_append.mp ht' with hin₁ | hin₂
      · exact h.unique tl' tl t' hin (hd ▸ List.mem_append_left _ hin₁)
      · rcases List.mem_cons.mp hin₂ with rfl | hin₂
        · exact absurd hin (ht tl')
        · exact h.unique tl' tl t' hin (hd ▸ List.mem_append_right _ hin₂)
    · rw [hs']
      exact (Links.insert_prev_of_ne (by simp) (firstNode_ne_head tl m₂).symm).trans (h.ends tl).1
    · rw [hs']
      exact (Links.insert_next_of_ne (by simp) (lastNode_ne_tail tl m₁).symm).trans (h.ends tl).2
    · rw [hs']
      dsimp only
      rw [Function.update_self, UInt32.toNat_add, hcount, hlen']
      exact Nat.mod_eq_of_lt (by change (d tl).length + 1 < 4294967296; omega)
    · have hnot : t' ∉ d tl := fun hin => hout (by
        rw [hd] at hin
        simp only [List.mem_append, List.mem_cons] at hin ⊢
        tauto)
      have hne : TlNode.thread (L := L) t' ≠ .thread t := fun heq => hout (by
        rw [TlNode.thread.inj heq]
        simp)
      have hnodes' (z : TlNode L) (hz : z ∈ nodes tl (d tl)) : TlNode.thread t' ≠ z := fun heq =>
        hnot ((hmem t').mp (heq ▸ hz))
      have hwas := h.free t' fun tl' hin => by
        by_cases htl : tl' = tl
        · exact hnot (htl ▸ hin)
        · exact hfree tl' htl hin
      rw [hs']
      dsimp only
      rw [Links.insert_prev_of_ne hne (hnodes' _ hy), Links.insert_next_of_ne hne (hnodes' _ hx)]
      exact hwas

/-- A thread goes from between two parts of a list. -/
theorem Refines.removed {d : TlCall.Contents L} (h : s.Refines d) {tl : L} {m₁ m₂ : List ThreadPtr} {t : ThreadPtr}
    (hd : d tl = m₁ ++ t :: m₂) {s' : ThreadLists L}
    (hs' : s' = ⟨s.links.remove (lastNode tl m₁) (.thread t) (firstNode tl m₂),
      Function.update s.count tl (s.count tl - 1)⟩) :
    (s.links.prev (.thread t) = some (lastNode tl m₁) ∧ s.links.next (.thread t) = some (firstNode tl m₂) ∧
      lastNode tl m₁ ≠ .thread t) ∧
    s'.Refines (Function.update d tl (m₁ ++ m₂)) ∧ ∀ tl' ≠ tl, Untouched d tl' s s' := by
  obtain ⟨p, q, hnodes⟩ := nodes_append tl m₁ m₂
  have hold : nodes tl (d tl) = p ++ lastNode tl m₁ :: .thread t :: firstNode tl m₂ :: q := by
    have h1 := hnodes [t]
    rwa [List.append_assoc, List.singleton_append, ← hd] at h1
  have hnew : nodes tl (m₁ ++ m₂) = p ++ lastNode tl m₁ :: firstNode tl m₂ :: q := by
    have h0 := hnodes []
    rwa [List.append_nil] at h0
  have hchain := h.chained tl
  have hnodup := nodes_nodup tl (h.nodup tl)
  have hx : lastNode tl m₁ ∈ nodes tl (d tl) := by simp [hold]
  have hy : firstNode tl m₂ ∈ nodes tl (d tl) := by simp [hold]
  have hin : t ∈ d tl := by simp [hd]
  have hmem (t' : ThreadPtr) : TlNode.thread t' ∈ nodes tl (d tl) ↔ t' ∈ d tl := by simp [mem_nodes]
  have hnd := h.nodup tl
  rw [hd] at hnd
  obtain ⟨hout, hlist⟩ := List.nodup_cons.mp (List.nodup_middle.mp hnd)
  have hcount := h.count tl
  have hlen : (d tl).length = (m₁ ++ m₂).length + 1 := by
    rw [hd]
    simp only [List.length_append, List.length_cons]
    omega
  rw [hold] at hchain hnodup
  obtain ⟨-, hleft, hrest⟩ := Links.chained_split.mp hchain
  have hright := (List.isChain_cons_cons.mp hrest).1
  have hother : ∀ tl' ≠ tl, Untouched d tl' s s' := by
    intro tl' htl
    subst hs'
    exact h.untouched htl (fun hin' => htl (h.unique tl' tl t hin' hin)) hx hy (fun _ => Links.remove_prev_of_ne)
      (fun _ => Links.remove_next_of_ne) (Function.update_of_ne htl ..)
  refine ⟨⟨hleft.2, hright.1, (Links.ends_of_nodup hnodup).2.1⟩, ?_, hother⟩
  refine h.update ?_ hlist (fun t' ht' tl' hin' => ?_) ⟨?_, ?_⟩ ?_ hother fun t' hfree hnot => ?_
  · rw [hnew, hs']
    exact hchain.remove hnodup
  · refine h.unique tl' tl t' hin' ?_
    rw [hd]
    simp only [List.mem_append, List.mem_cons] at ht' ⊢
    tauto
  · rw [hs']
    exact (Links.remove_prev_of_ne (by simp) (firstNode_ne_head tl m₂).symm).trans (h.ends tl).1
  · rw [hs']
    exact (Links.remove_next_of_ne (by simp) (lastNode_ne_tail tl m₁).symm).trans (h.ends tl).2
  · rw [hs']
    dsimp only
    rewrite [Function.update_self, UInt32.toNat_sub_of_le _ _ (UInt32.le_iff_toNat_le.mpr (by change 1 ≤ (s.count tl).toNat; omega)),
      hcount, hlen]
    rfl
  · rw [hs']
    by_cases heq : t' = t
    · subst heq
      exact ⟨Function.update_self .., Function.update_self ..⟩
    · have hnot' : t' ∉ d tl := fun hin' => hnot (by
        rw [hd] at hin'
        simp only [List.mem_append, List.mem_cons] at hin' ⊢
        tauto)
      have hne : TlNode.thread (L := L) t' ≠ .thread t := fun h' => heq (TlNode.thread.inj h')
      have hnodes' (z : TlNode L) (hz : z ∈ nodes tl (d tl)) : TlNode.thread t' ≠ z := fun h' =>
        hnot' ((hmem t').mp (h' ▸ hz))
      have hwas := h.free t' fun tl' hin' => by
        by_cases htl : tl' = tl
        · exact hnot' (htl ▸ hin')
        · exact hfree tl' htl hin'
      dsimp only
      rw [Links.remove_prev_of_ne hne (hnodes' _ hy), Links.remove_next_of_ne hne (hnodes' _ hx)]
      exact hwas

end ThreadLists

namespace TlCall

open ThreadLists

variable {L : Type} [DecidableEq L] {s : ThreadLists L} {d : Contents L}

theorem insertIdx_append_length (l m : List ThreadPtr) (t : ThreadPtr) : (l ++ m).insertIdx l.length t = l ++ t :: m := by
  induction l with
  | nil => rfl
  | cons x l ih => rw [List.cons_append, List.length_cons, List.insertIdx_succ_cons, ih, List.cons_append]

theorem idxOf_append_self {l m : List ThreadPtr} {t : ThreadPtr} (h : t ∉ l) : (l ++ t :: m).idxOf t = l.length := by
  rw [List.idxOf_append_of_notMem h, List.idxOf_cons_self, Nat.add_zero]

/-- What a call does, when what it is told about lists is true. -/
def Right (call : TlCall L) (d : Contents L) (s : ThreadLists L) (r : Option ThreadPtr) (s' : ThreadLists L) : Prop :=
  r = call.result d ∧ s'.Refines (call.after d) ∧ ∀ tl ≠ call.list, Untouched d tl s s'

/-- A call that finds nothing to remove. -/
theorem right_of_empty (h : s.Refines d) {call : TlCall L} {r : Option ThreadPtr} (hnone : r = none) (hr : call.result d = none)
    (hseq : call.seqAfter (d call.list) = d call.list) : call.Right d s r s := by
  refine ⟨hnone.trans hr.symm, ?_, fun _ _ => ⟨fun _ _ => rfl, fun _ _ => rfl, rfl⟩⟩
  rw [after, hseq, Function.update_eq_self]
  exact h

theorem run_wp (h : s.Refines d) (call : TlCall L) (hcall : call.Respects d) :
    call.run.wp False (call.Right d s) (fun _ _ => False) s := by
  cases call with
  | addhead tl t =>
    obtain ⟨⟨hnext, -, hne⟩, hins, hother⟩ := h.inserted (List.nil_append (d tl)).symm hcall rfl
    rw [run, wp_bind, ThreadLists.addhead, wp_bind]
    refine insertafternode_wp hnext hne ?_
    rw [setCount, wp_modify, wp_pure]
    exact ⟨rfl, hins, hother⟩
  | addtail tl t =>
    obtain ⟨⟨-, hprev, hne⟩, hins, hother⟩ := h.inserted (List.append_nil (d tl)).symm hcall rfl
    rw [run, wp_bind, ThreadLists.addtail, wp_bind]
    refine insertbeforenode_wp hprev hne ?_
    rw [setCount, wp_modify, wp_pure]
    exact ⟨rfl, hins, hother⟩
  | remhead tl =>
    have hforward := h.forward tl
    have hends := h.ends tl
    rw [run, ThreadLists.remhead, wp_bind, getNext, wp_bind, wp_get, wp_pure, wp_bind]
    cases hd : d tl with
    | nil =>
      rw [hd] at hforward
      rw [show s.links.next (.head tl) = some (.tail tl) from hforward, deref, wp_pure, wp_bind, getNext, wp_bind, wp_get,
        wp_pure, if_pos hends.2, wp_pure]
      exact right_of_empty h rfl (by rw [result, hd]; rfl) (by rw [seqAfter, list, hd]; rfl)
    | cons t l =>
      obtain ⟨⟨hprev, hnext, hne⟩, hrem, hother⟩ := h.removed (hd.trans (List.nil_append _).symm) rfl
      rw [hd] at hforward
      rw [show s.links.next (.head tl) = some (.thread t) from hforward.1, deref, wp_pure, wp_bind, getNext, wp_bind, wp_get,
        wp_pure, hnext, if_neg (by simp), wp_bind]
      refine removenode_wp hprev hnext hne ?_
      rw [wp_bind, setCount, wp_modify, wp_pure]
      refine ⟨by rw [result, hd]; rfl, ?_, hother⟩
      rw [after, seqAfter, list, hd]
      exact hrem
  | remtail tl =>
    have hbackward := h.backward tl
    have hends := h.ends tl
    rw [run, ThreadLists.remtail, wp_bind, getPrev, wp_bind, wp_get, wp_pure, wp_bind]
    rcases List.eq_nil_or_concat (d tl) with hd | ⟨l, t, hd⟩
    · rw [hd] at hbackward
      rw [show s.links.prev (.tail tl) = some (.head tl) from hbackward, deref, wp_pure, wp_bind, getPrev, wp_bind, wp_get,
        wp_pure, if_pos hends.1, wp_pure]
      exact right_of_empty h rfl (by rw [result, hd]; rfl) (by rw [seqAfter, list, hd]; rfl)
    · rw [List.concat_eq_append] at hd
      obtain ⟨⟨hprev, hnext, hne⟩, hrem, hother⟩ := h.removed hd rfl
      rw [hd, List.map_append, List.reverse_append] at hbackward
      rw [show s.links.prev (.tail tl) = some (.thread t) from hbackward.1, deref, wp_pure, wp_bind, getPrev, wp_bind, wp_get,
        wp_pure, hprev, if_neg (by simp), wp_bind]
      refine removenode_wp hprev hnext hne ?_
      rw [wp_bind, setCount, wp_modify, wp_pure]
      refine ⟨by rw [result, hd, List.getLast?_concat]; rfl, ?_, hother⟩
      rw [after, seqAfter, list, hd, List.dropLast_concat]
      rw [List.append_nil] at hrem
      exact hrem
  | insertafter tl onlist addee =>
    obtain ⟨m₁, m₂, hd, hout⟩ := h.split_of_mem hcall.1
    have hlast : lastNode tl (m₁ ++ [onlist]) = .thread onlist := by simp [lastNode]
    have hseq : (d tl).insertIdx ((d tl).idxOf onlist + 1) addee = m₁ ++ [onlist] ++ addee :: m₂ := by
      have hidx := insertIdx_append_length (m₁ ++ [onlist]) m₂ addee
      rw [List.length_append, List.length_singleton, List.append_assoc, List.singleton_append] at hidx
      rw [hd, idxOf_append_self hout, hidx, List.append_assoc, List.singleton_append]
    obtain ⟨⟨hnext, -, hne⟩, hins, hother⟩ := h.inserted (hd.trans (List.append_cons m₁ onlist m₂)) hcall.2 rfl
    rw [hlast] at hnext hne
    rw [run, wp_bind, ThreadLists.insertafter, wp_bind]
    refine insertafternode_wp hnext hne ?_
    rw [setCount, wp_modify, wp_pure]
    rw [hlast] at hins hother
    refine ⟨rfl, ?_, hother⟩
    rw [after, seqAfter, list, hseq]
    exact hins
  | insertbefore tl addee onlist =>
    obtain ⟨m₁, m₂, hd, hout⟩ := h.split_of_mem hcall.1
    have hseq : (d tl).insertIdx ((d tl).idxOf onlist) addee = m₁ ++ addee :: onlist :: m₂ := by
      rw [hd, idxOf_append_self hout, insertIdx_append_length]
    obtain ⟨⟨-, hprev, hne⟩, hins, hother⟩ := h.inserted hd hcall.2 rfl
    rw [run, wp_bind, ThreadLists.insertbefore, wp_bind]
    refine insertbeforenode_wp hprev hne ?_
    rw [setCount, wp_modify, wp_pure]
    refine ⟨rfl, ?_, hother⟩
    rw [after, seqAfter, list, hseq]
    exact hins
  | remove tl t =>
    obtain ⟨m₁, m₂, hd, hout⟩ := h.split_of_mem hcall
    have hseq : (d tl).erase t = m₁ ++ m₂ := by
      rw [hd, List.erase_append_right _ hout, List.erase_cons_head]
    obtain ⟨⟨hprev, hnext, hne⟩, hrem, hother⟩ := h.removed hd rfl
    rw [run, wp_bind, ThreadLists.remove, wp_bind]
    refine removenode_wp hprev hnext hne ?_
    rw [setCount, wp_modify, wp_pure]
    refine ⟨rfl, ?_, hother⟩
    rw [after, seqAfter, list, hseq]
    exact hrem

/-- Call after call, behind the results so far. -/
theorem runAll_from (calls : List (TlCall L)) (h : s.Refines d) (hcalls : AllRespect d calls) (rs : List (Option ThreadPtr)) :
    (calls.foldlM (fun rs call => do
        let r ← call.run
        pure (rs ++ [r])) rs : TlM L _).wp False
      (fun rs' t => rs' = rs ++ results d calls ∧ t.Refines (afterAll d calls) ∧
        ∀ tl, (∀ call ∈ calls, call.list ≠ tl) → Untouched d tl s t) (fun _ _ => False) s := by
  induction calls generalizing s d rs with
  | nil => exact ⟨(List.append_nil rs).symm, h, fun tl _ => ⟨fun _ _ => rfl, fun _ _ => rfl, rfl⟩⟩
  | cons call calls ih =>
    rw [List.foldlM_cons, wp_bind, wp_bind]
    refine (run_wp h call hcalls.1).mono (fun r s' hright => ?_) fun _ _ hno => hno
    obtain ⟨hr, hs', hother⟩ := hright
    rw [wp_pure]
    refine (ih hs' hcalls.2 (rs ++ [r])).mono (fun rs' t hrest => ?_) fun _ _ hno => hno
    obtain ⟨hrs, href, huntouched⟩ := hrest
    refine ⟨?_, href, fun tl htl => ?_⟩
    · rw [hrs, hr, List.append_assoc, results, List.singleton_append]
    · rw [List.forall_mem_cons] at htl
      exact untouched_trans (Function.update_of_ne htl.1.symm ..) (hother tl htl.1.symm) (huntouched tl htl.2)

/-- Every sequence of calls that respects membership returns what it should and leaves lists
that refine what the calls make of the sequences; lists that no call names are not touched. -/
theorem threadlists_refine_sequences (s : ThreadLists L) (d : Contents L) (h : s.Refines d) (calls : List (TlCall L))
    (hcalls : AllRespect d calls) : ∃ t, runAll calls s = .ok (results d calls) t ∧ t.Refines (afterAll d calls) ∧
      ∀ tl, (∀ call ∈ calls, call.list ≠ tl) → Untouched d tl s t := by
  rcases (runAll_from calls h hcalls []).cases with ⟨rs, t, hok, hrs, hrest⟩ | ⟨e, _⟩ | ⟨_, hno⟩
  · refine ⟨t, ?_, hrest⟩
    rw [runAll, hok, hrs, List.nil_append]
  · exact e.elim
  · exact hno.elim

def threadA : ThreadPtr := ⟨4, by decide⟩

def threadB : ThreadPtr := ⟨8, by decide⟩

/-- Two lists of new threads, where one goes from the first list to the second. -/
theorem threadlists_refine_moves : (init : ThreadLists Bool).Refines (fun _ => []) ∧
    AllRespect (fun _ => []) [addtail false threadB, addhead false threadA, remhead false, addtail true threadA] ∧
    ∃ t, runAll [addtail false threadB, addhead false threadA, remhead false, addtail true threadA] init =
        .ok [none, none, some threadA, none] t ∧
      t.Refines (afterAll (fun _ => []) [addtail false threadB, addhead false threadA, remhead false, addtail true threadA]) := by
  have hcalls : AllRespect (fun _ : Bool => [])
      [addtail false threadB, addhead false threadA, remhead false, addtail true threadA] := by
    refine ⟨?_, ?_, trivial, ?_, trivial⟩
    · exact fun _ => List.not_mem_nil
    · change ∀ tl, _
      decide
    · change ∀ tl, _
      decide
  obtain ⟨t, ht, href, -⟩ := threadlists_refine_sequences init (fun _ => []) refines_init _ hcalls
  exact ⟨refines_init, hcalls, t, ht, href⟩

end TlCall

end Os161
