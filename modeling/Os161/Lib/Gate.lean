import Os161.Lib.Run

/-! A counter and a FIFO of sleepers that are tested, taken and posted in atomic
sections, with Mesa wakeups: a thread taken off the FIFO is only *woken*, and
tests the counter again in a section of its own. The counter is a machine word
of `width` bits and a post that would wrap it is refused. -/

namespace Os161

variable {T : Type*}

structure Gate (T : Type*) where
  count : ℕ
  asleep : List T
  /-- taken off the FIFO, not yet back at the test -/
  woken : List T
  deriving DecidableEq

namespace Gate

def sleep (g : Gate T) (t : T) : Gate T := { g with asleep := g.asleep ++ [t] }

def wakeOne (g : Gate T) : Gate T :=
  match g.asleep with
  | [] => g
  | t :: ts => { g with asleep := ts, woken := g.woken ++ [t] }

/-- One test by `t`: it takes a unit, or goes to the tail of the FIFO. -/
def test (g : Gate T) (t : T) : Gate T :=
  if g.count = 0 then g.sleep t else { g with count := g.count - 1 }

/-- A unit comes back, and the head of the FIFO is woken. -/
def post (width : ℕ) (g : Gate T) : Option (Gate T) :=
  let c := (g.count + 1) % 2 ^ width
  if c = 0 then none else some ({ g with count := c } : Gate T).wakeOne

/-- `t` is inside the operation: asleep, or woken and about to test again. -/
def Waiting (g : Gate T) (t : T) : Prop := t ∈ g.asleep ∨ t ∈ g.woken

instance [DecidableEq T] (g : Gate T) (t : T) : Decidable (g.Waiting t) :=
  inferInstanceAs (Decidable (_ ∨ _))

/-- A woken thread leaves the waiting set to make its test. -/
def resume [DecidableEq T] (g : Gate T) (t : T) : Gate T := { g with woken := g.woken.erase t }

theorem test_zero {g : Gate T} {t : T} (h : g.count = 0) : g.test t = g.sleep t := if_pos h

theorem test_pos {g : Gate T} {t : T} (h : g.count ≠ 0) :
    g.test t = { g with count := g.count - 1 } := if_neg h

@[simp] theorem wakeOne_count (g : Gate T) : g.wakeOne.count = g.count := by
  unfold wakeOne; split <;> rfl

/-- All a wakeup can do: nothing on an empty FIFO, else its head is now woken. -/
theorem wakeOne_cases (g : Gate T) :
    (g.asleep = [] ∧ g.wakeOne.asleep = [] ∧ g.wakeOne.woken = g.woken) ∨
      ∃ t, g.asleep = t :: g.wakeOne.asleep ∧ g.wakeOne.woken = g.woken ++ [t] := by
  unfold wakeOne
  cases h : g.asleep with
  | nil => exact Or.inl ⟨rfl, h, rfl⟩
  | cons t ts => exact Or.inr ⟨t, rfl, rfl⟩

/-- All a post can do: the counter goes up by one without wrapping, and the head
of the FIFO is woken. -/
theorem post_cases {width : ℕ} {g g' : Gate T} (hw : g.count < 2 ^ width) (h : g.post width = some g') :
    g.count + 1 < 2 ^ width ∧ g' = ({ g with count := g.count + 1 } : Gate T).wakeOne := by
  have hlt : g.count + 1 < 2 ^ width := by
    by_contra hge
    have heq : g.count + 1 = 2 ^ width := by omega
    simp [post, heq] at h
  simp only [post, Nat.mod_eq_of_lt hlt, Nat.succ_ne_zero, ite_false, Option.some.injEq] at h
  exact ⟨hlt, h.symm⟩

theorem waiting_wakeOne (g : Gate T) (t : T) : g.wakeOne.Waiting t ↔ g.Waiting t := by
  rcases g.wakeOne_cases with ⟨h, h1, h2⟩ | ⟨u, h1, h2⟩
  · simp only [Waiting, h, h1, h2]
  · simp only [Waiting, h1, h2, List.mem_cons, List.mem_append, List.not_mem_nil, or_false]
    tauto

/-- Nobody waits twice. -/
def Distinct (g : Gate T) : Prop := (g.asleep ++ g.woken).Nodup

theorem Distinct.wakeOne {g : Gate T} (h : g.Distinct) : g.wakeOne.Distinct := by
  rcases g.wakeOne_cases with ⟨h0, h1, h2⟩ | ⟨u, h1, h2⟩
  · rwa [Distinct, h1, h2, ← h0]
  · rw [Distinct, h2, ← List.append_assoc, (List.perm_append_singleton u _).nodup_iff]
    rwa [Distinct, h1] at h

theorem Distinct.sleep {g : Gate T} (h : g.Distinct) {t : T} (ht : ¬ g.Waiting t) :
    (g.sleep t).Distinct := by
  have hp : (g.asleep ++ [t] ++ g.woken).Perm (t :: (g.asleep ++ g.woken)) := by
    rw [List.append_assoc, List.singleton_append]
    exact List.perm_middle
  rw [Distinct, Gate.sleep, hp.nodup_iff, List.nodup_cons, List.mem_append]
  exact ⟨ht, h⟩

theorem Distinct.resume [DecidableEq T] {g : Gate T} (h : g.Distinct) (t : T) : (g.resume t).Distinct :=
  h.sublist (List.Sublist.append_left (List.erase_sublist) _)

theorem Distinct.not_waiting_resume [DecidableEq T] {g : Gate T} (h : g.Distinct) {t : T}
    (ht : t ∈ g.woken) : ¬ (g.resume t).Waiting t := by
  obtain ⟨-, hw, hd⟩ := List.nodup_append.mp h
  rintro (ha | hr)
  · exact hd t ha t ht rfl
  · exact absurd hr (hw.not_mem_erase)

/-- No wakeup is lost: while somebody sleeps, the units there are have all been
announced to threads that are still on their way. -/
def NoLostWakeup (g : Gate T) : Prop := g.asleep ≠ [] → g.count ≤ g.woken.length

theorem NoLostWakeup.test {g : Gate T} (h : g.NoLostWakeup) (t : T) : (g.test t).NoLostWakeup := by
  intro hne
  by_cases hc : g.count = 0
  · rw [test_zero hc]; simp [sleep, hc]
  · rw [test_pos hc] at hne ⊢
    have := h hne
    simp only at this ⊢
    omega

/-- A woken thread that tests again: either it takes one of the units that were
announced, or there is none left and the bound is trivial. -/
theorem NoLostWakeup.retest [DecidableEq T] {g : Gate T} (h : g.NoLostWakeup) {t : T}
    (ht : t ∈ g.woken) : ((g.resume t).test t).NoLostWakeup := by
  intro hne
  by_cases hc : g.count = 0
  · rw [test_zero (g := g.resume t) hc]; simp [sleep, resume, hc]
  · rw [test_pos (g := g.resume t) hc] at hne ⊢
    have := h hne
    simp only [resume, List.length_erase_of_mem ht]
    omega

/-- A post raises both sides of the bound, unless it empties the FIFO. -/
theorem NoLostWakeup.post {width : ℕ} {g g' : Gate T} (h : g.NoLostWakeup) (hw : g.count < 2 ^ width)
    (hp : g.post width = some g') : g'.NoLostWakeup := by
  obtain ⟨-, rfl⟩ := post_cases hw hp
  intro hne
  rcases wakeOne_cases ({ g with count := g.count + 1 } : Gate T) with ⟨-, h1, -⟩ | ⟨t, h1, h2⟩
  · exact absurd h1 hne
  · have hle : g.count ≤ g.woken.length := h (by rw [show g.asleep = _ from h1]; simp)
    rw [wakeOne_count, h2, List.length_append, List.length_singleton]
    exact Nat.add_le_add_right hle 1

end Gate

end Os161
