import Os161.Spec.Thread

/-! One call of `thread_consider_migration` on CPU `c`. It runs with interrupts off; between
its sections under the run queue locks the other CPUs add threads to any run queue and take
threads off their own. -/

namespace Os161

variable {T W : Type*} {n : ℕ}

/-- The call, with the threads it has taken off its run queue and their `t_cpu` then, and
those it has put on a run queue: the thread, the CPU of the queue, and `t_cpu` then. -/
structure Migration (T W : Type*) (n : ℕ) where
  sys : ThreadSys T W n
  taken : List (T × Fin n)
  placed : List (T × Fin n × Fin n)

inductive MigrationEv (T : Type*) (n : ℕ) where
  /-- the next section of the call -/
  | next
  /-- another CPU puts a thread on a run queue -/
  | add (d : Fin n) (t : T)
  /-- another CPU takes the thread at `i` off its own run queue -/
  | remove (d : Fin n) (i : ℕ)

/-- What a section has put on the run queue of `d`. -/
def ThreadSys.newOn (s s' : ThreadSys T W n) (d : Fin n) : List (T × Fin n × Fin n) :=
  ((s'.cpu d).runqueue.drop (s.cpu d).runqueue.length).map fun t => (t, d, (s'.thread t).tCpu)

/-- What a section has taken off the run queue of `c`. -/
def ThreadSys.tookOff (s s' : ThreadSys T W n) (c : Fin n) : List (T × Fin n) :=
  (s'.cpu c).op.held.map fun t => (t, (s.thread t).tCpu)

variable [DecidableEq T] [DecidableEq W]

/-- The thread is ready and on the run queue of its CPU. -/
def ThreadSys.addTo (s : ThreadSys T W n) (d : Fin n) (t : T) : ThreadSys T W n :=
  { s.setCpu d { s.cpu d with runqueue := (s.cpu d).runqueue ++ [t] } with
    thread := Function.update s.thread t ⟨.ready, d⟩ }

def ThreadSys.removeFrom (s : ThreadSys T W n) (d : Fin n) (i : ℕ) : ThreadSys T W n :=
  s.setCpu d { s.cpu d with runqueue := (s.cpu d).runqueue.eraseIdx i }

/-- After a section of the call. -/
def Migration.after (c : Fin n) (m : Migration T W n) (s' : ThreadSys T W n) : Migration T W n :=
  match (m.sys.cpu c).op with
  | .taking _ _ => ⟨s', m.taken ++ m.sys.tookOff s' c, m.placed⟩
  | .sending (d :: _) _ _ _ => ⟨s', m.taken, m.placed ++ m.sys.newOn s' d⟩
  | .sending [] _ _ _ => ⟨s', m.taken, m.placed ++ m.sys.newOn s' c⟩
  | _ => ⟨s', m.taken, m.placed⟩

/-- A thread that another CPU puts on a run queue is on no list. -/
def migrationStep (c : Fin n) (m : Migration T W n) : MigrationEv T n → Option (Migration T W n)
  | .next => (threadStep m.sys (.migrateNext c)).map (m.after c)
  | .add d t =>
    if t ∈ (m.sys.cpu c).op.held ∨ ∃ e, t ∈ (m.sys.cpu e).runqueue then none
    else some { m with sys := m.sys.addTo d t }
  | .remove d i => if d = c then none else some { m with sys := m.sys.removeFrom d i }

/-- The call begins, whatever is on the run queues. -/
def Migration.enter (c : Fin n) (s : ThreadSys T W n) : Migration T W n :=
  ⟨s.setOp c (.counting (List.finRange n) 0 0), [], []⟩

/-- The sections that the call has still to make, at most. -/
def CpuOp.left : CpuOp T n → ℕ
  | .counting todo _ _ => todo.length + n + 3
  | .taking _ _ => n + 2
  | .sending todo _ _ _ => todo.length + 1
  | _ => 0

/-- `to_send`, once it has a value. -/
def CpuOp.toSend : CpuOp T n → Option ℕ
  | .taking _ toSend => some toSend
  | .sending _ _ toSend _ => some toSend
  | _ => Option.none

/-- What is to hold whenever no section is in progress. -/
structure Migration.Right (c : Fin n) (m : Migration T W n) : Prop where
  /-- the next section does not take a thread off an empty list -/
  goesOn : (m.sys.cpu c).op ≠ .none → (threadStep m.sys (.migrateNext c)).isSome = true
  /-- a thread was put on the run queue of another CPU, which is its CPU now, or back on the
  CPU's own as it was -/
  places : ∀ p ∈ m.placed, (p.2.1 ≠ c ∧ p.2.2 = p.2.1 ∧ p.1 ≠ (m.sys.cpu c).curthread) ∨
    (p.2.1 = c ∧ (p.1, p.2.2) ∈ m.taken)
  /-- every thread that was taken was put somewhere, or is still among the victims -/
  all : (m.taken.map Prod.fst).Perm ((m.sys.cpu c).op.held ++ m.placed.map Prod.fst)

/-- Each section brings the call nearer to its end. `to_send` does not wrap: it is the
exact difference at first, and then it only goes down. -/
structure Migration.Advances (c : Fin n) (m m' : Migration T W n) : Prop where
  left : (m'.sys.cpu c).op.left < (m.sys.cpu c).op.left
  exact : ∀ my total share toSend, (m.sys.cpu c).op = .counting [] my total →
    (m'.sys.cpu c).op = .taking share toSend → share + toSend = my
  down : ∀ toSend toSend', (m.sys.cpu c).op.toSend = some toSend → (m'.sys.cpu c).op.toSend = some toSend' →
    toSend' ≤ toSend

end Os161
