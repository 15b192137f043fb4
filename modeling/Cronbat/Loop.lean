import Cronbat.Scheduler
import Cronbat.Activation
import Cronbat.Accepted

/-! The scheduler's goroutine and its timer on one clock: `Start`, `Stop`, the `select` of
`run`, and `resetTimerLocked`, interleaved with `AddJob` and `RemoveJob` from other goroutines and
with the Go runtime firing the timer. Each critical section under `s.mu` is one step; the timer's
own firing commutes with them, since a section only stops and resets the timer. The clock is one
reading that never goes back (`tick`): the wall clock `NextTime` reads and the monotonic clock of
the timer are one. This is what the goroutine runs while the two clocks keep in step:
`Cronbat.MonotonicLoop` models both, and read through the wall clock each of its steps from a
steady state is a step here (`MonotonicLoop.step_abs`).

The Go timer is modelled under both semantics of its channel: before Go 1.23 `Stop` and
`Reset` leave a value already sent to `C` in place, so the goroutine can receive a stale one;
since Go 1.23 they discard it (`sync`). Every result holds under both.

1. **The loop runs the queue model.** `Reachable.queue`: the heap of every reachable state is
   the queue of `Scheduler.run` after some sequence of its calls (`step_heap` names the call of
   each step), so `Valid` and every fact of the queue model hold of the running scheduler.
2. **No lost wake-up.** `Armed`: while the goroutine waits in the `select` or calls `fire`, a
   value waits in `C` or the timer is armed no later than the root's `nextRun` (or the present
   reading, when that has passed). It holds in every reachable state (`Reachable.inv`), so a
   due root always has a timer event enabled (`due_root_wakes`).
3. **Progress.** From every reachable state in which the goroutine waits, the goroutine, the
   timer and the clock alone fire the root's job when the clock reaches its `nextRun`, or at
   once if that has passed (`root_fires_on_time`). The run never receives from `reset`: the
   goroutine selects on the same timer's channel after every `Reset`, so the signal is not
   needed for it.
4. **Fire times.** Every stored `nextRun` is what `NextTime` gave at an earlier reading
   (`stored_nextRun_activates`), and a job fires again only at a later reading
   (`fires_again_later`).

What is not assumed: fairness of `select`. Progress is the existence of a run, not that every
run takes it. -/
namespace Cronbat.Loop
open Cronbat Cronbat.Cron Cronbat.Heap Cronbat.Heap.EntryHeap Cronbat.Scheduler

/-- A `*time.Timer` made by `time.NewTimer`: the deadline it is armed for, if any, and the value
waiting in its channel `C`. -/
structure Timer where
  deadline : Option Time
  c : Option Time
  deriving DecidableEq, Repr

section Semantics
-- `sync`: since Go 1.23, `Stop` and `Reset` discard a value sent to `C` and not yet received.
variable (sync : Bool)

/-- `t.Stop()`. -/
def Timer.stop (t : Timer) : Timer := { deadline := none, c := if sync then none else t.c }

/-- `t.Reset(d)` at clock reading `now`. -/
def Timer.reset (t : Timer) (now : Time) (d : Int) : Timer :=
  { deadline := some (now.add d), c := if sync then none else t.c }

/-- The runtime firing the timer at reading `now`: its send into `C` is dropped when `C`
already holds a value. -/
def Timer.expire (t : Timer) (now : Time) : Timer := { deadline := none, c := some (t.c.getD now) }

/-- Where the goroutine of `run` stands. -/
inductive Pc where
  /-- `Start` has not launched it. -/
  | idle
  /-- Blocked in the `select`. -/
  | select
  /-- Received from `s.timer.C`, not yet holding `s.mu`. -/
  | woken
  /-- Calling `s.fire(jobName)` after unlocking `s.mu`. -/
  | firing (jobName : String)
  /-- Returned after `<-s.done`. -/
  | exited
  deriving DecidableEq, Repr

/-- A `Scheduler` and its goroutine: the heap and timer under `s.mu`, whether the buffered
`reset` channel holds a signal, whether `done` is closed, where `run` stands, and the clock. -/
structure State where
  heap : EntryHeap
  timer : Option Timer
  reset : Bool
  done : Bool
  pc : Pc
  now : Time

/-- `NewScheduler`, at clock reading `now`. -/
def init (now : Time) : State := ⟨[], none, false, false, .idle, now⟩

/-- `resetTimerLocked`: nothing before `Start`; otherwise the timer is stopped and, when the
heap has a root, reset to fire `time.Until(root.nextRun)` from now (at once when that has
passed), and the goroutine is signalled on `reset` without blocking. -/
def resetTimerLocked (st : State) : State :=
  match st.timer with
  | none => st
  | some t =>
    let t := t.stop sync
    match st.heap[0]? with
    | none => { st with timer := some t }
    | some e =>
      let d := e.nextRun.unixNano - st.now.unixNano
      let d := if d < 0 then 0 else d
      { st with timer := some (t.reset sync st.now d), reset := true }

/-- The `<-s.timer.C` case of `run`, under `s.mu`: nothing on an empty heap; otherwise the
queue's `wake` (a spurious wake when the root is not due), then `resetTimerLocked`, and the
fired job is called after unlocking. -/
def timerCase (st : State) : State :=
  match st.heap[0]? with
  | none => { st with pc := .select }
  | some _ =>
    let (heap, fired) := wake st.heap st.now
    { resetTimerLocked sync { st with heap } with
      pc := match fired with
        | some name => .firing name
        | none => .select }

/-- What can happen next: a call from another goroutine, the clock moving on, the runtime
firing the timer, or a step of the goroutine of `run`. -/
inductive Act where
  | addJob (name : String) (schedule : Schedule)
  | removeJob (name : String)
  | start
  | stop
  | tick (now : Time)
  | expire
  | recvDone
  | recvReset
  | recvTimer
  | timerCase
  | fired

/-- The steps of the goroutine, the timer and the clock, with no call from outside. -/
def Act.internal : Act → Bool
  | .tick _ | .expire | .recvTimer | .timerCase => true
  | _ => false

/-- One step, or `none` when the action cannot happen in `st`. `Start` is taken once, as the
daemon calls it; `Stop` closes `done` once, as a second close would panic. -/
def step (st : State) : Act → Option State
  | .addJob name schedule => some (resetTimerLocked sync { st with heap := addJob st.heap name schedule st.now })
  | .removeJob name => some (resetTimerLocked sync { st with heap := removeJob st.heap name })
  | .start =>
    if st.pc = .idle then some { resetTimerLocked sync { st with timer := some ⟨none, none⟩ } with pc := .select }
    else none
  | .stop => if st.done then none else some { st with done := true }
  | .tick now => if st.now ≤ now then some { st with now } else none
  | .expire =>
    match st.timer with
    | some t => match t.deadline with
      | some d => if d ≤ st.now then some { st with timer := some (t.expire st.now) } else none
      | none => none
    | none => none
  | .recvDone =>
    if st.pc = .select ∧ st.done then some { st with timer := st.timer.map (Timer.stop sync), pc := .exited }
    else none
  | .recvReset => if st.pc = .select ∧ st.reset then some { st with reset := false } else none
  | .recvTimer =>
    match st.pc, st.timer with
    | .select, some t => if t.c.isSome then some { st with timer := some { t with c := none }, pc := .woken } else none
    | _, _ => none
  | .timerCase => if st.pc = .woken then some (timerCase sync st) else none
  | .fired =>
    match st.pc with
    | .firing _ => some { st with pc := .select }
    | _ => none

/-- A sequence of steps, each of which must be able to happen. -/
def steps (st : State) : List Act → Option State
  | [] => some st
  | a :: acts =>
    match step sync st a with
    | some st' => steps st' acts
    | none => none

/-- The states the scheduler reaches from `NewScheduler`. -/
inductive Reachable : State → Prop where
  | init (now : Time) : Reachable (init now)
  | step {st st' : State} (a : Act) : Reachable st → step sync st a = some st' → Reachable st'

theorem step_tick {st : State} {now : Time} (later : st.now ≤ now) : step sync st (.tick now) = some { st with now } :=
  if_pos later

theorem step_expire (st : State) {t : Timer} {d : Time} (timer : st.timer = some t) (deadline : t.deadline = some d)
    (reached : d ≤ st.now) : step sync st .expire = some { st with timer := some (t.expire st.now) } := by
  simp only [step, timer, deadline, if_pos reached]

theorem step_recvTimer {st : State} {t : Timer} (waiting : st.pc = .select) (timer : st.timer = some t)
    (value : t.c.isSome) : step sync st .recvTimer = some { st with timer := some { t with c := none }, pc := .woken } := by
  simp only [step, waiting, timer, if_pos value]

theorem steps_append (st : State) (as bs : List Act) :
    steps sync st (as ++ bs) = (steps sync st as).bind (steps sync · bs) := by
  induction as generalizing st with
  | nil => rfl
  | cons a as ih =>
    simp only [List.cons_append, steps]
    cases step sync st a <;> simp [ih]

theorem Reachable.steps {st st' : State} (r : Reachable sync st) :
    ∀ {acts}, Loop.steps sync st acts = some st' → Reachable sync st'
  | [], run => by cases run; exact r
  | a :: acts, run => by
    simp only [Loop.steps] at run
    split at run
    · exact Reachable.steps (r.step a ‹_›) run
    · cases run

/-! ## What `resetTimerLocked` touches -/

theorem resetTimerLocked_eq (st : State) :
    ∃ timer reset, resetTimerLocked sync st = { st with timer, reset } ∧ (st.timer.isSome → timer.isSome) := by
  unfold resetTimerLocked
  split
  · exact ⟨_, _, rfl, id⟩
  · split
    · exact ⟨_, _, rfl, fun _ => rfl⟩
    · exact ⟨_, _, rfl, fun _ => rfl⟩

@[simp] theorem resetTimerLocked_heap (st : State) : (resetTimerLocked sync st).heap = st.heap := by
  obtain ⟨_, _, eq, -⟩ := resetTimerLocked_eq sync st; rw [eq]

@[simp] theorem resetTimerLocked_pc (st : State) : (resetTimerLocked sync st).pc = st.pc := by
  obtain ⟨_, _, eq, -⟩ := resetTimerLocked_eq sync st; rw [eq]

@[simp] theorem resetTimerLocked_now (st : State) : (resetTimerLocked sync st).now = st.now := by
  obtain ⟨_, _, eq, -⟩ := resetTimerLocked_eq sync st; rw [eq]

/-- `resetTimerLocked` with a root and a timer arms the timer for the root's `nextRun`, or for
now when that has passed, and empties `C` (under the old semantics, when it was empty). -/
theorem resetTimerLocked_root (st : State) {t : Timer} {e : Entry} (timer : st.timer = some t)
    (root : st.heap[0]? = some e) :
    (resetTimerLocked sync st).timer =
      some { deadline := some ⟨max e.nextRun.unixNano st.now.unixNano⟩, c := if sync then none else t.c } := by
  simp only [resetTimerLocked, timer, root, Timer.reset, Timer.stop, Time.add, Option.some.injEq, Timer.mk.injEq,
    Time.mk.injEq, and_true]
  constructor
  · rw [max_def]; split_ifs <;> omega
  · cases sync <;> rfl

/-! ## The heap runs the queue model -/

/-- The queue call a step makes, if any: `AddJob`, `RemoveJob`, or the wake of the timer case. -/
def Act.call (st : State) : Act → Option Call
  | .addJob name schedule => some (.addJob name schedule st.now)
  | .removeJob name => some (.removeJob name)
  | .timerCase => if st.heap[0]?.isSome then some (.wake st.now) else none
  | _ => none

theorem timerCase_now (st : State) : (timerCase sync st).now = st.now := by
  unfold timerCase
  split <;> simp

theorem timerCase_heap (st : State) :
    (timerCase sync st).heap = if st.heap[0]?.isSome then (wake st.heap st.now).1 else st.heap := by
  unfold timerCase
  split <;> simp_all

theorem step_heap {st st' : State} {a : Act} (stepped : step sync st a = some st') :
    st'.heap = ((a.call st).map (Scheduler.step st.heap)).getD st.heap := by
  cases a <;> simp only [step] at stepped <;> repeat' split at stepped
  all_goals cases stepped
  all_goals simp_all [Act.call, Scheduler.step, timerCase_heap]
  split <;> rfl

/-- The heap of every reachable state is the queue that `Scheduler.run` leaves after some
sequence of calls from the empty queue. -/
theorem Reachable.queue {st : State} (r : Reachable sync st) :
    ∃ calls, st.heap = Scheduler.run [] calls := by
  induction r with
  | init now => exact ⟨[], rfl⟩
  | step a _ stepped ih =>
    obtain ⟨calls, heap⟩ := ih
    rw [step_heap sync stepped, heap]
    cases a.call _ with
    | none => exact ⟨calls, rfl⟩
    | some call => exact ⟨calls ++ [call], by simp [Scheduler.run, List.foldl_append]⟩

theorem Reachable.valid {st : State} (r : Reachable sync st) : Valid st.heap := by
  obtain ⟨calls, queue⟩ := r.queue
  exact queue ▸ run_valid valid_nil calls

/-! ## The timer is armed for the root -/

/-- The timer will wake the goroutine for the root: a value waits in `C`, or the timer is armed
for a deadline no later than the root's `nextRun` or the present reading. -/
def Armed (st : State) : Prop :=
  ∀ t e, st.timer = some t → st.heap[0]? = some e →
    t.c.isSome ∨ ∃ d, t.deadline = some d ∧ (d ≤ e.nextRun ∨ d ≤ st.now)

/-- Whether the goroutine is in the `select` or calling `fire`, the places it relies on the timer
from. -/
def Pc.waits : Pc → Bool
  | .select | .firing _ => true
  | _ => false

/-- What every reachable state keeps: the goroutine runs only once the timer exists, and the
timer is `Armed` while the goroutine relies on it. -/
structure Inv (st : State) : Prop where
  started : st.pc ≠ .idle → st.timer.isSome
  armed : st.pc.waits → Armed st

theorem resetTimerLocked_armed (st : State) : Armed (resetTimerLocked sync st) := by
  intro t e timer root
  rw [resetTimerLocked_heap] at root
  cases started : st.timer with
  | none => simp [resetTimerLocked, started] at timer
  | some t₀ =>
    rw [resetTimerLocked_root sync _ started root, Option.some.injEq] at timer
    subst timer
    refine .inr ⟨_, rfl, ?_⟩
    simp only [Time.le_def, resetTimerLocked_now]
    omega

theorem resetTimerLocked_started (st : State) (started : st.timer.isSome) :
    (resetTimerLocked sync st).timer.isSome := by
  obtain ⟨_, _, eq, keeps⟩ := resetTimerLocked_eq sync st
  rw [eq]
  exact keeps started

theorem timerCase_armed (st : State) : Armed (timerCase sync st) := by
  unfold timerCase
  split
  · intro t e _ root; simp_all
  · exact resetTimerLocked_armed sync _

theorem timerCase_started (st : State) (started : st.timer.isSome) : (timerCase sync st).timer.isSome := by
  unfold timerCase
  split
  · exact started
  · exact resetTimerLocked_started sync _ started

theorem Armed.tick {st : State} (armed : Armed st) {now : Time} (later : st.now ≤ now) :
    Armed { st with now } := by
  intro t e timer root
  rcases armed t e timer root with value | ⟨d, deadline, early | early⟩
  · exact .inl value
  · exact .inr ⟨d, deadline, .inl early⟩
  · exact .inr ⟨d, deadline, .inr (by simp only [Time.le_def] at early later ⊢; omega)⟩

theorem init_inv (now : Time) : Inv (init now) := ⟨fun idle => absurd rfl idle, fun waits => by simp [init, Pc.waits] at waits⟩

theorem step_inv {st st' : State} {a : Act} (inv : Inv st) (stepped : step sync st a = some st') : Inv st' := by
  cases a with
  | addJob | removeJob =>
    cases stepped
    exact ⟨fun ne => resetTimerLocked_started sync _ (inv.started (by simpa using ne)),
      fun _ => resetTimerLocked_armed sync _⟩
  | start =>
    simp only [step, Option.ite_none_right_eq_some, Option.some.injEq] at stepped
    obtain ⟨-, rfl⟩ := stepped
    exact ⟨fun _ => resetTimerLocked_started sync _ rfl, fun _ => resetTimerLocked_armed sync _⟩
  | stop | recvReset =>
    simp only [step] at stepped
    split_ifs at stepped
    cases stepped
    exact ⟨inv.started, inv.armed⟩
  | tick now =>
    simp only [step, Option.ite_none_right_eq_some, Option.some.injEq] at stepped
    obtain ⟨later, rfl⟩ := stepped
    exact ⟨inv.started, fun waits => (inv.armed waits).tick later⟩
  | expire =>
    simp only [step] at stepped
    split at stepped <;> try split at stepped
    all_goals try split_ifs at stepped
    all_goals cases stepped
    exact ⟨fun _ => rfl, fun _ t e timer _ => .inl (by cases timer; simp [Timer.expire])⟩
  | recvDone =>
    simp only [step, Option.ite_none_right_eq_some, Option.some.injEq] at stepped
    obtain ⟨⟨waiting, -⟩, rfl⟩ := stepped
    exact ⟨fun _ => by simpa using inv.started (by simp [waiting]), fun waits => by simp [Pc.waits] at waits⟩
  | recvTimer =>
    simp only [step] at stepped
    split at stepped <;> try split_ifs at stepped
    all_goals cases stepped
    exact ⟨fun _ => rfl, fun waits => by simp [Pc.waits] at waits⟩
  | timerCase =>
    simp only [step, Option.ite_none_right_eq_some, Option.some.injEq] at stepped
    obtain ⟨woken, rfl⟩ := stepped
    exact ⟨fun _ => timerCase_started sync _ (inv.started (by simp [woken])), fun _ => timerCase_armed sync _⟩
  | fired =>
    simp only [step] at stepped
    split at stepped <;> cases stepped
    rename_i firing
    exact ⟨fun _ => inv.started (by simp [firing]), fun _ => inv.armed (by simp [firing, Pc.waits])⟩

theorem Reachable.inv {st : State} (r : Reachable sync st) : Inv st := by
  induction r with
  | init now => exact init_inv now
  | step a _ stepped ih => exact step_inv sync ih stepped

/-- The scheduler after `Start` and `AddJob("a", @every 1m)` at the epoch: the timer is armed
for a minute later. -/
def everyMinute : State :=
  ⟨[⟨"a", .constantDelay (60 * Time.second), ⟨60 * Time.second⟩⟩], some ⟨some ⟨60 * Time.second⟩, none⟩, true,
    false, .select, ⟨0⟩⟩

/-- The same scheduler a minute on, woken by its timer. -/
def everyMinuteWoken : State := { everyMinute with timer := some ⟨none, none⟩, pc := .woken, now := ⟨60 * Time.second⟩ }

theorem timerCase_fired {st : State} {name : String} (firing : (timerCase sync st).pc = .firing name) :
    (wake st.heap st.now).2 = some name := by
  unfold timerCase at firing
  split at firing
  · cases firing
  · rcases woken : wake st.heap st.now with ⟨_, _ | fired⟩ <;> simp only [woken, Pc.firing.injEq] at firing ⊢
    · cases firing
    · rw [firing]

/-- The timer case that fires `name`: the root it fires was due, and the wake put it back with
the fire time `NextTime` gives at the present reading. -/
theorem timerCase_fires {st st' : State} {name : String} (valid : Valid st.heap)
    (stepped : step sync st .timerCase = some st') (firing : st'.pc = .firing name) :
    ∃ e rest, st.heap[0]? = some e ∧ (e :: rest).Perm st.heap ∧ e.jobName = name ∧ e.nextRun ≤ st.now ∧
      st'.heap.Perm ({ e with nextRun := nextTime e.schedule st.now } :: rest) ∧ st'.now = st.now := by
  simp only [step, Option.ite_none_right_eq_some, Option.some.injEq] at stepped
  obtain ⟨-, rfl⟩ := stepped
  have fired := timerCase_fired sync firing
  rcases (wake_spec valid st.now).2 with same | ⟨e, rest, root, due, perm, woken, named⟩
  · rw [same] at fired; cases fired
  · have heap : (timerCase sync st).heap = (wake st.heap st.now).1 := by simp [timerCase_heap, root]
    rw [fired, Option.some.injEq] at named
    exact ⟨e, rest, root, perm, named.symm, due, heap ▸ woken, timerCase_now sync st⟩

/-! ## Stored fire times -/

/-- Every entry's `nextRun` is what `NextTime` gave for its schedule at a clock reading no later
than `now`. -/
def Computed (heap : EntryHeap) (now : Time) : Prop :=
  ∀ e ∈ heap, ∃ read, read ≤ now ∧ e.nextRun = nextTime e.schedule read

theorem Computed.mono {heap : EntryHeap} {now now' : Time} (computed : Computed heap now) (later : now ≤ now') :
    Computed heap now' := fun e mem =>
  let ⟨read, before, next⟩ := computed e mem
  ⟨read, Time.le_def.mpr (Int.le_trans (Time.le_def.mp before) (Time.le_def.mp later)), next⟩

/-- The clock only moves forward. -/
theorem step_now {st st' : State} {a : Act} (stepped : step sync st a = some st') : st.now ≤ st'.now := by
  have same : st'.now = st.now → st.now ≤ st'.now := fun same => same ▸ Time.le_def.mpr (Int.le_refl _)
  cases a with
  | addJob | removeJob => cases stepped; exact same (resetTimerLocked_now sync _)
  | tick now =>
    simp only [step, Option.ite_none_right_eq_some, Option.some.injEq] at stepped
    obtain ⟨later, rfl⟩ := stepped
    exact later
  | timerCase =>
    simp only [step, Option.ite_none_right_eq_some, Option.some.injEq] at stepped
    obtain ⟨-, rfl⟩ := stepped
    exact same (timerCase_now sync _)
  | start =>
    simp only [step, Option.ite_none_right_eq_some, Option.some.injEq] at stepped
    obtain ⟨-, rfl⟩ := stepped
    exact same (resetTimerLocked_now sync _)
  | stop | expire | recvDone | recvReset | recvTimer | fired =>
    apply same
    simp only [step] at stepped
    repeat' split at stepped
    all_goals first | (cases stepped; rfl) | cases stepped

/-- An entry after the queue call of a step was there before, or holds what `NextTime` gives at
the present reading for the schedule the step added, or for the schedule queued under its name. -/
theorem mem_call {st : State} {a : Act} {c : Call} {x : Entry} (valid : Valid st.heap) (called : a.call st = some c)
    (mem : x ∈ Scheduler.step st.heap c) :
    x ∈ st.heap ∨ x.nextRun = nextTime x.schedule st.now ∧
      (a = .addJob x.jobName x.schedule ∨ ∃ e ∈ st.heap, e.jobName = x.jobName ∧ e.schedule = x.schedule) := by
  cases a <;> simp only [Act.call, Option.some.injEq, Option.ite_none_right_eq_some, reduceCtorEq] at called
  case addJob name schedule =>
    subst called
    rcases List.mem_append.mp ((addJob_spec valid schedule st.now).1.subset mem) with old | new
    · exact .inl (List.mem_filter.mp old).1
    · rw [List.mem_singleton.mp new]
      exact .inr ⟨rfl, .inl rfl⟩
  case removeJob name =>
    subst called
    exact .inl (List.mem_filter.mp ((removeJob_spec valid).1.subset mem)).1
  case timerCase =>
    obtain ⟨-, rfl⟩ := called
    rcases (wake_spec valid st.now).2 with same | ⟨e, rest, -, -, perm, woken, -⟩
    · simp only [Scheduler.step, same] at mem
      exact .inl mem
    · rcases List.mem_cons.mp (woken.subset mem) with rfl | old
      · exact .inr ⟨rfl, .inr ⟨e, perm.subset (List.mem_cons_self _ _), rfl, rfl⟩⟩
      · exact .inl (perm.subset (List.mem_cons_of_mem _ old))

/-- The queue call of a step reads the clock where it stands, and keeps every stored fire time
computed. -/
theorem computed_call {st : State} {a : Act} {c : Call} (valid : Valid st.heap) (computed : Computed st.heap st.now)
    (called : a.call st = some c) : Computed (Scheduler.step st.heap c) st.now := fun x mem =>
  (mem_call valid called mem).elim (computed x) fun fresh => ⟨st.now, Time.le_def.mpr (Int.le_refl _), fresh.1⟩

theorem Reachable.computed {st : State} (r : Reachable sync st) : Computed st.heap st.now := by
  induction r with
  | init now => exact fun e mem => absurd mem (List.not_mem_nil e)
  | step a r stepped ih =>
    rw [step_heap sync stepped]
    cases called : a.call _ with
    | none => exact ih.mono (step_now sync stepped)
    | some c => exact (computed_call (Reachable.valid sync r) ih called).mono (step_now sync stepped)

/-- **Every stored fire time is an activation.** In every reachable state each entry of the queue
holds what `NextTime` gave for its schedule at a clock reading no later than the present one; for
a cron spec that is the zero time, or the first whole second strictly after that reading at which
every field of the spec matches. -/
theorem stored_nextRun_activates {st : State} {e : Entry} (r : Reachable sync st) (mem : e ∈ st.heap) :
    ∃ read, read ≤ st.now ∧ e.nextRun = nextTime e.schedule read ∧
      ∀ s, e.schedule = .spec s → e.nextRun = Time.zero ∨
        (Activates s e.nextRun ∧ e.nextRun.nanosecond = 0 ∧ read < e.nextRun ∧ Skipped s read e.nextRun) := by
  obtain ⟨read, before, next⟩ := Reachable.computed sync r e mem
  refine ⟨read, before, next, fun s spec => ?_⟩
  rw [next, spec]
  exact next_zero_or_first s read

/-- `@hourly`, and the scheduler after `AddJob("h", @hourly)` at the epoch, before `Start`. -/
def hourly : SpecSchedule := descriptorSpec (all dom) (all months) (all dow) (all hours)

def hourlyEntry : Entry := ⟨"h", .spec hourly, nextTime (.spec hourly) ⟨0⟩⟩

theorem hourlyQueued_reachable : Reachable false ⟨[hourlyEntry], none, false, false, .idle, ⟨0⟩⟩ :=
  .step (.addJob "h" (.spec hourly)) (.init ⟨0⟩) rfl

theorem stored_nextRun_activates_hourly :
    ∃ read, read ≤ (⟨0⟩ : Time) ∧ hourlyEntry.nextRun = nextTime (.spec hourly) read ∧
      ∀ s, Schedule.spec hourly = .spec s → hourlyEntry.nextRun = Time.zero ∨
        (Activates s hourlyEntry.nextRun ∧ hourlyEntry.nextRun.nanosecond = 0 ∧ read < hourlyEntry.nextRun ∧
          Skipped s read hourlyEntry.nextRun) :=
  stored_nextRun_activates false hourlyQueued_reachable (List.mem_singleton_self _)

/-! ## Progress -/

theorem wake_later {h : EntryHeap} {e : Entry} {now : Time} (root : h[0]? = some e) (later : now < e.nextRun) :
    wake h now = (h, none) := by
  simp [wake, root, later]

theorem wake_due {h : EntryHeap} {e : Entry} {now : Time} (root : h[0]? = some e) (due : e.nextRun ≤ now) :
    ∃ h', wake h now = (h', some e.jobName) := by
  obtain ⟨t, popped, -⟩ := pop_some root
  have early : ¬now < e.nextRun := fun later => by simp only [Time.lt_def, Time.le_def] at later due; omega
  simp [wake, root, popped, early]

theorem timerCase_due (st : State) {e : Entry} (root : st.heap[0]? = some e) (due : e.nextRun ≤ st.now) :
    (timerCase sync st).pc = .firing e.jobName ∧ (timerCase sync st).now = st.now := by
  obtain ⟨h', woken⟩ := wake_due root due
  simp [timerCase, root, woken]

theorem timerCase_later (st : State) {e : Entry} (root : st.heap[0]? = some e) (later : st.now < e.nextRun) :
    timerCase sync st = { resetTimerLocked sync st with pc := .select } := by
  simp [timerCase, root, wake_later root later]

/-- The clock reaches `T`, and the runtime fires the timer, armed for a deadline no later. -/
theorem steps_wait {st : State} {t : Timer} {d T : Time} (timer : st.timer = some t) (deadline : t.deadline = some d)
    (later : st.now ≤ T) (reached : d ≤ T) :
    steps sync st [.tick T, .expire] = some { st with now := T, timer := some (t.expire T) } := by
  simp only [steps, step_tick sync later, step_expire sync { st with now := T } timer deadline reached]

/-- The goroutine receives the value in `C` and takes the timer case. -/
theorem steps_receive {st : State} {t : Timer} (waiting : st.pc = .select) (timer : st.timer = some t)
    (value : t.c.isSome) :
    steps sync st [.recvTimer, .timerCase] =
      some (timerCase sync { st with timer := some { t with c := none }, pc := .woken }) := by
  simp only [steps, step_recvTimer sync waiting timer value]
  rfl

/-- With a value in `C` and a due root, the goroutine fires the root's job. -/
theorem fires_when_due (st : State) {t : Timer} {e : Entry} (waiting : st.pc = .select)
    (timer : st.timer = some t) (value : t.c.isSome) (root : st.heap[0]? = some e) (due : e.nextRun ≤ st.now) :
    ∃ st', steps sync st [.recvTimer, .timerCase] = some st' ∧ st'.pc = .firing e.jobName ∧ st'.now = st.now :=
  ⟨_, steps_receive sync waiting timer value,
    timerCase_due sync { st with timer := some { t with c := none }, pc := .woken } root due⟩

/-- With a value in `C` and a root not yet due, the goroutine wakes spuriously and arms the timer
for the root's `nextRun`. -/
theorem rearms_when_early {st : State} {t : Timer} {e : Entry} (waiting : st.pc = .select)
    (timer : st.timer = some t) (value : t.c.isSome) (root : st.heap[0]? = some e) (later : st.now < e.nextRun) :
    ∃ st', steps sync st [.recvTimer, .timerCase] = some st' ∧ st'.pc = .select ∧ st'.heap = st.heap ∧
      st'.now = st.now ∧ ∃ t', st'.timer = some t' ∧ t'.deadline = some e.nextRun := by
  refine ⟨_, steps_receive sync waiting timer value, ?_⟩
  rw [timerCase_later sync { st with timer := some { t with c := none }, pc := .woken } root later]
  refine ⟨rfl, resetTimerLocked_heap sync _, resetTimerLocked_now sync _, _,
    resetTimerLocked_root sync { st with timer := some { t with c := none }, pc := .woken } rfl root, ?_⟩
  rw [max_eq_left (le_of_lt (Time.lt_def.mp later))]

/-- From a value in `C`, the goroutine, the timer and the clock fire the root's job at its
`nextRun`, or at once when that has passed. -/
theorem fires_from_value (st : State) {t : Timer} {e : Entry} (waiting : st.pc = .select)
    (timer : st.timer = some t) (value : t.c.isSome) (root : st.heap[0]? = some e) :
    ∃ acts st', (∀ a ∈ acts, a.internal) ∧ steps sync st acts = some st' ∧ st'.pc = .firing e.jobName ∧
      st'.now.unixNano = max e.nextRun.unixNano st.now.unixNano := by
  by_cases due : e.nextRun ≤ st.now
  · obtain ⟨st', run, fires, now⟩ := fires_when_due sync _ waiting timer value root due
    refine ⟨_, st', by simp [Act.internal], run, fires, ?_⟩
    rw [now]
    simp only [Time.le_def] at due
    omega
  · have later : st.now < e.nextRun := by simp only [Time.le_def, Time.lt_def] at due ⊢; omega
    obtain ⟨st₁, rearm, waiting₁, heap₁, now₁, t₁, timer₁, deadline₁⟩ :=
      rearms_when_early sync waiting timer value root later
    have waited := steps_wait sync timer₁ deadline₁ (T := e.nextRun) (by rw [now₁]; exact Time.le_def.mpr (Int.le_of_lt later))
      (Time.le_def.mpr (Int.le_refl _))
    obtain ⟨st₂, fire, fires, now₂⟩ := fires_when_due sync { st₁ with now := e.nextRun, timer := some (t₁.expire e.nextRun) }
      waiting₁ rfl (by simp [Timer.expire]) (by rw [← root, heap₁]) (Time.le_def.mpr (Int.le_refl _))
    refine ⟨[.recvTimer, .timerCase] ++ [.tick e.nextRun, .expire] ++ [.recvTimer, .timerCase], st₂,
      by simp [Act.internal], by rw [steps_append, steps_append, rearm, Option.bind, waited, Option.bind, fire], fires, ?_⟩
    rw [now₂]
    simp only [Time.lt_def] at later
    show e.nextRun.unixNano = _
    omega

/-- **Progress.** From every reachable state where the goroutine waits in its `select`, steps of
the goroutine, the timer and the clock alone, with no `reset` signal, fire the root's job with
the clock at the root's `nextRun`, or where it stands when that has passed. -/
theorem root_fires_on_time {st : State} {e : Entry} (r : Reachable sync st) (waiting : st.pc = .select)
    (root : st.heap[0]? = some e) :
    ∃ acts st', (∀ a ∈ acts, a.internal) ∧ steps sync st acts = some st' ∧ st'.pc = .firing e.jobName ∧
      st'.now.unixNano = max e.nextRun.unixNano st.now.unixNano := by
  have inv := r.inv
  obtain ⟨t, timer⟩ := Option.isSome_iff_exists.mp (inv.started (by simp [waiting]))
  rcases inv.armed (by simp [waiting, Pc.waits]) t e timer root with value | ⟨d, deadline, early⟩
  · exact fires_from_value sync _ waiting timer value root
  · let T : Time := ⟨max d.unixNano st.now.unixNano⟩
    have waited := steps_wait sync timer deadline (T := T) (by simp [T]) (by simp [T])
    obtain ⟨acts, st', internal, run, fires, now⟩ := fires_from_value sync
      { st with now := T, timer := some (t.expire T) } waiting rfl (by simp [Timer.expire]) root
    refine ⟨[.tick T, .expire] ++ acts, st', ?_, by rw [steps_append, waited]; exact run, fires, ?_⟩
    · intro a mem
      rcases List.mem_append.mp mem with first | rest
      · simp only [List.mem_cons, List.mem_singleton, List.not_mem_nil, or_false] at first
        rcases first with rfl | rfl <;> rfl
      · exact internal a rest
    · rw [now]
      simp only [Time.le_def, T] at early ⊢
      omega

/-- **No lost wake-up.** In every reachable state where the goroutine waits in its `select` and
the root is due, the timer can deliver at the present reading: the goroutine can receive from
`C`, or the runtime can fire the timer. -/
theorem due_root_wakes {st : State} {e : Entry} (r : Reachable sync st) (waiting : st.pc = .select)
    (root : st.heap[0]? = some e) (due : e.nextRun ≤ st.now) :
    (step sync st .recvTimer).isSome ∨ (step sync st .expire).isSome := by
  have inv := r.inv
  obtain ⟨t, timer⟩ := Option.isSome_iff_exists.mp (inv.started (by simp [waiting]))
  rcases inv.armed (by simp [waiting, Pc.waits]) t e timer root with value | ⟨d, deadline, early⟩
  · left
    simp [step, waiting, timer, value]
  · right
    have reached : d ≤ st.now := by simp only [Time.le_def] at early due ⊢; omega
    simp [step, timer, deadline, reached]

/-! ## A job fires again only at a later reading

The daemon's only `AddJob` call takes the schedule `ParseSchedule` returned, and a parsed
schedule's `NextTime` is later than its reading or the zero time. So after a job fires at one
reading, every entry for it holds a later fire time, whatever `AddJob` and `RemoveJob` calls come
between, and the job fires again only once the clock has moved past that reading. -/

/-- An action whose `AddJob`, if it is one, adds a schedule as `ParseSchedule` returns it. -/
def Act.Parsed : Act → Prop
  | .addJob _ schedule => WellFormed schedule
  | _ => True

/-- Every entry of the queue holds a schedule as `ParseSchedule` returns it. -/
def Parsed (heap : EntryHeap) : Prop := ∀ e ∈ heap, WellFormed e.schedule

/-- The entries for `name` fire after the reading `t₀`, unless `NextTime` gave them the zero time. -/
def FiresAfter (name : String) (t₀ : Time) (heap : EntryHeap) : Prop :=
  ∀ e ∈ heap, e.jobName = name → t₀ < e.nextRun ∨ e.nextRun = Time.zero

/-- After a parsed step, every entry holds a parsed schedule, and was there before or has a fire
time `NextTime` computed at the present reading. -/
theorem mem_step_parsed {st st' : State} {a : Act} {x : Entry} (valid : Valid st.heap) (parsed : Parsed st.heap)
    (act : a.Parsed) (stepped : step sync st a = some st') (mem : x ∈ st'.heap) :
    WellFormed x.schedule ∧ (x ∈ st.heap ∨ x.nextRun = nextTime x.schedule st.now) := by
  rw [step_heap sync stepped] at mem
  cases called : a.call st with
  | none =>
    simp only [called, Option.map_none', Option.getD_none] at mem
    exact ⟨parsed x mem, .inl mem⟩
  | some c =>
    simp only [called, Option.map_some', Option.getD_some] at mem
    rcases mem_call valid called mem with old | ⟨next, rfl | ⟨e, old, -, same⟩⟩
    · exact ⟨parsed x old, .inl old⟩
    · exact ⟨act, .inr next⟩
    · exact ⟨same ▸ parsed e old, .inr next⟩

theorem step_parsed {st st' : State} {a : Act} (valid : Valid st.heap) (parsed : Parsed st.heap) (act : a.Parsed)
    (stepped : step sync st a = some st') : Parsed st'.heap := fun _ mem =>
  (mem_step_parsed sync valid parsed act stepped mem).1

theorem step_firesAfter {st st' : State} {a : Act} {name : String} {t₀ : Time} (valid : Valid st.heap)
    (parsed : Parsed st.heap) (act : a.Parsed) (fires : FiresAfter name t₀ st.heap) (before : t₀ ≤ st.now)
    (stepped : step sync st a = some st') : FiresAfter name t₀ st'.heap := by
  intro x mem named
  rcases mem_step_parsed sync valid parsed act stepped mem with ⟨wf, old | next⟩
  · exact fires x old named
  · rw [next]
    refine (wf.later st.now).symm.imp_left fun later => ?_
    simp only [Time.lt_def, Time.le_def] at before later ⊢
    omega

/-- Parsed steps keep the queue parsed. -/
theorem steps_parsed {st st' : State} {acts : List Act} (r : Reachable sync st) (parsed : Parsed st.heap)
    (parsedActs : ∀ a ∈ acts, a.Parsed) (run : steps sync st acts = some st') : Parsed st'.heap := by
  induction acts generalizing st with
  | nil => cases run; exact parsed
  | cons a acts ih =>
    simp only [steps] at run
    cases stepped : step sync st a with
    | none => rw [stepped] at run; cases run
    | some st₁ =>
      rw [stepped] at run
      have act := parsedActs a (List.mem_cons_self _ _)
      exact ih (.step a r stepped) (step_parsed sync r.valid parsed act stepped)
        (fun b mem => parsedActs b (List.mem_cons_of_mem _ mem)) run

/-- Parsed steps keep every entry for `name` firing after a reading the clock has reached. -/
theorem steps_firesAfter {st st' : State} {acts : List Act} {name : String} {t₀ : Time} (r : Reachable sync st)
    (parsed : Parsed st.heap) (fires : FiresAfter name t₀ st.heap) (before : t₀ ≤ st.now)
    (parsedActs : ∀ a ∈ acts, a.Parsed) (run : steps sync st acts = some st') :
    FiresAfter name t₀ st'.heap ∧ t₀ ≤ st'.now := by
  induction acts generalizing st with
  | nil => cases run; exact ⟨fires, before⟩
  | cons a acts ih =>
    simp only [steps] at run
    cases stepped : step sync st a with
    | none => rw [stepped] at run; cases run
    | some st₁ =>
      rw [stepped] at run
      have act := parsedActs a (List.mem_cons_self _ _)
      have later : t₀ ≤ st₁.now := Time.le_def.mpr (Int.le_trans (Time.le_def.mp before)
        (Time.le_def.mp (step_now sync stepped)))
      exact ih (.step a r stepped) (step_parsed sync r.valid parsed act stepped)
        (step_firesAfter sync r.valid parsed act fires before stepped) later
        (fun b mem => parsedActs b (List.mem_cons_of_mem _ mem)) run

/-- Right after a parsed queue fires `name`, every entry for `name` fires after that reading:
the fired entry through `NextTime`, and no other entry has its name. -/
theorem timerCase_firesAfter {st st' : State} {name : String} (valid : Valid st.heap) (parsed : Parsed st.heap)
    (stepped : step sync st .timerCase = some st') (firing : st'.pc = .firing name) :
    FiresAfter name st.now st'.heap := by
  obtain ⟨e, rest, -, perm, named, -, woken, -⟩ := timerCase_fires sync valid stepped firing
  have unique : ((e :: rest).map (·.jobName)).Nodup := (perm.map _).nodup_iff.mpr valid.unique
  intro x mem same
  rcases List.mem_cons.mp (woken.subset mem) with rfl | other
  · exact (parsed e (perm.subset (List.mem_cons_self _ _)) |>.later st.now).symm
  · rw [List.map_cons, List.nodup_cons] at unique
    exact absurd (List.mem_map.mpr ⟨x, other, same.trans named.symm⟩) unique.1

/-- **A job fires again only at a later reading.** In every run from `NewScheduler` whose `AddJob`
calls take schedules as `ParseSchedule` returns them, two firings of one job, whatever calls,
ticks and wakes come between them, happen at two readings of the clock, the second later than
the first; the one exception is a root whose `NextTime` gave the zero time. -/
theorem fires_again_later {now : Time} {pre mid : List Act} {st₀ st₁ st₂ st₃ : State} {name : String}
    (parsedActs : ∀ a ∈ pre ++ mid, a.Parsed) (reach : steps sync (init now) pre = some st₀)
    (first : step sync st₀ .timerCase = some st₁) (firing₁ : st₁.pc = .firing name)
    (run : steps sync st₁ mid = some st₂) (second : step sync st₂ .timerCase = some st₃)
    (firing₂ : st₃.pc = .firing name) :
    st₁.now < st₃.now ∨ ∃ e, st₂.heap[0]? = some e ∧ e.jobName = name ∧ e.nextRun = Time.zero := by
  have r₀ : Reachable sync st₀ := (Reachable.init now).steps sync reach
  have parsed₀ : Parsed st₀.heap := steps_parsed sync (.init now) (fun _ mem => absurd mem (List.not_mem_nil _))
    (fun a mem => parsedActs a (List.mem_append_left _ mem)) reach
  obtain ⟨-, -, -, -, -, -, -, now₁⟩ := timerCase_fires sync r₀.valid first firing₁
  have r₁ : Reachable sync st₁ := .step .timerCase r₀ first
  obtain ⟨fires₂, -⟩ := steps_firesAfter sync r₁ (step_parsed sync r₀.valid parsed₀ (show Act.Parsed .timerCase from trivial) first)
    (now₁ ▸ timerCase_firesAfter sync r₀.valid parsed₀ first firing₁) (Time.le_def.mpr (Int.le_refl _))
    (fun a mem => parsedActs a (List.mem_append_right _ mem)) run
  obtain ⟨e, _, root, perm, named, due, -, now₃⟩ :=
    timerCase_fires sync (r₁.steps sync run).valid second firing₂
  rcases fires₂ e (perm.subset (List.mem_cons_self _ _)) named with later | zero
  · left
    rw [now₃]
    simp only [Time.lt_def, Time.le_def] at later due ⊢
    omega
  · exact .inr ⟨e, root, named, zero⟩

/-- The every-minute scheduler after firing at the first minute and waking at the second. -/
def everyMinuteRewoken : State :=
  ⟨[⟨"a", .constantDelay (60 * Time.second), ⟨120 * Time.second⟩⟩], some ⟨none, none⟩, true, false, .woken,
    ⟨120 * Time.second⟩⟩

theorem fires_again_later_everyMinute :
    (timerCase false everyMinuteWoken).now < (timerCase false everyMinuteRewoken).now ∨
      ∃ e, everyMinuteRewoken.heap[0]? = some e ∧ e.jobName = "a" ∧ e.nextRun = Time.zero :=
  @fires_again_later false ⟨0⟩ [.start, .addJob "a" (.constantDelay (60 * Time.second)), .tick ⟨60 * Time.second⟩,
      .expire, .recvTimer] [.fired, .tick ⟨120 * Time.second⟩, .expire, .recvTimer] everyMinuteWoken
    (timerCase false everyMinuteWoken) everyMinuteRewoken (timerCase false everyMinuteRewoken) "a" (by simp [Act.Parsed]; exact .constantDelay (by decide) (by decide))
    rfl rfl rfl (by rfl) rfl rfl

end Semantics
end Cronbat.Loop
