import Cronbat.Monotonic
import Cronbat.Loop

/-! The scheduler's goroutine and its timer on Go's two clocks. `time.Now()` reads the wall
clock and the monotonic clock; the runtime keeps timers on the monotonic clock, so
`resetTimerLocked` arms the timer for `time.Until(root.nextRun)` past the present monotonic
reading; and the wall clock can be set (by hand, by NTP, or on resume from a suspend, which the
monotonic clock does not count) while the monotonic clock stays (`setWall`).

1. **The queue.** In every reachable state the heap is the queue `Scheduler.run` leaves after
   some calls, so it holds one entry per name (`reachable_queue_invariants`).
2. **While the clocks keep in step, the goroutine runs the single-clock loop.** `Steady`: the
   states reached with the wall clock never set. Read through the wall clock, each step from a
   steady state is the same step of `Loop` (`step_abs`), and every steady state is a reachable
   state of `Loop` (`Steady.abs`). So in a steady state the heap is in the order of `Less` and
   the timer is armed for the root (`reachable_queue_invariants`), a due root always has a timer
   event enabled (`steady_due_root_wakes`), the root fires with the wall clock at its
   `nextRun` (`steady_root_fires_on_time`), and what fires is least (`fires_only_due_root`).
3. **Once the wall clock is set**, `Less` can be cyclic (`wall_step_breaks_heap_order`), and a
   cron root that the wall clock has made due waits for the timer's monotonic deadline.

As in `Loop`, `select` is not assumed fair: progress is the existence of a run. -/
namespace Cronbat.MonotonicLoop
open Cronbat Cronbat.Cron Cronbat.Heap Cronbat.Heap.EntryHeap Cronbat.Scheduler

/-- A `*time.Timer`: the monotonic reading it is armed for, if any, and the `time.Time`
waiting in its channel `C`. -/
structure Timer where
  deadline : Option Int
  c : Option Instant
  deriving DecidableEq, Repr

section Semantics
-- `sync`: since Go 1.23, `Stop` and `Reset` discard a value sent to `C` and not yet received.
variable (sync : Bool)

/-- `t.Stop()`. -/
def Timer.stop (t : Timer) : Timer := { deadline := none, c := if sync then none else t.c }

/-- `t.Reset(d)` with the monotonic clock at `mono`. -/
def Timer.reset (t : Timer) (mono : Int) (d : Int) : Timer :=
  { deadline := some (mono + d), c := if sync then none else t.c }

/-- The runtime firing the timer and sending `time.Now()`: the send is dropped when `C` already
holds a value. -/
def Timer.expire (t : Timer) (now : Instant) : Timer := { deadline := none, c := some (t.c.getD now) }

/-- A `Scheduler` and its goroutine, as in `Loop.State`, with both clocks. -/
structure State where
  heap : EntryHeap Instant
  timer : Option Timer
  reset : Bool
  done : Bool
  pc : Loop.Pc
  wall : Time
  mono : Int

/-- `time.Now()`. -/
def State.now (st : State) : Instant := ⟨st.wall, some st.mono⟩

/-- `NewScheduler`, with the clocks at `wall` and `mono`. -/
def init (wall : Time) (mono : Int) : State := ⟨[], none, false, false, .idle, wall, mono⟩

/-- `resetTimerLocked`: nothing before `Start`; otherwise the timer is stopped and, when the
heap has a root, reset to fire `time.Until(root.nextRun)`, that is `root.nextRun.Sub(time.Now())`
(at once when that is negative), past the present monotonic reading, and the goroutine is
signalled on `reset` without blocking. -/
def resetTimerLocked (st : State) : State :=
  match st.timer with
  | none => st
  | some t =>
    let t := t.stop sync
    match st.heap[0]? with
    | none => { st with timer := some t }
    | some e =>
      let d := e.nextRun.sub st.now
      let d := if d < 0 then 0 else d
      { st with timer := some (t.reset sync st.mono d), reset := true }

/-- The `<-s.timer.C` case of `run`, under `s.mu`, at `time.Now()`. -/
def timerCase (st : State) : State :=
  match st.heap[0]? with
  | none => { st with pc := .select }
  | some _ =>
    let (heap, fired) := wake st.heap st.now
    { resetTimerLocked sync { st with heap } with
      pc := match fired with
        | some name => .firing name
        | none => .select }

/-- What can happen next: as in `Loop.Act`, with time passing on both clocks (`tick`) and the
wall clock set alone (`setWall`). -/
inductive Act where
  | addJob (name : String) (schedule : Schedule)
  | removeJob (name : String)
  | start
  | stop
  | tick (d : Nat)
  | setWall (wall : Time)
  | expire
  | recvDone
  | recvReset
  | recvTimer
  | timerCase
  | fired

/-- The steps of the goroutine, the timer and time passing, with no call from outside. -/
def Act.internal : Act → Bool
  | .tick _ | .expire | .recvTimer | .timerCase => true
  | _ => false

/-- Whether the action sets the wall clock. -/
def Act.setsWall : Act → Bool
  | .setWall _ => true
  | _ => false

/-- One step, or `none` when the action cannot happen in `st`. The timer expires once the
monotonic clock reaches its deadline. -/
def step (st : State) : Act → Option State
  | .addJob name schedule => some (resetTimerLocked sync { st with heap := addJob st.heap name schedule st.now })
  | .removeJob name => some (resetTimerLocked sync { st with heap := removeJob st.heap name })
  | .start =>
    if st.pc = .idle then some { resetTimerLocked sync { st with timer := some ⟨none, none⟩ } with pc := .select }
    else none
  | .stop => if st.done then none else some { st with done := true }
  | .tick d => some { st with wall := st.wall.add d, mono := st.mono + d }
  | .setWall wall => some { st with wall }
  | .expire =>
    match st.timer with
    | some t => match t.deadline with
      | some d => if d ≤ st.mono then some { st with timer := some (t.expire st.now) } else none
      | none => none
    | none => none
  | .recvDone =>
    if st.pc = .select ∧ st.done then some { st with timer := st.timer.map (Timer.stop sync), pc := .exited }
    else none
  | .recvReset => if st.pc = .select ∧ st.reset then some { st with reset := false } else none
  | .recvTimer =>
    match st.pc, st.timer with
    | .select, some t => if t.c.isSome then some { st with timer := some { t with c := none }, pc := .woken } else none
    | _, _ => none
  | .timerCase => if st.pc = .woken then some (timerCase sync st) else none
  | .fired =>
    match st.pc with
    | .firing _ => some { st with pc := .select }
    | _ => none

/-- A sequence of steps, each of which must be able to happen. -/
def steps (st : State) : List Act → Option State
  | [] => some st
  | a :: acts =>
    match step sync st a with
    | some st' => steps st' acts
    | none => none

/-- The states the scheduler reaches from `NewScheduler`, whatever the wall clock does. -/
inductive Reachable : State → Prop where
  | init (wall : Time) (mono : Int) : Reachable (init wall mono)
  | step {st st' : State} (a : Act) : Reachable st → step sync st a = some st' → Reachable st'

/-- The states reached with the wall clock never set: the clocks keep the offset they started
with. -/
inductive Steady : State → Prop where
  | init (wall : Time) (mono : Int) : Steady (init wall mono)
  | step {st st' : State} (a : Act) : Steady st → a.setsWall = false → step sync st a = some st' → Steady st'

theorem Steady.reachable {st : State} (r : Steady sync st) : Reachable sync st := by
  induction r with
  | init wall mono => exact .init wall mono
  | step a _ _ stepped ih => exact .step a ih stepped

theorem steps_append (st : State) (as bs : List Act) :
    steps sync st (as ++ bs) = (steps sync st as).bind (steps sync · bs) := by
  induction as generalizing st with
  | nil => rfl
  | cons a as ih =>
    simp only [List.cons_append, steps]
    cases step sync st a <;> simp [ih]

/-! ## What `resetTimerLocked` and the timer case touch -/

theorem resetTimerLocked_eq (st : State) :
    ∃ timer reset, resetTimerLocked sync st = { st with timer, reset } ∧ (st.timer.isSome → timer.isSome) := by
  unfold resetTimerLocked
  split
  · exact ⟨_, _, rfl, id⟩
  · split
    · exact ⟨_, _, rfl, fun _ => rfl⟩
    · exact ⟨_, _, rfl, fun _ => rfl⟩

@[simp] theorem resetTimerLocked_heap (st : State) : (resetTimerLocked sync st).heap = st.heap := by
  obtain ⟨_, _, eq, -⟩ := resetTimerLocked_eq sync st; rw [eq]

@[simp] theorem resetTimerLocked_pc (st : State) : (resetTimerLocked sync st).pc = st.pc := by
  obtain ⟨_, _, eq, -⟩ := resetTimerLocked_eq sync st; rw [eq]

@[simp] theorem resetTimerLocked_wall (st : State) : (resetTimerLocked sync st).wall = st.wall := by
  obtain ⟨_, _, eq, -⟩ := resetTimerLocked_eq sync st; rw [eq]

@[simp] theorem resetTimerLocked_mono (st : State) : (resetTimerLocked sync st).mono = st.mono := by
  obtain ⟨_, _, eq, -⟩ := resetTimerLocked_eq sync st; rw [eq]

theorem timerCase_heap (st : State) :
    (timerCase sync st).heap = if st.heap[0]?.isSome then (wake st.heap st.now).1 else st.heap := by
  unfold timerCase
  split <;> simp_all

@[simp] theorem timerCase_wall (st : State) : (timerCase sync st).wall = st.wall := by
  unfold timerCase; split <;> simp

@[simp] theorem timerCase_mono (st : State) : (timerCase sync st).mono = st.mono := by
  unfold timerCase; split <;> simp

/-! ## The heap runs the queue model -/

/-- The queue call a step makes, if any. -/
def Act.call (st : State) : Act → Option (Call Instant)
  | .addJob name schedule => some (.addJob name schedule st.now)
  | .removeJob name => some (.removeJob name)
  | .timerCase => if st.heap[0]?.isSome then some (.wake st.now) else none
  | _ => none

theorem step_heap {st st' : State} {a : Act} (stepped : step sync st a = some st') :
    st'.heap = ((a.call st).map (Scheduler.step st.heap)).getD st.heap := by
  cases a <;> simp only [step] at stepped <;> repeat' split at stepped
  all_goals cases stepped
  all_goals simp_all [Act.call, Scheduler.step, timerCase_heap]
  split <;> rfl

/-- The heap of every reachable state is the queue `Scheduler.run` leaves after some calls. -/
theorem Reachable.queue {st : State} (r : Reachable sync st) : ∃ calls, st.heap = Scheduler.run [] calls := by
  induction r with
  | init => exact ⟨[], rfl⟩
  | step a _ stepped ih =>
    obtain ⟨calls, heap⟩ := ih
    rw [step_heap sync stepped, heap]
    cases a.call _ with
    | none => exact ⟨calls, rfl⟩
    | some call => exact ⟨calls ++ [call], by simp [Scheduler.run, List.foldl_append]⟩

/-! ## Reading a state through the wall clock -/

/-- How far the monotonic clock stands behind the wall clock. -/
def State.offset (st : State) : Int := st.wall.unixNano - st.mono

/-- A timer read on the wall clock: its deadline moved by the offset. -/
def Timer.abs (off : Int) (t : Timer) : Loop.Timer := ⟨t.deadline.map fun d => ⟨d + off⟩, t.c.map Instant.wall⟩

/-- The single-clock view of a state: wall readings throughout. -/
def State.abs (st : State) : Loop.State :=
  ⟨st.heap.map (Entry.map Instant.wall), st.timer.map (Timer.abs st.offset), st.reset, st.done, st.pc, st.wall⟩

/-- Every stored fire time keeps the clocks' present offset. -/
def State.Synced (st : State) : Prop := Scheduler.Synced st.offset st.heap

/-- The single-clock action of a step that does not set the wall clock. -/
def Act.abs (st : State) : Act → Option Loop.Act
  | .addJob name schedule => some (.addJob name schedule)
  | .removeJob name => some (.removeJob name)
  | .start => some .start
  | .stop => some .stop
  | .tick d => some (.tick (st.wall.add d))
  | .setWall _ => none
  | .expire => some .expire
  | .recvDone => some .recvDone
  | .recvReset => some .recvReset
  | .recvTimer => some .recvTimer
  | .timerCase => some .timerCase
  | .fired => some .fired

theorem now_lockstep (st : State) : st.now.Lockstep st.offset := by
  intro m mem
  simp only [State.now, Option.mem_def, Option.some.injEq] at mem
  simp [State.offset, State.now, mem]

theorem Timer.stop_abs (t : Timer) (off : Int) : (t.stop sync).abs off = (t.abs off).stop sync := by
  cases sync <;> rfl

theorem Timer.reset_abs (t : Timer) (off mono d : Int) :
    (t.reset sync mono d).abs off = (t.abs off).reset sync ⟨mono + off⟩ d := by
  have shift : (⟨mono + d + off⟩ : Time) = (⟨mono + off⟩ : Time).add d := by
    simp only [Time.add, Time.mk.injEq]; omega
  cases sync <;> simp [Timer.reset, Loop.Timer.reset, Timer.abs, shift]

theorem Timer.expire_abs (t : Timer) (off : Int) (now : Instant) :
    (t.expire now).abs off = (t.abs off).expire now.wall := by
  cases c : t.c <;> simp [Timer.expire, Loop.Timer.expire, Timer.abs, c]

@[simp] theorem abs_heap (st : State) : st.abs.heap = st.heap.map (Entry.map Instant.wall) := rfl
@[simp] theorem abs_timer (st : State) : st.abs.timer = st.timer.map (Timer.abs st.offset) := rfl
@[simp] theorem abs_reset (st : State) : st.abs.reset = st.reset := rfl
@[simp] theorem abs_done (st : State) : st.abs.done = st.done := rfl
@[simp] theorem abs_pc (st : State) : st.abs.pc = st.pc := rfl
@[simp] theorem abs_now (st : State) : st.abs.now = st.wall := rfl

theorem abs_with_pc (st : State) (p : Loop.Pc) : ({ st with pc := p } : State).abs = { st.abs with pc := p } := rfl

theorem wall_of_offset (w : Time) (m : Int) : (⟨m + (w.unixNano - m)⟩ : Time) = w := by
  rw [add_sub_cancel]

theorem resetTimerLocked_abs (st : State) (synced : st.Synced) :
    (resetTimerLocked sync st).abs = Loop.resetTimerLocked sync st.abs := by
  unfold resetTimerLocked Loop.resetTimerLocked
  cases timer : st.timer with
  | none => simp [State.abs, timer]
  | some t =>
    simp only [abs_timer, timer, Option.map_some', abs_heap, List.getElem?_map]
    cases root : st.heap[0]? with
    | none => simp only [Option.map_none', State.abs, State.offset, Option.map_some', Timer.stop_abs]
    | some e =>
      have d := Instant.sub_of_lockstep (synced e (List.getElem?_mem root)) (now_lockstep st)
      simp only [Option.map_some', d]
      simp only [State.abs, State.offset, Option.map_some', Timer.reset_abs, Timer.stop_abs, wall_of_offset,
        Entry.map_nextRun, State.now]


theorem timerCase_abs (st : State) (synced : st.Synced) : (timerCase sync st).abs = Loop.timerCase sync st.abs := by
  unfold timerCase Loop.timerCase
  rw [abs_heap, List.getElem?_map]
  cases root : st.heap[0]? with
  | none => rfl
  | some e =>
    have woken : Prod.map (List.map (Entry.map Instant.wall)) id (wake st.heap st.now) =
        wake (st.heap.map (Entry.map Instant.wall)) st.wall := map_wake synced (now_lockstep st)
    have synced' : Scheduler.Synced st.offset (wake st.heap st.now).1 :=
      Scheduler.Synced.step synced (c := .wake st.now) (now_lockstep st)
    rcases fired : wake st.heap st.now with ⟨heap, name⟩
    rw [fired] at woken synced'
    rw [Option.map_some', abs_now, ← woken]
    dsimp only
    rw [abs_with_pc, resetTimerLocked_abs sync { st with heap } synced']
    rfl

/-- Outside `setWall`, a step keeps the clocks' offset. -/
theorem step_offset {st st' : State} {a : Act} (keeps : a.setsWall = false) (stepped : step sync st a = some st') :
    st'.offset = st.offset := by
  cases a <;> simp only [step, Act.setsWall, reduceCtorEq] at stepped keeps <;> repeat' split at stepped
  all_goals cases stepped
  all_goals simp [State.offset, timerCase_wall, Time.add]

/-- The call a step makes reads the clocks where they stand. -/
theorem call_inStep (st : State) {a : Act} {c : Call Instant} (called : a.call st = some c) : c.InStep st.offset := by
  cases a <;> simp only [Act.call, Option.some.injEq, Option.ite_none_right_eq_some, reduceCtorEq] at called
  case addJob => subst called; exact now_lockstep st
  case removeJob => subst called; trivial
  case timerCase => obtain ⟨-, rfl⟩ := called; exact now_lockstep st

/-- Outside `setWall`, a step keeps every stored fire time in step with the clocks. -/
theorem State.Synced.step {st st' : State} {a : Act} (synced : st.Synced) (keeps : a.setsWall = false)
    (stepped : step sync st a = some st') : st'.Synced := by
  unfold State.Synced
  rw [step_offset sync keeps stepped, step_heap sync stepped]
  cases called : a.call st with
  | none => exact synced
  | some c => exact Scheduler.Synced.step synced (call_inStep st called)

theorem Steady.synced {st : State} (r : Steady sync st) : st.Synced := by
  induction r with
  | init => exact synced_nil
  | step _ _ keeps stepped ih => exact ih.step sync keeps stepped

theorem Act.abs_of_setsWall (st : State) {a : Act} (keeps : a.setsWall = false) : ∃ a', a.abs st = some a' := by
  cases a <;> simp_all [Act.abs, Act.setsWall]

/-- **Read through the wall clock, a step of the two-clock goroutine is the same step of the
single-clock one**, from every state whose stored fire times keep the clocks' offset. -/
theorem step_abs {st : State} (synced : st.Synced) {a : Act} {a' : Loop.Act} (abs : a.abs st = some a') :
    (step sync st a).map State.abs = Loop.step sync st.abs a' := by
  cases a <;> simp only [Act.abs, Option.some.injEq, reduceCtorEq] at abs <;> subst abs
  case addJob name schedule =>
    have synced' : Scheduler.Synced st.offset (addJob st.heap name schedule st.now) :=
      Scheduler.Synced.step synced (c := .addJob name schedule st.now) (now_lockstep st)
    have mapped : (addJob st.heap name schedule st.now).map (Entry.map Instant.wall) =
        addJob (st.heap.map (Entry.map Instant.wall)) name schedule st.wall := map_addJob synced (now_lockstep st) schedule
    simp only [step, Loop.step, Option.map_some', abs_heap, abs_now, ← mapped]
    rw [resetTimerLocked_abs sync { st with heap := addJob st.heap name schedule st.now } synced']
    rfl
  case removeJob name =>
    have synced' : Scheduler.Synced st.offset (removeJob st.heap name) :=
      Scheduler.Synced.step synced (c := .removeJob name) trivial
    have mapped : (removeJob st.heap name).map (Entry.map Instant.wall) =
        removeJob (st.heap.map (Entry.map Instant.wall)) name := map_removeLockedByName synced name
    simp only [step, Loop.step, Option.map_some', abs_heap, ← mapped]
    rw [resetTimerLocked_abs sync { st with heap := removeJob st.heap name } synced']
    rfl
  case start =>
    simp only [step, Loop.step, abs_pc]
    split_ifs
    · rw [Option.map_some', abs_with_pc, resetTimerLocked_abs sync { st with timer := some ⟨none, none⟩ } synced]
      rfl
    · rfl
  case stop =>
    simp only [step, Loop.step, abs_done]
    split_ifs <;> rfl
  case tick d =>
    have later : st.wall ≤ st.wall.add d := by simp [Time.add]
    have off : ({ st with wall := st.wall.add d, mono := st.mono + d } : State).offset = st.offset := by
      simp only [State.offset, Time.add_unixNano]; omega
    simp only [step, Loop.step, abs_now, if_pos later, Option.map_some', State.abs, off]
  case expire =>
    simp only [step, Loop.step, abs_timer]
    cases timer : st.timer with
    | none => rfl
    | some t =>
      simp only [Option.map_some', Timer.abs]
      cases deadline : t.deadline with
      | none => rfl
      | some d =>
        have reached : (⟨d + st.offset⟩ : Time) ≤ st.abs.now ↔ d ≤ st.mono := by
          simp only [Time.le_def, abs_now, State.offset]; omega
        simp only [Option.map_some', reached]
        split_ifs
        · simp only [Option.map_some', State.abs, Timer.expire_abs]
          rfl
        · rfl
  case recvDone =>
    simp only [step, Loop.step, abs_pc, abs_done]
    split_ifs
    · simp only [Option.map_some', State.abs, Option.map_map]
      congr 3
      funext t
      exact Timer.stop_abs sync t _
    · rfl
  case recvReset =>
    simp only [step, Loop.step, abs_pc, abs_reset]
    split_ifs <;> rfl
  case recvTimer =>
    simp only [step, Loop.step, abs_pc, abs_timer]
    cases pc : st.pc <;> cases st.timer <;> try rfl
    simp only [Option.map_some', Timer.abs, Option.isSome_map']
    split_ifs <;> rfl
  case timerCase =>
    simp only [step, Loop.step, abs_pc]
    split_ifs
    · simp only [Option.map_some', timerCase_abs sync st synced]
    · rfl
  case fired =>
    simp only [step, Loop.step, abs_pc]
    cases st.pc <;> rfl

/-- **Every steady state is a reachable state of the single-clock loop**, read through the wall
clock. -/
theorem Steady.abs {st : State} (r : Steady sync st) : Loop.Reachable sync st.abs := by
  induction r with
  | init wall mono => exact .init wall
  | step a r keeps stepped ih =>
    obtain ⟨a', abs⟩ := Act.abs_of_setsWall _ keeps
    have mapped := step_abs sync (r.synced sync) abs
    rw [stepped, Option.map_some'] at mapped
    exact .step a' ih mapped.symm

/-! ## What the goroutine does on two clocks -/

theorem timerCase_fired {st : State} {name : String} (firing : (timerCase sync st).pc = .firing name) :
    (wake st.heap st.now).2 = some name := by
  unfold timerCase at firing
  split at firing
  · cases firing
  · rcases woken : wake st.heap st.now with ⟨_, _ | fired⟩ <;> simp only [woken, Loop.Pc.firing.injEq] at firing ⊢
    · cases firing
    · rw [firing]

/-- The root of a steady state's heap has the least `nextRun` by `Less`. -/
theorem Steady.root_least {st : State} {e : Entry Instant} (r : Steady sync st) (root : st.heap[0]? = some e) :
    ∀ x ∈ st.heap, x.nextRun.before e.nextRun = false := by
  have synced := r.synced sync
  have valid := Loop.Reachable.valid sync r.abs
  have least := Scheduler.root_least valid.ordered (e := e.map Instant.wall) (by simp [root])
  intro x mem
  have le := least _ (List.mem_map_of_mem _ mem)
  rw [Instant.before_of_lockstep (synced x mem) (synced e (List.getElem?_mem root))]
  simpa using le

/-- **The running scheduler's invariants on two clocks.** In every reachable state, whatever the
wall clock did, the heap is the queue `Scheduler.run` leaves after some calls, with one entry per
name. In every steady state the heap is also in the heap order of `Less`, the goroutine runs only
once the timer exists, and while the goroutine waits in its `select` or calls `fire` a value
waits in `C` or the timer is armed for a monotonic deadline that, moved onto the wall clock, is
no later than the root's `nextRun`, or has passed. -/
theorem reachable_queue_invariants {st : State} (r : Reachable sync st) :
    (∃ calls, st.heap = Scheduler.run [] calls) ∧ Unique st.heap ∧
      (Steady sync st → HeapOrdered st.heap ∧ (st.pc ≠ .idle → st.timer.isSome) ∧
        (st.pc.waits → ∀ t e, st.timer = some t → st.heap[0]? = some e →
          t.c.isSome ∨ ∃ d, t.deadline = some d ∧ (d + st.offset ≤ e.nextRun.wall.unixNano ∨ d ≤ st.mono))) := by
  obtain ⟨calls, queue⟩ := r.queue
  refine ⟨⟨calls, queue⟩, queue ▸ unique_nil.run calls, fun steady => ?_⟩
  have synced := steady.synced sync
  have inv := Loop.Reachable.inv sync steady.abs
  have valid := Loop.Reachable.valid sync steady.abs
  refine ⟨(heapOrdered_map synced.agrees).mp (heapOrdered_iff.mpr valid.ordered),
    fun running => by simpa using inv.started running, fun waits t e timer root => ?_⟩
  rcases inv.armed waits (t.abs st.offset) (e.map Instant.wall) (by simp [timer]) (by simp [root]) with
    value | ⟨d, deadline, early⟩
  · exact .inl (by simpa [Timer.abs] using value)
  · obtain ⟨d₀, held, rfl⟩ := Option.map_eq_some'.mp deadline
    refine .inr ⟨d₀, held, ?_⟩
    simp only [Time.le_def, Entry.map_nextRun, abs_now, State.offset] at early ⊢
    omega

/-- `NewScheduler` with the wall clock at 2024-01-01 and the monotonic clock at zero, after
`Start` and `AddJob("a", @every 1m)`: the timer is armed a minute on, on the monotonic clock. -/
def everyMinute : State :=
  ⟨[⟨"a", .constantDelay (60 * Time.second), ⟨⟨1704067260 * Time.second⟩, some (60 * Time.second)⟩⟩],
    some ⟨some (60 * Time.second), none⟩, true, false, .select, ⟨1704067200 * Time.second⟩, 0⟩

theorem everyMinute_steady : Steady false everyMinute :=
  have started : Steady false ⟨[], some ⟨none, none⟩, false, false, .select, ⟨1704067200 * Time.second⟩, 0⟩ :=
    .step .start (.init ⟨1704067200 * Time.second⟩ 0) rfl rfl
  .step (.addJob "a" (.constantDelay (60 * Time.second))) started rfl rfl

theorem reachable_queue_invariants_everyMinute :
    (∃ calls, everyMinute.heap = Scheduler.run [] calls) ∧ Unique everyMinute.heap ∧
      (Steady false everyMinute → HeapOrdered everyMinute.heap ∧ (everyMinute.pc ≠ .idle → everyMinute.timer.isSome) ∧
        (everyMinute.pc.waits → ∀ t e, everyMinute.timer = some t → everyMinute.heap[0]? = some e →
          t.c.isSome ∨ ∃ d, t.deadline = some d ∧
            (d + everyMinute.offset ≤ e.nextRun.wall.unixNano ∨ d ≤ everyMinute.mono))) :=
  reachable_queue_invariants false everyMinute_steady.reachable

/-- **No lost wake-up while the clocks keep in step.** In every steady state where the goroutine
waits in its `select` and the root is due (`root.nextRun.After(now)` is false), the timer can
deliver at once: the goroutine can receive from `C`, or the runtime can fire the timer. -/
theorem steady_due_root_wakes {st : State} {e : Entry Instant} (r : Steady sync st) (waiting : st.pc = .select)
    (root : st.heap[0]? = some e) (due : after e.nextRun st.now = false) :
    (step sync st .recvTimer).isSome ∨ (step sync st .expire).isSome := by
  have synced := r.synced sync
  have due' : (e.map Instant.wall).nextRun ≤ st.abs.now := by
    rw [after, before_instant, Instant.before_of_lockstep (now_lockstep st) (synced e (List.getElem?_mem root))] at due
    simpa using due
  have wakes := Loop.due_root_wakes sync r.abs waiting (by simp [root]) due'
  rwa [← step_abs sync synced (a := .recvTimer) rfl, ← step_abs sync synced (a := .expire) rfl,
    Option.isSome_map', Option.isSome_map'] at wakes

/-- The every-minute scheduler a minute on. -/
def everyMinuteDue : State := { everyMinute with wall := ⟨1704067260 * Time.second⟩, mono := 60 * Time.second }

theorem everyMinuteDue_steady : Steady false everyMinuteDue := .step (.tick 60000000000) everyMinute_steady rfl rfl

theorem steady_due_root_wakes_everyMinute :
    (step false everyMinuteDue .recvTimer).isSome ∨ (step false everyMinuteDue .expire).isSome :=
  steady_due_root_wakes false everyMinuteDue_steady rfl rfl (by decide)

/- Once the wall clock is set on, a due root can wait: `* * * * *` queued at 23:59:59 falls due
at midnight by the wall clock, and after the wall clock is set to 01:00:00 the root is due, but its
timer still waits for the monotonic clock to reach one second, so neither timer event is enabled. -/
example : Reachable false
      ⟨[⟨"b", minutely, ⟨⟨1704067200 * Time.second⟩, none⟩⟩], some ⟨some Time.second, none⟩, true, false, .select,
        ⟨1704070800 * Time.second⟩, 0⟩ ∧
    after (⟨⟨1704067200 * Time.second⟩, none⟩ : Instant) ⟨⟨1704070800 * Time.second⟩, some 0⟩ = false ∧
    step false ⟨[⟨"b", minutely, ⟨⟨1704067200 * Time.second⟩, none⟩⟩], some ⟨some Time.second, none⟩, true, false,
      .select, ⟨1704070800 * Time.second⟩, 0⟩ .recvTimer = none ∧
    step false ⟨[⟨"b", minutely, ⟨⟨1704067200 * Time.second⟩, none⟩⟩], some ⟨some Time.second, none⟩, true, false,
      .select, ⟨1704070800 * Time.second⟩, 0⟩ .expire = none := by
  have started : Reachable false ⟨[], some ⟨none, none⟩, false, false, .select, ⟨1704067199 * Time.second⟩, 0⟩ :=
    .step .start (.init ⟨1704067199 * Time.second⟩ 0) rfl
  have queued : Reachable false ⟨[⟨"b", minutely, ⟨⟨1704067200 * Time.second⟩, none⟩⟩], some ⟨some Time.second, none⟩,
      true, false, .select, ⟨1704067199 * Time.second⟩, 0⟩ := .step (.addJob "b" minutely) started rfl
  exact ⟨.step (.setWall ⟨1704070800 * Time.second⟩) queued rfl, by decide, rfl, rfl⟩

/-- A step of the goroutine, the timer or time passing that the single-clock loop takes from a
synced state's view is the view of such a step of the two-clock goroutine. -/
theorem lift_internal {st : State} (synced : st.Synced) {a : Loop.Act} {ast : Loop.State} (internal : a.internal)
    (stepped : Loop.step sync st.abs a = some ast) :
    ∃ b st', b.internal ∧ b.setsWall = false ∧ step sync st b = some st' ∧ st'.abs = ast := by
  have lift : ∀ b : Act, b.abs st = some a → b.internal → b.setsWall = false →
      ∃ b st', b.internal ∧ b.setsWall = false ∧ step sync st b = some st' ∧ st'.abs = ast := fun b abs bi bs => by
    have mapped := step_abs sync synced abs
    rw [stepped] at mapped
    obtain ⟨st', run, rfl⟩ := Option.map_eq_some'.mp mapped
    exact ⟨b, st', bi, bs, run, rfl⟩
  cases a <;> simp only [Loop.Act.internal, Bool.false_eq_true] at internal
  case tick T =>
    have later : st.wall ≤ T := by
      simp only [Loop.step, abs_now, Option.ite_none_right_eq_some] at stepped; exact stepped.1
    refine lift (.tick (T.unixNano - st.wall.unixNano).toNat) ?_ rfl rfl
    obtain ⟨u⟩ := T
    simp only [Time.le_def] at later
    simp only [Act.abs, Option.some.injEq, Loop.Act.tick.injEq, Time.add, Time.mk.injEq]
    omega
  case expire => exact lift .expire rfl rfl rfl
  case recvTimer => exact lift .recvTimer rfl rfl rfl
  case timerCase => exact lift .timerCase rfl rfl rfl

theorem lift_steps {st : State} (synced : st.Synced) {acts : List Loop.Act} {ast : Loop.State}
    (internal : ∀ a ∈ acts, a.internal) (run : Loop.steps sync st.abs acts = some ast) :
    ∃ bs st', (∀ b ∈ bs, b.internal) ∧ steps sync st bs = some st' ∧ st'.abs = ast := by
  induction acts generalizing st with
  | nil => cases run; exact ⟨[], st, fun _ mem => absurd mem (List.not_mem_nil _), rfl, rfl⟩
  | cons a acts ih =>
    simp only [Loop.steps] at run
    cases stepped : Loop.step sync st.abs a with
    | none => rw [stepped] at run; cases run
    | some ast₁ =>
      rw [stepped] at run
      obtain ⟨b, st₁, bi, bs, stepped₁, rfl⟩ := lift_internal sync synced (internal a (List.mem_cons_self _ _)) stepped
      obtain ⟨bs', st', bi', run', abs'⟩ :=
        ih (synced.step sync bs stepped₁) (fun a mem => internal a (List.mem_cons_of_mem _ mem)) run
      refine ⟨b :: bs', st', fun c mem => ?_, by simp only [steps, stepped₁, run'], abs'⟩
      rcases List.mem_cons.mp mem with rfl | rest
      · exact bi
      · exact bi' c rest

/-- **Progress while the clocks keep in step.** From every steady state where the goroutine waits
in its `select`, steps of the goroutine, the timer and time passing alone fire the root's job
with the wall clock at the root's `nextRun`, or where it stands when that has passed. -/
theorem steady_root_fires_on_time {st : State} {e : Entry Instant} (r : Steady sync st) (waiting : st.pc = .select)
    (root : st.heap[0]? = some e) :
    ∃ acts st', (∀ a ∈ acts, a.internal) ∧ steps sync st acts = some st' ∧ st'.pc = .firing e.jobName ∧
      st'.wall.unixNano = max e.nextRun.wall.unixNano st.wall.unixNano := by
  obtain ⟨acts, ast, internal, run, fires, now⟩ :=
    Loop.root_fires_on_time sync r.abs waiting (e := e.map Instant.wall) (by simp [root])
  obtain ⟨bs, st', internal', run', abs⟩ := lift_steps sync (r.synced sync) internal run
  exact ⟨bs, st', internal', run', by rw [← abs_pc, abs]; exact fires, by rw [← abs_now, abs]; exact now⟩

theorem steady_root_fires_on_time_everyMinute :
    ∃ acts st', (∀ a ∈ acts, a.internal) ∧ steps false everyMinute acts = some st' ∧ st'.pc = .firing "a" ∧
      st'.wall.unixNano = max (1704067260 * Time.second) (1704067200 * Time.second) :=
  steady_root_fires_on_time false everyMinute_steady rfl rfl

/-- **Only the due root fires, and while the clocks keep in step it is least.** Every job the
goroutine fires is its heap's root, due at the reading of the timer case (`root.nextRun.After(now)`
is false), and the wake replaces only that entry, with the `nextRun` its schedule's `Next` gives
at that reading. From a steady state, no entry of the heap is `Before` the root. -/
theorem fires_only_due_root {st st' : State} {name : String}
    (stepped : step sync st .timerCase = some st') (firing : st'.pc = .firing name) :
    ∃ e rest, st.heap[0]? = some e ∧ (e :: rest).Perm st.heap ∧ e.jobName = name ∧ after e.nextRun st.now = false ∧
      st'.heap.Perm ({ e with nextRun := e.schedule.nextInstant st.now } :: rest) ∧
      (Steady sync st → ∀ x ∈ st.heap, x.nextRun.before e.nextRun = false) := by
  simp only [step, Option.ite_none_right_eq_some, Option.some.injEq] at stepped
  obtain ⟨-, rfl⟩ := stepped
  have fired := timerCase_fired sync firing
  rcases wake_perm st.heap st.now with same | ⟨e, rest, root, due, perm, woken, named⟩
  · rw [same] at fired; cases fired
  · have heap : (timerCase sync st).heap = (wake st.heap st.now).1 := by simp [timerCase_heap, root]
    rw [fired, Option.some.injEq] at named
    exact ⟨e, rest, root, perm, named.symm, due, heap ▸ woken, fun steady => steady.root_least sync root⟩

/-- The every-minute scheduler a minute on, woken by its timer. -/
def everyMinuteWoken : State := { everyMinuteDue with timer := some ⟨none, none⟩, pc := .woken }

theorem fires_only_due_root_everyMinute :
    ∃ e rest, everyMinuteWoken.heap[0]? = some e ∧ (e :: rest).Perm everyMinuteWoken.heap ∧ e.jobName = "a" ∧
      after e.nextRun everyMinuteWoken.now = false ∧
      (timerCase false everyMinuteWoken).heap.Perm ({ e with nextRun := e.schedule.nextInstant everyMinuteWoken.now } :: rest) ∧
      (Steady false everyMinuteWoken → ∀ x ∈ everyMinuteWoken.heap, x.nextRun.before e.nextRun = false) :=
  fires_only_due_root false (show step false everyMinuteWoken .timerCase = some (timerCase false everyMinuteWoken) from rfl) rfl

end Semantics
end Cronbat.MonotonicLoop
