import Cronbat.Executor
import Cronbat.Agreement

/-! The daemon `main` assembles: the scheduler's goroutine running `Scheduler.run` with the
`fire` callback `main` installs, the goroutines `handleTriggerRun` starts for manual runs, and
registry calls, all over one registry and one `runs` table.

`fire` is `executeJob(jobName, "schedule")`, called on the scheduler's goroutine: until that
execution returns, the goroutine is not in its `select` and takes no timer wake. A manual
trigger runs `executeJob(name, "manual")` in a goroutine of its own. -/
namespace Cronbat.Executor
open Cronbat Cronbat.Config Cronbat.Store Cronbat.Registry Cronbat.Scheduler

/-- A goroutine that can be inside `executeJob`. -/
inductive Goroutine where
  | scheduler
  | worker (i : Nat)
  deriving DecidableEq, Repr

/-- The daemon's state. -/
structure Daemon where
  registry : State
  table : Table
  /-- The execution each goroutine is inside: the scheduler's within `fire`, or a manual one. -/
  execs : Goroutine → Option Execution

/-- What can happen next. -/
inductive Action where
  /-- The timer case of `Scheduler.run`, at clock reading `now`. -/
  | wake (now : Time)
  /-- `handleTriggerRun` starts goroutine `i` for `TriggerRun(name)`. -/
  | trigger (i : Nat) (name : String)
  /-- Goroutine `g` takes its next step inside `executeJob`. -/
  | proceed (g : Goroutine) (env : ExecEnv)
  /-- A registry call. -/
  | request (env : Env) (c : Registry.Call)

/-- The daemon after one action; an action whose goroutine cannot take it changes nothing. -/
def step (dir : String) (d : Daemon) : Action → Daemon
  | .wake now =>
    match d.execs .scheduler with
    | some _ => d
    | none =>
      let woken := wake d.registry.sched now
      { d with registry := { d.registry with sched := woken.1 }
               execs := Function.update d.execs .scheduler (woken.2.map fun name => ⟨name, "schedule", .start⟩) }
  | .trigger i name =>
    match d.execs (.worker i) with
    | some _ => d
    | none => { d with execs := Function.update d.execs (.worker i) (some ⟨name, "manual", .start⟩) }
  | .proceed g env =>
    match d.execs g with
    | none => d
    | some x =>
      let next := advance d.registry.jobMap d.table x env
      { d with table := next.1, execs := Function.update d.execs g next.2 }
  | .request env c => { d with registry := (call dir env c d.registry).2 }

/-- The daemon after a sequence of actions. -/
def run (dir : String) (d : Daemon) (actions : List Action) : Daemon := actions.foldl (step dir) d

/-- The execution a goroutine holds after one of them is set. -/
theorem execs_update {execs : Goroutine → Option Execution} {g g' : Goroutine} {s : Option Execution}
    {x : Execution} (held : Function.update execs g s g' = some x) :
    g' = g ∧ s = some x ∨ g' ≠ g ∧ execs g' = some x := by
  by_cases same : g' = g
  · subst same
    exact .inl ⟨rfl, by simpa using held⟩
  · exact .inr ⟨same, by rwa [Function.update_noteq same] at held⟩

/-- A step of a goroutine inside `executeJob` is the execution's own step. -/
theorem step_proceed (dir : String) (registry : Registry.State) (table : Table)
    (execs : Goroutine → Option Execution) (g : Goroutine) (x : Execution) (env : ExecEnv) :
    step dir ⟨registry, table, Function.update execs g (some x)⟩ (.proceed g env) =
      ⟨registry, (advance registry.jobMap table x env).1,
        Function.update execs g (advance registry.jobMap table x env).2⟩ := by
  simp [step]

/-! ## Scheduled executions

`fire` runs on the scheduler's goroutine, and a wake while that goroutine is inside
`executeJob` is not taken. So every schedule-triggered execution in flight is the scheduler's,
and two never overlap. -/

/-- Every execution triggered by the schedule is the scheduler goroutine's. -/
def ScheduledOnScheduler (d : Daemon) : Prop :=
  ∀ g x, d.execs g = some x → x.trigger = "schedule" → g = .scheduler

theorem step_scheduledOnScheduler (dir : String) {d : Daemon} (inv : ScheduledOnScheduler d) :
    ∀ a, ScheduledOnScheduler (step dir d a)
  | .wake now => by
    dsimp only [step]
    split
    · exact inv
    · intro g x held scheduled
      rcases execs_update held with ⟨same, -⟩ | ⟨-, old⟩
      · exact same
      · exact inv g x old scheduled
  | .trigger i name => by
    dsimp only [step]
    split
    · exact inv
    · intro g x held scheduled
      rcases execs_update held with ⟨-, made⟩ | ⟨-, old⟩
      · cases made
        exact absurd scheduled (show "manual" ≠ "schedule" by decide)
      · exact inv g x old scheduled
  | .proceed g env => by
    dsimp only [step]
    split
    · exact inv
    · next x held =>
      intro g' y held' scheduled
      rcases execs_update held' with ⟨same, next⟩ | ⟨-, old⟩
      · exact same ▸ inv g x held ((advance_keeps_call next).2 ▸ scheduled)
      · exact inv g' y old scheduled
  | .request env c => inv

theorem run_scheduledOnScheduler (dir : String) {d : Daemon} (inv : ScheduledOnScheduler d) :
    ∀ actions, ScheduledOnScheduler (run dir d actions)
  | [] => inv
  | a :: rest => run_scheduledOnScheduler dir (step_scheduledOnScheduler dir inv a) rest

/-- From a state with no execution in flight, every run of the daemon has at most one
schedule-triggered execution in flight. -/
theorem scheduled_executions_serial (dir : String) (registry : State) (table : Table) (actions : List Action)
    {g g' : Goroutine} {x x' : Execution}
    (held : (run dir ⟨registry, table, fun _ => none⟩ actions).execs g = some x)
    (held' : (run dir ⟨registry, table, fun _ => none⟩ actions).execs g' = some x')
    (scheduled : x.trigger = "schedule") (scheduled' : x'.trigger = "schedule") : g = g' ∧ x = x' := by
  have inv := run_scheduledOnScheduler dir (d := ⟨registry, table, fun _ => none⟩) (fun _ _ held => by cases held)
    actions
  obtain rfl := inv g x held scheduled
  obtain rfl := inv g' x' held' scheduled'
  exact ⟨rfl, Option.some_inj.mp (held.symm.trans held')⟩

/-- An `@every 1m` job loaded at 00:00:00. The wake at 00:01:00 fires it and the scheduler's
goroutine runs `executeJob` itself: after the lookup and the first `RecordRun` it is inside
`Runner.Run`. A wake at 00:03:00 then pops nothing, though the entry is due at 00:02:00. -/
theorem scheduler_goroutine_runs_jobs :
    let job : Job := ⟨"a", "@every 1m", "true", "", "shell", "", [], none, [], [], none, [], "jobs/a.yaml"⟩
    let env : ExecEnv := ⟨⟨1704067260 * Time.second⟩, "r1", false, .success, false, 5, "", ""⟩
    let d := run "jobs" ⟨startup [job] (fun _ => none) ⟨1704067200 * Time.second⟩, [], fun _ => none⟩
      [.wake ⟨1704067260 * Time.second⟩, .proceed .scheduler env, .proceed .scheduler env]
    let later := step "jobs" d (.wake ⟨1704067380 * Time.second⟩)
    d.execs .scheduler = some ⟨"a", "schedule", .running ⟨"r1", "a", "running", 0, ⟨1704067260 * Time.second⟩,
      none, 0, "", "", "", "schedule", "", 0, ⟨1704067260 * Time.second⟩⟩ 0⟩ ∧
      d.registry.sched.map (·.nextRun) = [⟨1704067320 * Time.second⟩] ∧
      later.registry.sched.map (·.nextRun) = [⟨1704067320 * Time.second⟩] ∧
      later.execs .scheduler = d.execs .scheduler := by
  decide

end Cronbat.Executor
