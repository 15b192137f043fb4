import Cronbat.Daemon

/-! The lifecycle of a row of `runs`. Each execution inserts its row as `running` and upserts
it once more with the finished run; the upsert never rewrites the row's origin columns, and a
run id is held by one execution only. So every row is `running` with no `finished_at`, or
terminal with the fields the finished run gives it, and a terminal row is never written
again. -/
namespace Cronbat.Executor
open Cronbat Cronbat.Config Cronbat.Store

/-- A row in a terminal state. -/
def Terminal (row : Row) : Prop := row.status = "success" ∨ row.status = "failure"

/-- What every row of `runs` satisfies. -/
structure RowOk (row : Row) : Prop where
  running : row.status = "running" ↔ row.finishedAt = none
  status : row.status = "running" ∨ Terminal row
  duration : Terminal row → ∃ ms, row.durationMs = some ms ∧ 0 ≤ ms
  success : Terminal row → (row.status = "success" ↔ row.exitCode = some 0 ∧ row.errorMsg = none)
  failure : row.status = "failure" → row.exitCode ≠ some 0

/-- The upsert's update takes every column `RowOk` reads from the new row. -/
theorem RowOk.conflictUpdate {old new : Row} (ok : RowOk new) : RowOk (conflictUpdate old new) :=
  ⟨ok.running, ok.status, ok.duration, ok.success, ok.failure⟩

theorem rowOk_upsert {row : Row} {table : Table} (rows : ∀ r ∈ table, RowOk r) (ok : RowOk row) :
    ∀ r ∈ upsert row table, RowOk r := by
  intro r held
  rcases mem_upsert held with ⟨kept, -⟩ | ⟨-, rfl | ⟨old, -, rfl⟩⟩
  · exact rows r kept
  · exact ok
  · exact ok.conflictUpdate

theorem rowOk_running {run : Run} (running : run.status = "running") (open_ : run.finishedAt = none) :
    RowOk (insertRow run) := by
  refine ⟨by simp [insertRow, running, open_, formatTimePtr], .inl running, ?_, ?_, ?_⟩ <;>
    simp [Terminal, insertRow, running]

/-- `Runner.Run` reports an error only with a non-zero exit code. -/
theorem runnerRun_failed (timeout : Int) (outcome : CmdOutcome) (timedOut : Bool) (durationMs : Nat)
    (stdout stderr : String) (failed : (runnerRun timeout outcome timedOut durationMs stdout stderr).error ≠ "") :
    (runnerRun timeout outcome timedOut durationMs stdout stderr).exitCode ≠ 0 := by
  cases outcome with
  | success => exact absurd rfl failed
  | exitError code nonzero _ => exact nonzero
  | otherError _ => simp [runnerRun]

theorem runStatus_success (result : RunResult) :
    runStatus result = "success" ↔ result.exitCode = 0 ∧ result.error = "" := by
  unfold runStatus
  by_cases code : result.exitCode = 0 <;> by_cases error : result.error = "" <;> simp [code, error]

theorem runStatus_terminal (result : RunResult) : runStatus result = "success" ∨ runStatus result = "failure" := by
  unfold runStatus
  split <;> simp

/-- The row of a finalised run is terminal, with the fields its result gives. -/
theorem rowOk_finalize (run : Run) (result : RunResult) (now : Time)
    (failed : result.error ≠ "" → result.exitCode ≠ 0) : RowOk (insertRow (finalize run result now)) := by
  have terminal := runStatus_terminal result
  have finished : runStatus result ≠ "running" := by rcases terminal with same | same <;> rw [same] <;> decide
  refine ⟨?_, .inr terminal, fun _ => ⟨result.durationMs, rfl, Int.natCast_nonneg _⟩, fun _ => ?_, fun fails => ?_⟩
  · simp [insertRow, finalize, finished, formatTimePtr]
  · show runStatus result = "success" ↔ some result.exitCode = some 0 ∧ nullString result.error = none
    simp [runStatus_success, nullString]
  · show some result.exitCode ≠ some 0
    intro same
    have code : result.exitCode = 0 := Option.some_inj.mp same
    have success := (runStatus_success result).mpr ⟨code, by_contra fun error => failed error code⟩
    have failure : runStatus result = "failure" := fails
    rw [failure] at success
    exact absurd success (by decide)

/-! ## Executions -/

/-- The run id an execution holds once it has found its job. -/
def Execution.runId? (x : Execution) : Option String :=
  match x.stage with
  | .start => none
  | .recording run _ | .running run _ | .finishing run => some run.id

/-- No row has the id. -/
def Unclaimed (table : Table) (id : String) : Prop := ∀ row ∈ table, row.id ≠ id

/-- Every row with the id is `running`. -/
def RunningOnly (table : Table) (id : String) : Prop := ∀ row ∈ table, row.id = id → row.status = "running"

/-- What an execution's stage says of its run and of the table. -/
def ExecOk (table : Table) (x : Execution) : Prop :=
  match x.stage with
  | .start => True
  | .recording run _ => run.id ≠ "" ∧ run.status = "running" ∧ run.finishedAt = none ∧ Unclaimed table run.id
  | .running run _ => run.id ≠ "" ∧ RunningOnly table run.id
  | .finishing run => run.id ≠ "" ∧ RowOk (insertRow run) ∧ RunningOnly table run.id

section Tables
variable {table : Table} {row : Row} {id : String}

theorem Unclaimed.runningOnly (unclaimed : Unclaimed table id) : RunningOnly table id :=
  fun r held same => absurd same (unclaimed r held)

theorem Unclaimed.upsert (unclaimed : Unclaimed table id) (other : row.id ≠ id) :
    Unclaimed (Store.upsert row table) id := by
  intro r held same
  rcases mem_upsert held with ⟨kept, -⟩ | ⟨named, -⟩
  · exact unclaimed r kept same
  · exact other (named ▸ same)

theorem RunningOnly.upsert (running : RunningOnly table id) (other : row.id ≠ id) :
    RunningOnly (Store.upsert row table) id := by
  intro r held same
  rcases mem_upsert held with ⟨kept, -⟩ | ⟨named, -⟩
  · exact running r kept same
  · exact absurd (named ▸ same) other

/-- The first insert of a row under an id no row has. -/
theorem Unclaimed.insert (unclaimed : Unclaimed table row.id) (status : row.status = "running") :
    RunningOnly (Store.upsert row table) row.id := by
  intro r held same
  rcases mem_upsert held with ⟨kept, -⟩ | ⟨named, rfl | ⟨old, kept, rfl⟩⟩
  · exact absurd same (unclaimed r kept)
  · exact status
  · exact absurd named (unclaimed old kept)

/-- An upsert under an id whose rows are all `running` keeps every row's origin, and every
terminal row as it is. -/
theorem RunningOnly.frame (running : RunningOnly table row.id) :
    ∀ old ∈ table, ∃ new ∈ Store.upsert row table, SameOrigin old new ∧ (Terminal old → new = old) := by
  intro old held
  obtain ⟨new, kept, origin, other⟩ := @upsert_keeps row old table held
  refine ⟨new, kept, origin, fun terminal => other fun same => ?_⟩
  rcases terminal with done | done <;> rw [running old held same] at done <;> exact absurd done (by decide)

theorem ExecOk.upsert {x : Execution} (ok : ExecOk table x) (other : x.runId? ≠ some row.id) :
    ExecOk (Store.upsert row table) x := by
  cases stage : x.stage <;> simp only [ExecOk, Execution.runId?, stage, Option.some.injEq] at ok other ⊢
  · exact ⟨ok.1, ok.2.1, ok.2.2.1, ok.2.2.2.upsert fun same => other (congrArg some same.symm)⟩
  · exact ⟨ok.1, ok.2.upsert fun same => other (congrArg some same.symm)⟩
  · exact ⟨ok.1, ok.2.1, ok.2.2.upsert fun same => other (congrArg some same.symm)⟩

end Tables

/-! ## One step of an execution -/

section Advance
variable {table : Table} {x : Execution} {env : ExecEnv}

/-- `RowOk` reads a row's status, end, duration, exit code and error only. -/
theorem RowOk.of_columns {row row' : Row} (ok : RowOk row) (status : row'.status = row.status)
    (finished : row'.finishedAt = row.finishedAt) (duration : row'.durationMs = row.durationMs)
    (code : row'.exitCode = row.exitCode) (error : row'.errorMsg = row.errorMsg) : RowOk row' := by
  obtain ⟨running, status', terminal, success, failure⟩ := ok
  simp only [Terminal] at *
  constructor <;> simp only [Terminal, status, finished, duration, code, error] <;> assumption

theorem RowOk.created {run : Run} (c : Time) (ok : RowOk (insertRow run)) :
    RowOk (insertRow { run with createdAt := c }) :=
  ok.of_columns rfl rfl rfl rfl rfl

/-- A returned execution promises nothing. -/
theorem returned_none {P : Execution → Prop} : ∀ y, (none : Option Execution) = some y → P y :=
  fun _ returned => Option.noConfusion returned

/-- One step of an execution keeps every row sound and its own promise, keeps its run id or
takes the fresh one, and writes at most one row: under its own id, whose rows are all
`running`. -/
theorem advance_sound (jobMap : String → Option Job) (rows : ∀ r ∈ table, RowOk r) (ok : ExecOk table x)
    (fresh : x.stage = .start → env.runId ≠ "" ∧ Unclaimed table env.runId) :
    (∀ r ∈ (advance jobMap table x env).1, RowOk r) ∧
      (∀ y, (advance jobMap table x env).2 = some y → ExecOk (advance jobMap table x env).1 y ∧
        (y.runId? = x.runId? ∨ x.stage = .start ∧ y.runId? = some env.runId)) ∧
      ((advance jobMap table x env).1 = table ∨
        ∃ row, x.runId? = some row.id ∧ RunningOnly table row.id ∧
          (advance jobMap table x env).1 = upsert row table) := by
  unfold advance
  cases stage : x.stage with
  | start =>
    dsimp only
    split
    · exact ⟨rows, returned_none, .inl rfl⟩
    split
    · exact ⟨rows, returned_none, .inl rfl⟩
    split
    · exact ⟨rows, returned_none, .inl rfl⟩
    refine ⟨rows, ?_, .inl rfl⟩
    rintro y ⟨⟩
    exact ⟨⟨(fresh stage).1, rfl, rfl, (fresh stage).2⟩, .inr ⟨rfl, rfl⟩⟩
  | recording run timeout =>
    simp only [ExecOk, stage] at ok
    obtain ⟨named, running, open_, unclaimed⟩ := ok
    obtain ⟨recorded, written⟩ := recordRun_named env.now env.runId env.recordFails table named
    dsimp only
    rw [written, recorded]
    split
    · refine ⟨rows, ?_, .inl rfl⟩
      rintro y ⟨⟩
      exact ⟨⟨named, unclaimed.runningOnly⟩, .inl (by simp [Execution.runId?, stage])⟩
    · refine ⟨rowOk_upsert rows ((rowOk_running running open_).created _), ?_,
        .inr ⟨_, by simp [Execution.runId?, stage, insertRow], unclaimed.runningOnly, rfl⟩⟩
      rintro y ⟨⟩
      exact ⟨⟨named, Unclaimed.insert unclaimed running⟩, .inl (by simp [Execution.runId?, stage])⟩
  | running run timeout =>
    simp only [ExecOk, stage] at ok
    refine ⟨rows, ?_, .inl rfl⟩
    rintro y ⟨⟩
    exact ⟨⟨ok.1, rowOk_finalize _ _ _ (runnerRun_failed _ _ _ _ _ _), ok.2⟩,
      .inl (by simp [Execution.runId?, stage, finalize])⟩
  | finishing run =>
    simp only [ExecOk, stage] at ok
    obtain ⟨named, terminal, running⟩ := ok
    obtain ⟨recorded, written⟩ := recordRun_named env.now env.runId env.recordFails table named
    dsimp only
    rw [written, recorded]
    split
    · exact ⟨rows, returned_none, .inl rfl⟩
    · exact ⟨rowOk_upsert rows (terminal.created _), returned_none,
        .inr ⟨_, by simp [Execution.runId?, stage, insertRow], running, rfl⟩⟩

end Advance

/-! ## The daemon's runs -/

theorem Execution.runId?_start {x : Execution} (stage : x.stage = .start) : x.runId? = none := by
  simp [Execution.runId?, stage]

theorem ExecOk.start {table : Table} {x : Execution} (stage : x.stage = .start) : ExecOk table x := by
  simp [ExecOk, stage]

/-- An id that no row and no execution in flight holds: what `NewRunID` is taken to give. -/
structure FreshId (d : Daemon) (id : String) : Prop where
  named : id ≠ ""
  unclaimed : Unclaimed d.table id
  unheld : ∀ g x, d.execs g = some x → x.runId? ≠ some id

/-- Every execution that takes a run id in this action takes a fresh one. -/
def Fresh (d : Daemon) : Action → Prop
  | .proceed g env => ∀ x, d.execs g = some x → x.stage = .start → FreshId d env.runId
  | _ => True

/-- Every action of a sequence draws fresh ids. -/
def FreshRun (dir : String) (d : Daemon) : List Action → Prop
  | [] => True
  | a :: rest => Fresh d a ∧ FreshRun dir (step dir d a) rest

/-- The rows are sound, every execution keeps its stage's promise, and no two goroutines hold
one run id. -/
structure Sound (d : Daemon) : Prop where
  rows : ∀ r ∈ d.table, RowOk r
  execs : ∀ g x, d.execs g = some x → ExecOk d.table x
  distinct : ∀ g g' x x' id, d.execs g = some x → d.execs g' = some x' → x.runId? = some id →
    x'.runId? = some id → g = g'

section Daemon
variable {dir : String} {d : Daemon}

/-- Starting an execution on a goroutine keeps the daemon sound, whatever the registry. -/
theorem Sound.start (sound : Sound d) (registry : Registry.State) (g : Goroutine) {s : Option Execution}
    (starts : ∀ x, s = some x → x.stage = .start) : Sound ⟨registry, d.table, Function.update d.execs g s⟩ := by
  have cases_ : ∀ g' x, Function.update d.execs g s g' = some x → x.stage = .start ∨ d.execs g' = some x :=
    fun _ x held => (execs_update held).imp (fun made => starts x made.2) And.right
  refine ⟨sound.rows, fun g' x held => ?_, fun g₁ g₂ x₁ x₂ id held₁ held₂ id₁ id₂ => ?_⟩
  · rcases cases_ g' x held with stage | old
    · exact ExecOk.start stage
    · exact sound.execs g' x old
  · rcases cases_ g₁ x₁ held₁ with stage | old₁
    · simp [Execution.runId?_start stage] at id₁
    rcases cases_ g₂ x₂ held₂ with stage | old₂
    · simp [Execution.runId?_start stage] at id₂
    exact sound.distinct g₁ g₂ x₁ x₂ id old₁ old₂ id₁ id₂

/-- A step of goroutine `g` keeps the daemon sound. -/
theorem Sound.proceed (sound : Sound d) {g : Goroutine} {x : Execution} (held : d.execs g = some x)
    (env : ExecEnv) (fresh : x.stage = .start → FreshId d env.runId) :
    Sound { d with table := (advance d.registry.jobMap d.table x env).1,
                   execs := Function.update d.execs g (advance d.registry.jobMap d.table x env).2 } := by
  obtain ⟨rows, next, written⟩ := advance_sound d.registry.jobMap sound.rows (sound.execs g x held)
    (fun stage => ⟨(fresh stage).named, (fresh stage).unclaimed⟩)
  -- an execution of another goroutine never holds the id of `g`'s next execution
  have apart : ∀ g' x' y id, g' ≠ g → d.execs g' = some x' → (advance d.registry.jobMap d.table x env).2 = some y →
      y.runId? = some id → x'.runId? ≠ some id := by
    intro g' x' y id other held' next' own same
    rcases (next y next').2 with kept | ⟨stage, taken⟩
    · exact other (sound.distinct g' g x' x id held' held same (kept ▸ own))
    · exact (fresh stage).unheld g' x' held' (taken ▸ own ▸ same)
  refine ⟨rows, fun g' x' held' => ?_, fun g₁ g₂ x₁ x₂ id held₁ held₂ id₁ id₂ => ?_⟩
  · rcases execs_update held' with ⟨-, next'⟩ | ⟨other, old⟩
    · exact (next x' next').1
    rcases written with kept | ⟨row, own, -, upserted⟩
    · dsimp only
      rw [kept]
      exact sound.execs g' x' old
    · dsimp only
      rw [upserted]
      exact (sound.execs g' x' old).upsert fun same => other (sound.distinct g' g x' x row.id old held same own)
  · rcases execs_update held₁ with ⟨rfl, next₁⟩ | ⟨other₁, old₁⟩ <;>
      rcases execs_update held₂ with ⟨rfl, next₂⟩ | ⟨other₂, old₂⟩
    · rfl
    · exact absurd id₂ (apart g₂ x₂ x₁ id other₂ old₂ next₁ id₁)
    · exact absurd id₁ (apart g₁ x₁ x₂ id other₁ old₁ next₂ id₂)
    · exact sound.distinct g₁ g₂ x₁ x₂ id old₁ old₂ id₁ id₂

/-- Every action with fresh ids keeps the daemon sound. -/
theorem step_sound (sound : Sound d) (a : Action) (fresh : Fresh d a) : Sound (step dir d a) := by
  cases a with
  | wake now =>
    dsimp only [step]
    split
    · exact sound
    · refine sound.start _ .scheduler fun x made => ?_
      obtain ⟨name, -, rfl⟩ := Option.map_eq_some'.mp made
      rfl
  | trigger i name =>
    dsimp only [step]
    split
    · exact sound
    · refine sound.start _ (.worker i) fun x made => ?_
      cases made
      rfl
  | proceed g env =>
    dsimp only [step]
    split
    · exact sound
    · next x held => exact sound.proceed held env (fresh x held)
  | request env c => exact ⟨sound.rows, sound.execs, sound.distinct⟩

/-- Every action with fresh ids keeps each row's origin columns, and every terminal row as it
is. -/
theorem step_frame (sound : Sound d) (a : Action) (fresh : Fresh d a) :
    ∀ row ∈ d.table, ∃ row' ∈ (step dir d a).table, SameOrigin row row' ∧ (Terminal row → row' = row) := by
  have same : ∀ row ∈ d.table, ∃ row' ∈ d.table, SameOrigin row row' ∧ (Terminal row → row' = row) :=
    fun row held => ⟨row, held, ⟨rfl, rfl, rfl, rfl, rfl⟩, fun _ => rfl⟩
  cases a with
  | wake now => dsimp only [step]; split <;> exact same
  | trigger i name => dsimp only [step]; split <;> exact same
  | request env c => exact same
  | proceed g env =>
    dsimp only [step]
    split
    · exact same
    · next x held =>
      obtain ⟨-, -, written⟩ := advance_sound d.registry.jobMap sound.rows (sound.execs g x held)
        (fun stage => ⟨(fresh x held stage).named, (fresh x held stage).unclaimed⟩)
      rcases written with kept | ⟨row, -, running, upserted⟩
      · rw [kept]
        exact same
      · rw [upserted]
        exact running.frame

/-- A run of fresh-id actions keeps the daemon sound, every row's origin columns, and every
terminal row as it is. -/
theorem run_frame (sound : Sound d) (actions : List Action) (fresh : FreshRun dir d actions) :
    Sound (run dir d actions) ∧
      ∀ row ∈ d.table, ∃ row' ∈ (run dir d actions).table, SameOrigin row row' ∧ (Terminal row → row' = row) := by
  induction actions generalizing d with
  | nil => exact ⟨sound, fun row held => ⟨row, held, ⟨rfl, rfl, rfl, rfl, rfl⟩, fun _ => rfl⟩⟩
  | cons a rest ih =>
    obtain ⟨sound', frame'⟩ := ih (step_sound sound a fresh.1) fresh.2
    refine ⟨sound', fun row held => ?_⟩
    obtain ⟨mid, held', origin, kept⟩ := step_frame sound a fresh.1 row held
    obtain ⟨last, held'', origin', kept'⟩ := frame' mid held'
    refine ⟨last, held'', ?_, fun terminal => ?_⟩
    · obtain ⟨i, j, s, t, c⟩ := origin
      obtain ⟨i', j', s', t', c'⟩ := origin'
      exact ⟨i'.trans i, j'.trans j, s'.trans s, t'.trans t, c'.trans c⟩
    · obtain rfl := kept terminal
      exact kept' terminal

end Daemon

/-- The daemon's states from a registry and a `runs` table of sound rows, with no goroutine
inside `executeJob`, through actions that draw fresh run ids. -/
inductive Reachable (dir : String) : Daemon → Prop
  | init (registry : Registry.State) (table : Table) (rows : ∀ r ∈ table, RowOk r) :
    Reachable dir ⟨registry, table, fun _ => none⟩
  | step {d : Daemon} (a : Action) : Reachable dir d → Fresh d a → Reachable dir (step dir d a)

theorem Reachable.sound {dir : String} {d : Daemon} (reachable : Reachable dir d) : Sound d := by
  induction reachable with
  | init registry table rows =>
    refine ⟨rows, fun g x held => ?_, fun g _ x _ _ held => ?_⟩ <;> cases held
  | step a _ fresh sound => exact step_sound sound a fresh

/-- From every reachable state, through any further actions that draw fresh run ids: every row
is sound, and every row keeps its id, job name, start, trigger and creation time, and once
terminal keeps every column. -/
theorem run_record_lifecycle {dir : String} {d : Daemon} (reachable : Reachable dir d) (actions : List Action)
    (fresh : FreshRun dir d actions) :
    (∀ row ∈ (run dir d actions).table, RowOk row) ∧
      ∀ row ∈ d.table, ∃ row' ∈ (run dir d actions).table, SameOrigin row row' ∧ (Terminal row → row' = row) :=
  let ⟨sound, frame⟩ := run_frame reachable.sound actions fresh
  ⟨sound.rows, frame⟩

/-- A manual trigger of the enabled job `a` and its lookup, which draws the run id `r1`. -/
theorem run_record_lifecycle_trigger :
    let job : Job := ⟨"a", "@every 1m", "true", "", "shell", "", [], none, [], [], none, [], "jobs/a.yaml"⟩
    let d : Daemon := ⟨Registry.startup [job] (fun _ => none) Time.zero, [], fun _ => none⟩
    let env : ExecEnv := ⟨Time.zero, "r1", false, .success, false, 0, "", ""⟩
    let actions := [.trigger 0 "a", .proceed (.worker 0) env]
    Reachable "jobs" d ∧ FreshRun "jobs" d actions ∧
      (∀ row ∈ (run "jobs" d actions).table, RowOk row) ∧
      ∀ row ∈ d.table, ∃ row' ∈ (run "jobs" d actions).table, SameOrigin row row' ∧ (Terminal row → row' = row) := by
  intro job d env actions
  have reachable : Reachable "jobs" d := .init _ _ fun _ held => by cases held
  have fresh : FreshRun "jobs" d actions := by
    refine ⟨trivial, fun _ _ _ => ⟨by decide, fun _ held => (by cases held), fun g y held => ?_⟩, trivial⟩
    by_cases same : g = .worker 0
    · subst same
      simp only [step, d, Function.update_same, Option.some.injEq] at held
      simp [← held, Execution.runId?]
    · simp [step, d, Function.update_noteq same] at held
  exact ⟨reachable, fresh, run_record_lifecycle reachable actions fresh⟩

end Cronbat.Executor
