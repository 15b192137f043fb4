import Cronbat.Registry
import Cronbat.Store

/-! `executeJob` of `cmd/cronbat` and the part of `Runner.Run` (`internal/runner`) it reads.
An execution is a goroutine that takes four steps: it looks the job up, records the `running`
row, comes back from `Runner.Run` with the run finalised, and records the terminal row. Each
step reads what it needs from outside: the clock, the id `NewRunID` gives, whether the
database write fails, and how the command ended. Events, log files and the ring buffers are
not modelled; the output tails are taken as the buffers hold them. -/
namespace Cronbat.Executor
open Cronbat Cronbat.Config Cronbat.Store

/-- How `cmd.Run()` ends, as `os/exec` reports it. -/
inductive CmdOutcome where
  | success
  /-- `*exec.ExitError`: the process did not exit with status 0. `ExitCode()` is the status,
  or -1 when a signal ended the process, so it is never 0. -/
  | exitError (code : Int) (nonzero : code ≠ 0) (message : String)
  /-- Any other error: the command did not start, or copying its output failed. -/
  | otherError (message : String)

/-- `plugin.RunResult`, the fields `executeJob` stores. -/
structure RunResult where
  exitCode : Int
  stdout : String
  stderr : String
  durationMs : Nat
  error : String
  deriving DecidableEq, Repr

/-- `Runner.Run` once `cmd.Run()` has returned after `durationMs` (`time.Since` reads the
monotonic clock). `timedOut` is `ctx.Err() == context.DeadlineExceeded`, which only a positive
timeout can make true. -/
def runnerRun (timeout : Int) (outcome : CmdOutcome) (timedOut : Bool) (durationMs : Nat)
    (stdout stderr : String) : RunResult :=
  let result : RunResult := ⟨0, stdout, stderr, durationMs, ""⟩
  let deadline := timedOut && decide (0 < timeout)
  match outcome with
  | .success => result
  | .exitError code _ message => { result with error := if deadline then "timeout" else message, exitCode := code }
  | .otherError message => { result with error := if deadline then "timeout" else message, exitCode := -1 }

/-- Where an `executeJob` goroutine stands. -/
inductive Stage where
  /-- Called; `jobMap` not read yet. -/
  | start
  /-- The job is there, enabled, with a valid timeout: the `running` row is to be recorded. -/
  | recording (run : Run) (timeout : Int)
  /-- Inside `Runner.Run`. -/
  | running (run : Run) (timeout : Int)
  /-- `Runner.Run` returned and the run is finalised: the terminal row is to be recorded. -/
  | finishing (run : Run)
  deriving DecidableEq, Repr

/-- One `executeJob(jobName, trigger)` call. -/
structure Execution where
  jobName : String
  trigger : String
  stage : Stage
  deriving DecidableEq, Repr

/-- What a step of an execution reads from outside. -/
structure ExecEnv where
  now : Time
  runId : String
  recordFails : Bool
  outcome : CmdOutcome
  timedOut : Bool
  durationMs : Nat
  stdout : String
  stderr : String

/-- The status `executeJob` gives a finished run. -/
def runStatus (result : RunResult) : String :=
  if result.exitCode ≠ 0 ∨ result.error ≠ "" then "failure" else "success"

/-- The run as `executeJob` finalises it after `Runner.Run`, finished at `now`. -/
def finalize (run : Run) (result : RunResult) (now : Time) : Run :=
  { run with
    status := runStatus result, exitCode := result.exitCode, finishedAt := some now
    durationMs := result.durationMs, stdoutTail := result.stdout, stderrTail := result.stderr
    errorMsg := result.error }

/-- One step of an execution against `jobMap` and the `runs` table: the table after it, and
the execution unless `executeJob` returned. -/
def advance (jobMap : String → Option Job) (table : Table) (x : Execution) (env : ExecEnv) :
    Table × Option Execution :=
  match x.stage with
  | .start =>
    match jobMap x.jobName with
    | none => (table, none)
    | some j =>
      if !j.isEnabled then (table, none) else
      match j.parseTimeout with
      | none => (table, none)
      | some timeout =>
        let run : Run :=
          { id := env.runId, jobName := x.jobName, status := "running", exitCode := 0
            startedAt := env.now, finishedAt := none, durationMs := 0, stdoutTail := "", stderrTail := ""
            errorMsg := "", trigger := x.trigger, llmAnalysis := "", llmTokensUsed := 0
            createdAt := Time.zero }
        (table, some { x with stage := .recording run timeout })
  | .recording run timeout =>
    let recorded := recordRun env.now env.runId env.recordFails run table
    (recorded.2.2, some { x with stage := .running recorded.1 timeout })
  | .running run timeout =>
    let result := runnerRun timeout env.outcome env.timedOut env.durationMs env.stdout env.stderr
    (table, some { x with stage := .finishing (finalize run result env.now) })
  | .finishing run => ((recordRun env.now env.runId env.recordFails run table).2.2, none)

/-- An execution's steps keep its job and its trigger. -/
theorem advance_keeps_call {jobMap : String → Option Job} {table : Table} {x y : Execution} {env : ExecEnv}
    (next : (advance jobMap table x env).2 = some y) : y.jobName = x.jobName ∧ y.trigger = x.trigger := by
  unfold advance at next
  repeat' split at next
  all_goals cases next
  all_goals exact ⟨rfl, rfl⟩

end Cronbat.Executor
