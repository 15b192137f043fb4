import Cronbat.Job

/-! The job registry of `cmd/cronbat`: the closures of `main` that take `jobsMu` to change
`jobMap`, `jobStateMap`, the scheduler's queue and the job files, each with its rollback
branches, and the startup that builds the registry from the loaded files.

A call reads the clock once (`Env.now`) and meets, at each file-system call it makes, the fault
the environment chose (`Env.faults`). `dir` is `cfg.JobsDir`. -/
namespace Cronbat.Registry
open Cronbat Cronbat.Config Cronbat.Scheduler Cronbat.Heap

/-- The fault each file-system call of one registry call meets. -/
structure Faults where
  save : Fault
  mkdir : Fault
  rename : Fault
  remove : Fault
  /-- The `os.Remove(newPath)` of `updateJobYAML` after it failed to remove the old file. -/
  cleanup : Fault
  deriving DecidableEq, Repr

/-- What one call reads from outside the registry. -/
structure Env where
  now : Time
  faults : Faults
  deriving DecidableEq, Repr

/-- The state `main` keeps: the maps behind `jobsMu`, the scheduler's queue, the job files. -/
structure State where
  jobMap : String → Option Job
  jobStateMap : String → Option String
  sched : EntryHeap
  files : Files

/-- The label `createJob` and `setJobEnabled` write. -/
def label (enabled : Bool) : String := if enabled then "started" else "stopped"

/-- `jobFilePath`. -/
def jobFilePath (dir : String) (j : Job) : String :=
  if j.filePath ≠ "" then j.filePath else joinPath dir (j.name ++ ".yaml")

/-- `applyScheduleLocked` at clock reading `now`, with the error it returns. -/
def applyScheduleLocked (now : Time) (j : Job) (sched : EntryHeap) : Option String × EntryHeap :=
  let sched := removeJob sched j.name
  if !j.isEnabled then (none, sched) else
  match parseSchedule j.schedule with
  | .error e => (some e, sched)
  | .ok schedule => (none, addJob sched j.name schedule now)

/-- `LoadJobs` over the directory's entries (name, is a directory), given what reading and
unmarshalling the file at each path gives. -/
def loadJobs (dir : String) (entries : List (String × Bool)) (unmarshal : String → Except String Job) :
    Except String (List Job) :=
  (entries.filter fun entry => !entry.2 && ".yaml".toList.isSuffixOf entry.1.toList).mapM fun entry =>
    match unmarshal (joinPath dir entry.1) with
    | .error e => .error ("parsing " ++ joinPath dir entry.1 ++ ": " ++ e)
    | .ok job => .ok { applyJobDefaults job with filePath := joinPath dir entry.1 }

/-- `main` at startup: `jobMap` and `jobStateMap` filled by name (a later file wins), then
`applyScheduleLocked` for every loaded job; a job whose schedule does not parse is logged
and skipped. -/
def startup (jobs : List Job) (files : Files) (now : Time) : State where
  jobMap := jobs.foldl (fun m j => Function.update m j.name (some j)) fun _ => none
  jobStateMap := jobs.foldl (fun m j => Function.update m j.name (some (label j.isEnabled))) fun _ => none
  sched := jobs.foldl (fun sched j => (applyScheduleLocked now j sched).2) []
  files := files

section Operations
variable (dir : String) (env : Env)

/-- `createJob`. -/
def createJob (newJob : Job) (r : State) : Except String Unit × State :=
  match validateJob newJob with
  | .error e => (.error e, r)
  | .ok candidate =>
  if (r.jobMap candidate.name).isSome then (.error ("job already exists: " ++ candidate.name), r) else
  let candidate := { candidate with filePath := joinPath dir (candidate.name ++ ".yaml") }
  match applyScheduleLocked env.now candidate r.sched with
  | (some e, sched) => (.error e, { r with sched := removeJob sched candidate.name })
  | (none, sched) =>
  match saveJob candidate.filePath candidate env.faults.save r.files with
  | (some e, _, files) => (.error e, { r with sched := removeJob sched candidate.name, files })
  | (none, candidate, files) =>
    (.ok (), { jobMap := Function.update r.jobMap candidate.name (some candidate)
               jobStateMap := Function.update r.jobStateMap candidate.name (some (label candidate.isEnabled))
               sched, files })

/-- `setJobEnabled`: on a failure the job and its schedule are put back. -/
def setJobEnabled (name : String) (enabled : Bool) (r : State) : Except String Unit × State :=
  match r.jobMap name with
  | none => (.error ("job not found: " ++ name), r)
  | some old =>
  let j := { old with enabled := some enabled }
  match applyScheduleLocked env.now j r.sched with
  | (some e, sched) => (.error e, { r with sched := (applyScheduleLocked env.now old sched).2 })
  | (none, sched) =>
  match saveJob (jobFilePath dir j) j env.faults.save r.files with
  | (some e, _, files) => (.error e, { r with sched := (applyScheduleLocked env.now old sched).2, files })
  | (none, j, files) =>
    (.ok (), { jobMap := Function.update r.jobMap name (some j)
               jobStateMap := Function.update r.jobStateMap name (some (label enabled)), sched, files })

/-- The second critical section of `startJob`, `stopJob` and `pauseJob`. -/
def writeLabel (name lbl : String) (r : State) : State :=
  { r with jobStateMap := Function.update r.jobStateMap name (some lbl) }

/-- `setJobEnabled`, then, once it has released `jobsMu`, the label written under it again. -/
def setThenLabel (name : String) (enabled : Bool) (lbl : String) (r : State) :
    Except String Unit × State :=
  match setJobEnabled dir env name enabled r with
  | (.error e, r) => (.error e, r)
  | (.ok (), r) => (.ok (), writeLabel name lbl r)

/-- `enableJob`. -/
def enableJob (name : String) := setJobEnabled dir env name true

/-- `disableJob`. -/
def disableJob (name : String) := setJobEnabled dir env name false

/-- `startJob`. -/
def startJob (name : String) := setThenLabel dir env name true "started"

/-- `stopJob`. -/
def stopJob (name : String) := setThenLabel dir env name false "stopped"

/-- `pauseJob`. -/
def pauseJob (name : String) := setThenLabel dir env name false "paused"

/-- `archiveJob`: the job leaves the queue first; its file is moved to
`<dir>/archive/<name>-<timestamp>.yaml`, or written there when it is missing. -/
def archiveJob (name : String) (r : State) : Except String Unit × State :=
  match r.jobMap name with
  | none => (.error ("job not found: " ++ name), r)
  | some j =>
  let r := { r with sched := removeJob r.sched name }
  match mkdirAll env.faults.mkdir with
  | some e => (.error e, r)
  | none =>
  let dstPath := joinPath (joinPath dir "archive") (j.name ++ "-" ++ env.now.formatCompact ++ ".yaml")
  let archived (files : Files) : State :=
    { r with jobMap := Function.update r.jobMap name none
             jobStateMap := Function.update r.jobStateMap name none, files }
  match rename (jobFilePath dir j) dstPath env.faults.rename r.files with
  | (.ok, files) => (.ok (), archived files)
  | (.error e, _) => (.error e, r)
  | (.notExist, _) =>
    match saveJob dstPath { j with filePath := dstPath } env.faults.save r.files with
    | (some e, _, files) => (.error e, { r with files })
    | (none, _, files) => (.ok (), archived files)

/-- `deleteJob`: a file that is already gone does not stop it. -/
def deleteJob (name : String) (r : State) : Except String Unit × State :=
  match r.jobMap name with
  | none => (.error ("job not found: " ++ name), r)
  | some j =>
  match remove (jobFilePath dir j) env.faults.remove r.files with
  | (.error e, _) => (.error e, r)
  | (_, files) =>
    (.ok (), { jobMap := Function.update r.jobMap name none
               jobStateMap := Function.update r.jobStateMap name none
               sched := removeJob r.sched name, files })

/-- `updateJobYAML`, given what `yaml.Unmarshal` made of the payload; returns the job's new
name. The job may be renamed, and every failure after the maps were changed restores them. -/
def updateJobYAML (name : String) (unmarshalled : Except String Job) (r : State) :
    Except String String × State :=
  match unmarshalled with
  | .error e => (.error e, r)
  | .ok parsed =>
  let parsed := applyJobDefaults parsed
  let parsed := { parsed with name := trimSpace parsed.name }
  if parsed.name = "" then (.error "job name is required in YAML", r) else
  match validateJob parsed with
  | .error e => (.error e, r)
  | .ok parsed =>
  match r.jobMap name with
  | none => (.error ("job not found: " ++ name), r)
  | some old =>
  let newName := parsed.name
  if newName ≠ name ∧ (r.jobMap newName).isSome then (.error ("job already exists: " ++ newName), r) else
  let oldState := r.jobStateMap name
  let oldPath := jobFilePath dir old
  let newPath := joinPath dir (newName ++ ".yaml")
  let parsed := { parsed with filePath := newPath }
  let nextState :=
    if parsed.isEnabled then "started"
    else if oldState.getD "" = "" ∨ oldState.getD "" = "started" then "stopped" else oldState.getD ""
  let jobMap :=
    Function.update (if newName ≠ name then Function.update r.jobMap name none else r.jobMap)
      newName (some parsed)
  let jobStateMap :=
    Function.update (if newName ≠ name then Function.update r.jobStateMap name none else r.jobStateMap)
      newName (some nextState)
  let restoredJobs :=
    Function.update (if newName ≠ name then Function.update jobMap newName none else jobMap) name (some old)
  let restoredStates :=
    Function.update (if newName ≠ name then Function.update jobStateMap newName none else jobStateMap)
      name oldState
  match applyScheduleLocked env.now parsed (removeJob r.sched name) with
  | (some e, sched) =>
    (.error e, { r with jobMap := restoredJobs, jobStateMap := restoredStates
                        sched := (applyScheduleLocked env.now old sched).2 })
  | (none, sched) =>
  let restored (files : Files) : State :=
    { jobMap := restoredJobs, jobStateMap := restoredStates, files
      sched := (applyScheduleLocked env.now old (removeJob (removeJob sched name) newName)).2 }
  match saveJob newPath parsed env.faults.save r.files with
  | (some e, _, files) => (.error e, restored files)
  | (none, _, files) =>
  if newPath = oldPath then (.ok newName, { jobMap, jobStateMap, sched, files }) else
  match remove oldPath env.faults.remove files with
  | (.error e, _) => (.error e, restored (remove newPath env.faults.cleanup files).2)
  | (_, files) => (.ok newName, { jobMap, jobStateMap, sched, files })

/-- `updateJobSettings`: the job keeps its name and file; the new fields are trimmed and
validated, and every failure after that restores the job and its schedule. -/
def updateJobSettings (name : String) (updated : Job) (r : State) : Except String Unit × State :=
  match r.jobMap name with
  | none => (.error ("job not found: " ++ name), r)
  | some old =>
  let executor := trimSpace updated.executor
  let candidate := { old with
    name, schedule := trimSpace updated.schedule, command := trimSpace updated.command
    workingDir := trimSpace updated.workingDir, executor := if executor = "" then "shell" else executor
    timeout := trimSpace updated.timeout, env := updated.env, onSuccess := updated.onSuccess
    onFailure := updated.onFailure, metadata := updated.metadata, analyze := updated.analyze
    enabled := match updated.enabled with
      | some v => some v
      | none => old.enabled }
  match validateJob candidate with
  | .error e => (.error e, r)
  | .ok candidate =>
  let candidate := { candidate with filePath := jobFilePath dir old }
  match applyScheduleLocked env.now candidate r.sched with
  | (some e, sched) => (.error e, { r with sched := (applyScheduleLocked env.now old sched).2 })
  | (none, sched) =>
  match saveJob (jobFilePath dir candidate) candidate env.faults.save r.files with
  | (some e, _, files) => (.error e, { r with sched := (applyScheduleLocked env.now old sched).2, files })
  | (none, candidate, files) =>
    let state := (r.jobStateMap name).getD ""
    let state := if candidate.isEnabled then "started" else if state = "" ∨ state = "started" then "stopped" else state
    (.ok (), { jobMap := Function.update r.jobMap name (some candidate)
               jobStateMap := Function.update r.jobStateMap name (some state), sched, files })

end Operations

/-- A registry operation with its arguments, as the web server calls it. -/
inductive Call where
  | createJob (job : Job)
  | updateJobSettings (name : String) (updated : Job)
  | updateJobYAML (name : String) (unmarshalled : Except String Job)
  | enableJob (name : String)
  | disableJob (name : String)
  | startJob (name : String)
  | stopJob (name : String)
  | pauseJob (name : String)
  | archiveJob (name : String)
  | deleteJob (name : String)

/-- One call, run to completion. -/
def call (dir : String) (env : Env) : Call → State → Except String Unit × State
  | .createJob job => createJob dir env job
  | .updateJobSettings name updated => updateJobSettings dir env name updated
  | .updateJobYAML name unmarshalled => fun r =>
    Prod.map (Except.map fun _ => ()) id (updateJobYAML dir env name unmarshalled r)
  | .enableJob name => enableJob dir env name
  | .disableJob name => disableJob dir env name
  | .startJob name => startJob dir env name
  | .stopJob name => stopJob dir env name
  | .pauseJob name => pauseJob dir env name
  | .archiveJob name => archiveJob dir env name
  | .deleteJob name => deleteJob dir env name

/-- Calls run one after another, each with its own environment. -/
def run (dir : String) (r : State) : List (Env × Call) → State
  | [] => r
  | (env, c) :: rest => run dir (call dir env c r).2 rest

end Cronbat.Registry
