import Cronbat.Scheduler

/-! `internal/config`'s job definitions and job files, as the registry in `cmd/cronbat` uses
them: `config.Job`, `validateJob` and `isSafeJobName`, and `SaveJob` together with the three
other file-system calls the registry makes (`MkdirAll`, `Rename`, `Remove`).

The file system is a map from paths to contents. A file `SaveJob` wrote holds the job it
marshalled; any other file holds some text. Every call can fail, as the environment decides:
a `Fault` says how. YAML itself is not modelled: `updateJobYAML` receives what
`yaml.Unmarshal` made of its payload. -/
namespace Cronbat.Config
open Cronbat

/-- `config.AnalyzeConfig`. -/
structure AnalyzeConfig where
  provider : String
  prompt : String
  model : String
  onResult : List String
  deriving DecidableEq, Repr

/-- `config.Job`. Go's maps are association lists, and a `metadata` value is kept as text. -/
structure Job where
  name : String
  schedule : String
  command : String
  workingDir : String
  executor : String
  timeout : String
  env : List (String × String)
  enabled : Option Bool
  onSuccess : List String
  onFailure : List String
  analyze : Option AnalyzeConfig
  metadata : List (String × String)
  filePath : String
  deriving DecidableEq, Repr

namespace Job

/-- `IsEnabled`: an unset `enabled` means enabled. -/
def isEnabled (j : Job) : Bool := j.enabled.getD true

/-- `ParseTimeout`: the empty timeout is no timeout; any other is read by `time.ParseDuration`,
whose error it returns. -/
def parseTimeoutResult (j : Job) : Except String Int :=
  if j.timeout = "" then .ok 0 else Time.parseDuration j.timeout

/-- The duration `ParseTimeout` gives, and `none` where it returns an error. -/
def parseTimeout (j : Job) : Option Int := j.parseTimeoutResult.toOption

theorem parseTimeout_eq_some {j : Job} {t : Int} : j.parseTimeout = some t ↔ j.parseTimeoutResult = .ok t := by
  unfold parseTimeout
  cases j.parseTimeoutResult <;> simp [Except.toOption]

end Job

/-- `applyJobDefaults`. -/
def applyJobDefaults (j : Job) : Job := if j.executor = "" then { j with executor := "shell" } else j

/-- `strings.TrimSpace`. -/
def trimSpace (s : String) : String := String.mk (Cron.trimSpace s.toList)

theorem trimSpace_trimSpace (s : String) : trimSpace (trimSpace s) = trimSpace s := by
  show String.mk (Cron.trimSpace (Cron.trimSpace s.toList)) = String.mk (Cron.trimSpace s.toList)
  rw [Cron.trimSpace_trimSpace]

/-- `isSafeJobName`: non-empty, over `[A-Za-z0-9._-]`. -/
def isSafeJobName (name : String) : Bool :=
  name ≠ "" && name.toList.all fun ch =>
    ('a' ≤ ch && ch ≤ 'z') || ('A' ≤ ch && ch ≤ 'Z') || ('0' ≤ ch && ch ≤ '9') ||
      ch = '-' || ch = '_' || ch = '.'

/-- `validateJob`: trims the text fields, checks them, and defaults the executor. The job is
returned as the pointer holds it afterwards. -/
def validateJob (j : Job) : Except String Job :=
  let j := { j with
    name := trimSpace j.name, schedule := trimSpace j.schedule, command := trimSpace j.command
    workingDir := trimSpace j.workingDir, executor := trimSpace j.executor
    timeout := trimSpace j.timeout }
  if j.name = "" then .error "job name is required"
  else if !isSafeJobName j.name then .error "invalid job name: use only letters, numbers, '.', '-', '_'"
  else if j.schedule = "" then .error "job schedule is required"
  else if j.command = "" then .error "job command is required"
  else
    let j := if j.executor = "" then { j with executor := "shell" } else j
    match j.parseTimeoutResult with
    | .error e => .error ("invalid timeout: " ++ e)
    | .ok _ => .ok j

/-- `validateJob` trims the name. -/
theorem validateJob_name {j j' : Job} (validated : validateJob j = .ok j') : j'.name = trimSpace j.name := by
  unfold validateJob at validated
  dsimp only at validated
  split_ifs at validated <;> (split at validated <;> cases validated) <;> rfl

theorem validateJob_trimmed {j j' : Job} (validated : validateJob j = .ok j') : trimSpace j'.name = j'.name := by
  rw [validateJob_name validated, trimSpace_trimSpace]

/-- On success `validateJob` returns the job with its text fields trimmed and the executor
defaulted, and that job has a safe name, a schedule, a command and a timeout that parses. It
does not parse the schedule. -/
theorem validateJob_ok {j j' : Job} (validated : validateJob j = .ok j') :
    j' = { j with name := trimSpace j.name, schedule := trimSpace j.schedule, command := trimSpace j.command
                  workingDir := trimSpace j.workingDir, timeout := trimSpace j.timeout
                  executor := if trimSpace j.executor = "" then "shell" else trimSpace j.executor } ∧
      isSafeJobName j'.name ∧ j'.schedule ≠ "" ∧ j'.command ≠ "" ∧ j'.parseTimeout.isSome := by
  unfold validateJob at validated
  dsimp only at validated
  split_ifs at validated with named safe scheduled commanded defaulted <;>
    first | cases validated | (split at validated <;> cases validated)
  all_goals
    rename_i timed
    refine ⟨?_, by simpa only [Bool.not_eq_true', Bool.not_eq_false] using safe, scheduled, commanded,
      by rw [Job.parseTimeout, timed]; rfl⟩
  · rw [if_pos defaulted]
  · rw [if_neg defaulted]
/-! ## Job files -/

/-- What a job file holds: the YAML `MarshalJobYAML` wrote for a job (all fields but the
`yaml:"-"` path), or any other text. -/
inductive Content where
  | yaml (job : Job)
  | text (body : String)
  deriving DecidableEq, Repr

/-- The files, by path. -/
abbrev Files := String → Option Content

/-- How the environment answers one file-system call. -/
inductive Fault where
  | none
  /-- The call fails with `err` and changes nothing. -/
  | fail (err : String)
  /-- `os.WriteFile` created or truncated the file, then failed with `err`, leaving `left`. -/
  | torn (left : Content) (err : String)
  deriving DecidableEq, Repr

/-- The error a call meeting the fault returns. -/
def Fault.error? : Fault → Option String
  | .none => .none
  | .fail err | .torn _ err => some err

/-- `filepath.Join(dir, file)` for a clean `dir` and a file name without separators. -/
def joinPath (dir file : String) : String := dir ++ "/" ++ file

/-- `MarshalJobYAML`. -/
def marshalJobYAML (job : Job) : Content := .yaml { job with filePath := "" }

/-- `SaveJob`: marshal, create the directory, write the file; on success the job's `FilePath`
becomes `path`. -/
def saveJob (path : String) (job : Job) (fault : Fault) (files : Files) :
    Option String × Job × Files :=
  match fault with
  | .none => (none, { job with filePath := path }, Function.update files path (some (marshalJobYAML job)))
  | .fail err => (some err, job, files)
  | .torn left err => (some err, job, Function.update files path (some left))

/-- What `os.Rename` and `os.Remove` report; `notExist` is an error matching `os.ErrNotExist`. -/
inductive FsResult where
  | ok
  | notExist
  | error (err : String)
  deriving DecidableEq, Repr

/-- `os.Rename(src, dst)`. -/
def rename (src dst : String) (fault : Fault) (files : Files) : FsResult × Files :=
  match files src, fault.error? with
  | none, _ => (.notExist, files)
  | some content, none => (.ok, Function.update (Function.update files src none) dst (some content))
  | some _, some err => (.error err, files)

/-- `os.Remove(path)`. -/
def remove (path : String) (fault : Fault) (files : Files) : FsResult × Files :=
  match files path, fault.error? with
  | none, _ => (.notExist, files)
  | some _, none => (.ok, Function.update files path none)
  | some _, some err => (.error err, files)

section Effects
variable {path q err : String} {job job' : Job} {fault : Fault} {files files' : Files}

theorem saveJob_ok (saved : saveJob path job fault files = (none, job', files')) :
    job' = { job with filePath := path } ∧ files' = Function.update files path (some (marshalJobYAML job)) := by
  unfold saveJob at saved
  split at saved <;> cases saved
  exact ⟨rfl, rfl⟩

/-- `SaveJob` writes only its own path, whether it fails or not. -/
theorem saveJob_elsewhere {result : Option String} (saved : saveJob path job fault files = (result, job', files'))
    (other : q ≠ path) : files' q = files q := by
  unfold saveJob at saved
  split at saved <;> cases saved <;> simp [Function.update_noteq other]

/-- A failing `SaveJob` leaves the files as they were, unless `os.WriteFile` failed after creating
or truncating its target. -/
theorem saveJob_failed (saved : saveJob path job fault files = (some err, job', files')) :
    files' = files ∨ ∃ left e, fault = .torn left e ∧ files' = Function.update files path (some left) := by
  unfold saveJob at saved
  split at saved <;> cases saved
  · exact .inl rfl
  · exact .inr ⟨_, _, rfl, rfl⟩

theorem remove_elsewhere (other : q ≠ path) : (remove path fault files).2 q = files q := by
  unfold remove
  split <;> simp [Function.update_noteq other]

/-- An `os.Remove` that meets no fault leaves no file at its path. -/
theorem remove_clears : (remove path .none files).2 path = none := by
  unfold remove
  split <;> simp_all [Fault.error?]

theorem remove_error (failed : remove path fault files = (.error err, files')) : files' = files := by
  unfold remove at failed
  split at failed <;> cases failed
  rfl

theorem rename_error (failed : rename path q fault files = (.error err, files')) : files' = files := by
  unfold rename at failed
  split at failed <;> cases failed
  rfl

end Effects

/-- `os.MkdirAll`: directories are not tracked, only the error. -/
def mkdirAll (fault : Fault) : Option String := fault.error?

end Cronbat.Config
