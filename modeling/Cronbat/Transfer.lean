import Cronbat.Api

/-! The job import of `internal/web/api` (`jobs_transfer.go`). `parseImportedJobsYAML` reads
the documents the YAML decoder yields, normalises each, drops the empty ones, applies the
defaults of the import and checks them with `validateImportedJob`, which, unlike the registry's
`validateJob`, parses the schedule. `handleImportJobs` plans the import against the names
`a.Jobs()` lists: payload jobs under a listed name are updated, the others created, and with
`replace` every other listed name is deleted. Then it makes the registry calls one after
another and stops at the first that fails.

YAML is not modelled: the handler receives the decoder as a function from the body to the
documents it decodes before `io.EOF`, each a job or the decoding error. -/
namespace Cronbat.Transfer
open Cronbat Cronbat.Config Cronbat.Registry Cronbat.Scheduler Cronbat.Heap Cronbat.Api

/-! ## Parsing the payload -/

/-- `normalizeImportedJob`. -/
def normalizeImportedJob (j : Job) : Job :=
  { j with
    name := trimSpace j.name, schedule := trimSpace j.schedule, command := trimSpace j.command
    workingDir := trimSpace j.workingDir, executor := trimSpace j.executor, timeout := trimSpace j.timeout }

/-- `applyImportedDefaults`. -/
def applyImportedDefaults (j : Job) : Job :=
  let j := if j.executor = "" then { j with executor := "shell" } else j
  if j.enabled = none then { j with enabled := some true } else j

/-- `isEmptyImportDoc`. -/
def isEmptyImportDoc (j : Job) : Bool :=
  j.name = "" && j.schedule = "" && j.command = "" && j.workingDir = "" && j.executor = "" &&
    j.timeout = "" && j.enabled = none && j.env.isEmpty && j.onSuccess.isEmpty && j.onFailure.isEmpty &&
    j.analyze = none && j.metadata.isEmpty

/-- `isSafeJobName` of the api package: unlike the registry's, it accepts the empty name. -/
def isSafeJobName (name : String) : Bool :=
  name.toList.all fun ch =>
    ('a' ≤ ch && ch ≤ 'z') || ('A' ≤ ch && ch ≤ 'Z') || ('0' ≤ ch && ch ≤ '9') ||
      ch = '-' || ch = '_' || ch = '.'

/-- The two `isSafeJobName`s differ in the empty name only, which `validateImportedJob` rejects
before it asks. -/
theorem config_isSafeJobName (name : String) :
    Config.isSafeJobName name = (decide (name ≠ "") && isSafeJobName name) := rfl

/-- `validateImportedJob`. -/
def validateImportedJob (j : Job) : Except String Unit :=
  if j.name = "" then .error "job name is required"
  else if !isSafeJobName j.name then .error "invalid job name: use only letters, numbers, '.', '-', '_'"
  else if j.schedule = "" then .error "job schedule is required"
  else match parseSchedule j.schedule with
  | .error e => .error ("invalid schedule: " ++ e)
  | .ok _ =>
  if j.command = "" then .error "job command is required"
  else match j.parseTimeoutResult with
  | .error e => .error ("invalid timeout: " ++ e)
  | .ok _ => .ok ()

/-- The loop of `parseImportedJobsYAML` after `docNum` documents, with the names seen and the
jobs kept so far. -/
def parseDocs : Nat → List String → List Job → List (Except String Job) → Except String (List Job)
  | _, _, imported, [] => if imported.isEmpty then .error "no jobs found in import payload" else .ok imported
  | docNum, seen, imported, doc :: rest =>
    match doc with
    | .error e => .error ("invalid YAML in document " ++ toString (docNum + 1) ++ ": " ++ e)
    | .ok job =>
      let job := normalizeImportedJob job
      if isEmptyImportDoc job then parseDocs (docNum + 1) seen imported rest else
      let job := applyImportedDefaults job
      match validateImportedJob job with
      | .error e => .error ("invalid document " ++ toString (docNum + 1) ++ ": " ++ e)
      | .ok () =>
        if job.name ∈ seen then .error ("duplicate job name in import payload: " ++ job.name)
        else parseDocs (docNum + 1) (job.name :: seen) (imported ++ [job]) rest

/-- `parseImportedJobsYAML`, given the documents the decoder yields. -/
def parseImportedJobsYAML (docs : List (Except String Job)) : Except String (List Job) :=
  parseDocs 0 [] [] docs

/-- The jobs a payload of decoded documents describes: the non-empty documents, normalised and
with the import's defaults, in order. -/
def importedJobs (decoded : List Job) : List Job :=
  ((decoded.map normalizeImportedJob).filter fun j => !isEmptyImportDoc j).map applyImportedDefaults

@[simp] theorem importedJobs_nil : importedJobs [] = [] := rfl

theorem importedJobs_cons (doc : Job) (rest : List Job) :
    importedJobs (doc :: rest) =
      if isEmptyImportDoc (normalizeImportedJob doc) then importedJobs rest
      else applyImportedDefaults (normalizeImportedJob doc) :: importedJobs rest := by
  by_cases empty : isEmptyImportDoc (normalizeImportedJob doc) <;> simp [importedJobs, empty]

/-- The parser's loop succeeds only on decoded documents, and then appends the jobs they
describe, all valid and of names new to the loop. -/
theorem parseDocs_ok {docs : List (Except String Job)} {docNum : Nat} {seen : List String}
    {kept imported : List Job} (seen_iff : ∀ x, x ∈ seen ↔ x ∈ kept.map (·.name))
    (distinct : (kept.map (·.name)).Nodup) (parsed : parseDocs docNum seen kept docs = .ok imported) :
    ∃ decoded, docs = decoded.map .ok ∧ imported = kept ++ importedJobs decoded ∧
      (imported.map (·.name)).Nodup ∧ (∀ j ∈ importedJobs decoded, validateImportedJob j = .ok ()) ∧
      imported ≠ [] := by
  induction docs generalizing docNum seen kept with
  | nil =>
    unfold parseDocs at parsed
    split at parsed
    · cases parsed
    · next nonempty =>
      cases parsed
      exact ⟨[], rfl, by simp, distinct, by simp, fun empty => nonempty (by rw [empty]; rfl)⟩
  | cons doc rest ih =>
    unfold parseDocs at parsed
    rcases doc with e | job
    · cases parsed
    dsimp only at parsed
    split at parsed
    · next empty =>
      obtain ⟨decoded, rfl, rfl, rest⟩ := ih seen_iff distinct parsed
      exact ⟨job :: decoded, rfl, by rw [importedJobs_cons, if_pos empty], by
        simpa [importedJobs_cons, empty] using rest⟩
    · next nonempty =>
      split at parsed
      · cases parsed
      · next valid =>
        split at parsed
        · cases parsed
        · next fresh =>
          have seen_iff' : ∀ x, x ∈ (applyImportedDefaults (normalizeImportedJob job)).name :: seen ↔
              x ∈ (kept ++ [applyImportedDefaults (normalizeImportedJob job)]).map (·.name) := by
            simp [seen_iff, or_comm]
          have distinct' : ((kept ++ [applyImportedDefaults (normalizeImportedJob job)]).map (·.name)).Nodup := by
            simpa [List.nodup_append, ← seen_iff] using ⟨distinct, fresh⟩
          obtain ⟨decoded, rfl, rfl, nodup, validated, nonnil⟩ := ih seen_iff' distinct' parsed
          refine ⟨job :: decoded, rfl, by simp [importedJobs_cons, nonempty], nodup, ?_, nonnil⟩
          simpa [importedJobs_cons, nonempty, valid] using validated

/-- What `parseImportedJobsYAML` accepts: a payload whose every document decoded, describing at
least one job, each valid and of a name no other has. -/
theorem parseImportedJobsYAML_ok {docs : List (Except String Job)} {imported : List Job}
    (parsed : parseImportedJobsYAML docs = .ok imported) :
    ∃ decoded, docs = decoded.map .ok ∧ imported = importedJobs decoded ∧
      (imported.map (·.name)).Nodup ∧ (∀ j ∈ imported, validateImportedJob j = .ok ()) ∧ imported ≠ [] := by
  obtain ⟨decoded, docs_eq, rfl, nodup, validated, nonnil⟩ :=
    @parseDocs_ok docs 0 [] [] imported (by simp) List.nodup_nil parsed
  exact ⟨decoded, docs_eq, List.nil_append _, nodup, by simpa using validated, nonnil⟩

/-- `validateImportedJob` passes a job with a safe name, a schedule that parses, a command and a
timeout that parses. -/
theorem validateImportedJob_ok {j : Job} (valid : validateImportedJob j = .ok ()) :
    Config.isSafeJobName j.name ∧ j.schedule ≠ "" ∧ (∃ s, parseSchedule j.schedule = .ok s) ∧
      j.command ≠ "" ∧ j.parseTimeout.isSome := by
  unfold validateImportedJob at valid
  split_ifs at valid with named safe scheduled commanded <;> (repeat' split at valid) <;> (try cases valid)
  next _ s parsed _ _ timed =>
    refine ⟨?_, scheduled, ⟨s, parsed⟩, commanded, by rw [Job.parseTimeout, timed]; rfl⟩
    simpa [config_isSafeJobName, named] using safe

/-! ## The jobs the import hands to the registry -/

/-- A job as the import hands it to the registry: its text fields trimmed, an executor, and
`enabled` set. -/
structure Normal (j : Job) : Prop where
  name : trimSpace j.name = j.name
  schedule : trimSpace j.schedule = j.schedule
  command : trimSpace j.command = j.command
  workingDir : trimSpace j.workingDir = j.workingDir
  executor : trimSpace j.executor = j.executor
  timeout : trimSpace j.timeout = j.timeout
  executor_ne : j.executor ≠ ""
  enabled : j.enabled.isSome

/-- `applyImportedDefaults` sets the executor and `enabled` when they are unset. -/
theorem applyImportedDefaults_eq (j : Job) :
    applyImportedDefaults j =
      { j with executor := if j.executor = "" then "shell" else j.executor, enabled := some (j.enabled.getD true) } := by
  obtain ⟨_, _, _, _, executor, _, _, enabled, _, _, _, _, _⟩ := j
  by_cases blank : executor = "" <;> cases enabled <;> simp [applyImportedDefaults, blank]

theorem normal_imported (doc : Job) : Normal (applyImportedDefaults (normalizeImportedJob doc)) := by
  have shell : trimSpace "shell" = "shell" := by decide
  rw [applyImportedDefaults_eq]
  refine ⟨trimSpace_trimSpace _, trimSpace_trimSpace _, trimSpace_trimSpace _, trimSpace_trimSpace _, ?_, 
    trimSpace_trimSpace _, ?_, rfl⟩ <;> dsimp only [normalizeImportedJob] <;> split
  · exact shell
  · exact trimSpace_trimSpace _
  · decide
  · assumption

/-- A normal job that passes `validateImportedJob` passes the registry's `validateJob`
unchanged. -/
theorem Normal.validateJob {j : Job} (normal : Normal j) (valid : validateImportedJob j = .ok ()) :
    validateJob j = .ok j := by
  obtain ⟨safe, scheduled, -, commanded, timed⟩ := validateImportedJob_ok valid
  have named : j.name ≠ "" := by
    intro blank
    simp [config_isSafeJobName, blank] at safe
  obtain ⟨t, timed⟩ := Option.isSome_iff_exists.mp timed
  rw [Job.parseTimeout_eq_some] at timed
  unfold Config.validateJob
  simp only [normal.name, normal.schedule, normal.command, normal.workingDir, normal.executor, normal.timeout]
  simp [named, safe, scheduled, commanded, normal.executor_ne, timed]

/-! ## What a registry call that succeeds stores -/

/-- A job's settings: all it holds but its name and its file. -/
def settings (j : Job) : Job := { j with name := "", filePath := "" }

/-- What the registry's checks guarantee of a job it stores: `validateJob`'s checks, and a
schedule that parses if the job is enabled. -/
structure Checked (j : Job) : Prop where
  name : Config.isSafeJobName j.name
  schedule_ne : j.schedule ≠ ""
  command : j.command ≠ ""
  timeout : j.parseTimeout.isSome
  schedule : j.isEnabled → ∃ s, parseSchedule j.schedule = .ok s

theorem applyScheduleLocked_parses {now : Time} {j : Job} {h sched : EntryHeap}
    (applied : applyScheduleLocked now j h = (none, sched)) (enabled : j.isEnabled) :
    ∃ s, parseSchedule j.schedule = .ok s := by
  unfold applyScheduleLocked at applied
  simp only [enabled, Bool.not_true, Bool.false_eq_true, if_false] at applied
  split at applied
  · cases applied
  · exact ⟨_, ‹_›⟩

/-- A job `validateJob` returned and `applyScheduleLocked` took is checked, whatever its file. -/
theorem Checked.of {cand c : Job} {now : Time} {h sched : EntryHeap} {p : String}
    (validated : validateJob cand = .ok c) (applied : applyScheduleLocked now { c with filePath := p } h = (none, sched))
    (x : String) : Checked { c with filePath := x } :=
  let ⟨_, safe, scheduled, commanded, timed⟩ := validateJob_ok validated
  ⟨safe, scheduled, commanded, timed, applyScheduleLocked_parses applied⟩

section Calls
variable {dir : String} {env : Env} {r r' : State}

/-- A `createJob` that succeeds stores the job `validateJob` returned under its name, which was
free, and files it by that name. -/
theorem createJob_ok {newJob : Job} (created : createJob dir env newJob r = (.ok (), r')) :
    ∃ c, validateJob newJob = .ok c ∧ r.jobMap c.name = none ∧
      r'.jobMap = Function.update r.jobMap c.name (some { c with filePath := joinPath dir (c.name ++ ".yaml") }) ∧
      Checked { c with filePath := joinPath dir (c.name ++ ".yaml") } := by
  unfold createJob at created
  split at created
  · cases created
  next c validated =>
  split at created
  · cases created
  next free =>
  dsimp only at created
  split at created
  · cases created
  next sched applied =>
  split at created
  · cases created
  next saved =>
  cases created
  obtain ⟨rfl, -⟩ := saveJob_ok saved
  exact ⟨c, validated, by simpa using free, rfl, Checked.of validated applied _⟩

/-- A disabled job whose schedule is not a cron expression: `createJob` installs it, since
`validateJob` does not parse the schedule and `applyScheduleLocked` parses only enabled jobs,
while `validateImportedJob` rejects the same job. -/
theorem createJob_installs_unparsable_schedule :
    (createJob "jobs" ⟨Time.zero, ⟨.none, .none, .none, .none, .none⟩⟩ ⟨"nightly", "not a cron", "backup.sh", "", "", "", [], some false, [], [], none, [], ""⟩
        (startup [] (fun _ => none) Time.zero)).1 = .ok () ∧
      ((createJob "jobs" ⟨Time.zero, ⟨.none, .none, .none, .none, .none⟩⟩ ⟨"nightly", "not a cron", "backup.sh", "", "", "", [], some false, [], [], none, [], ""⟩
        (startup [] (fun _ => none) Time.zero)).2.jobMap "nightly").map (·.schedule) = some "not a cron" ∧
      parseSchedule "not a cron" = .error "expected exactly 5 fields, found 3: [not a cron]" ∧
      validateImportedJob (applyImportedDefaults (normalizeImportedJob
        ⟨"nightly", "not a cron", "backup.sh", "", "", "", [], some false, [], [], none, [], ""⟩)) =
        .error "invalid schedule: expected exactly 5 fields, found 3: [not a cron]" :=
  ⟨rfl, rfl, rfl, rfl⟩

/-- A `deleteJob` that succeeds takes the name out of `jobMap`. -/
theorem deleteJob_ok {name : String} (deleted : deleteJob dir env name r = (.ok (), r')) :
    r'.jobMap = Function.update r.jobMap name none := by
  unfold deleteJob at deleted
  split at deleted
  · cases deleted
  split at deleted
  · cases deleted
  cases deleted
  rfl

/-- An `updateJobSettings` that succeeds stores a checked job under the name it was called with,
named by that name trimmed; for a normal job the settings stored are the job's. -/
theorem updateJobSettings_ok {name : String} {updated : Job}
    (ok : updateJobSettings dir env name updated r = (.ok (), r')) :
    ∃ j', r'.jobMap = Function.update r.jobMap name (some j') ∧ Checked j' ∧ j'.name = trimSpace name ∧
      (Normal updated → settings j' = settings updated) := by
  unfold updateJobSettings at ok
  split at ok
  · cases ok
  next old found =>
  dsimp only at ok
  split at ok
  · cases ok
  next c validated =>
  split at ok
  · cases ok
  next sched applied =>
  split at ok
  · cases ok
  next saved =>
  cases ok
  obtain ⟨rfl, -⟩ := saveJob_ok saved
  refine ⟨_, rfl, Checked.of validated applied _, validateJob_name validated, fun normal => ?_⟩
  obtain ⟨rfl, -⟩ := validateJob_ok validated
  obtain ⟨v, set⟩ := Option.isSome_iff_exists.mp normal.enabled
  simp only [settings, trimSpace_trimSpace, normal.schedule, normal.command, normal.workingDir, normal.timeout,
    normal.executor, if_neg normal.executor_ne, set]

end Calls
/-! ## The handler -/

/-- `parseBoolQuery` on the query value `raw` of `key`; `strings.ToLower` is taken on ASCII
letters. -/
def parseBoolQuery (key raw : String) : Except String Bool :=
  let raw := trimSpace raw
  if raw = "" then .ok false else
  match String.mk (raw.toList.map Char.toLower) with
  | "1" | "true" | "yes" | "y" | "on" => .ok true
  | "0" | "false" | "no" | "n" | "off" => .ok false
  | _ => .error ("invalid boolean query value for \"" ++ key ++ "\"")

/-- `maxJobsImportBytes`. -/
def maxJobsImportBytes : Nat := 8 * 1024 * 1024

/-- `jobsImportResult`. -/
structure ImportResult where
  status : String
  replace : Bool
  dryRun : Bool
  parsed : Nat
  created : List String
  updated : List String
  deleted : List String
  error : String
  deriving DecidableEq, Repr

/-- What `handleImportJobs` writes: an error object or the import's result, with the HTTP
status. -/
inductive ImportReply where
  | error (code : Nat) (message : String)
  | result (code : Nat) (result : ImportResult)
  deriving DecidableEq, Repr

/-- `strings.Contains`. -/
def contains (s substr : String) : Bool := decide (substr.toList <:+: s.toList)

/-- `statusFromError` of `runs.go`. -/
def statusFromError (err : String) : Nat :=
  let msg := String.mk (err.toList.map Char.toLower)
  if contains msg "not found" then 404
  else if contains msg "already exists" then 409
  else if contains msg "required" then 400
  else if contains msg "invalid" || contains msg "parse" then 400
  else 500

/-- A registry call the import makes. -/
inductive Op where
  | create (job : Job)
  | update (job : Job)
  | delete (name : String)

namespace Op

/-- The name the call is about. -/
def name : Op → String
  | .create job | .update job => job.name
  | .delete name => name

/-- `CreateJob(job)`, `UpdateJobSettings(job.Name, job)`, `DeleteJob(name)`. -/
def call : Op → Registry.Call
  | .create job => .createJob job
  | .update job => .updateJobSettings job.name job
  | .delete name => .deleteJob name

/-- The result once the call succeeded: the name appended to its list. -/
def record (res : ImportResult) : Op → ImportResult
  | .create job => { res with created := res.created ++ [job.name] }
  | .update job => { res with updated := res.updated ++ [job.name] }
  | .delete name => { res with deleted := res.deleted ++ [name] }

end Op

/-- The import's plan. -/
structure Plan where
  toCreate : List Job
  toUpdate : List Job
  toDelete : List String

/-- The plan against the names `a.Jobs()` lists: payload jobs split by whether their name is
listed, in payload order, and with `replace` the listed names the payload lacks, each once and
sorted (`sort.Strings`). -/
def plan (existing : List String) (imported : List Job) (replace : Bool) : Plan where
  toCreate := imported.filter fun j => j.name ∉ existing
  toUpdate := imported.filter fun j => j.name ∈ existing
  toDelete :=
    if replace then
      (existing.dedup.filter fun n => n ∉ imported.map (·.name)).insertionSort fun a b => a.toList ≤ b.toList
    else []

/-- The calls, in the order of the handler's three loops. -/
def Plan.ops (p : Plan) : List Op := p.toCreate.map .create ++ p.toUpdate.map .update ++ p.toDelete.map .delete

/-- The handler's loops: the calls in turn, the `i`-th meeting the environment `envs i`. The
first that fails ends the import as `partial_failure`, answered with the status
`statusFromError` gives. -/
def applyOps (dir : String) (envs : Nat → Env) : Nat → List Op → ImportResult → State → ImportReply × State
  | _, [], res, r => (.result 200 res, r)
  | i, op :: rest, res, r =>
    match call dir (envs i) op.call r with
    | (.error e, r') => (.result (statusFromError e) { res with status := "partial_failure", error := e }, r')
    | (.ok (), r') => applyOps dir envs (i + 1) rest (op.record res) r'

/-- `handleImportJobs` on a request whose query gives `query key` for each key, whose body the
decoder splits into `decode body`, with `jobs` what `a.Jobs()` returns. -/
def handleImportJobs (dir : String) (envs : Nat → Env) (decode : String → List (Except String Job))
    (jobs : List Job) (req : Request String) (query : String → String) (r : State) : ImportReply × State :=
  if req.method ≠ "POST" then (.error 405 "method not allowed", r) else
  match parseBoolQuery "replace" (query "replace") with
  | .error e => (.error 400 e, r)
  | .ok replace =>
  match parseBoolQuery "dry_run" (query "dry_run") with
  | .error e => (.error 400 e, r)
  | .ok dryRun =>
  if req.body.utf8ByteSize > maxJobsImportBytes then (.error 413 "import payload too large", r) else
  if trimSpace req.body = "" then (.error 400 "import payload is empty", r) else
  match parseImportedJobsYAML (decode req.body) with
  | .error e => (.error 400 e, r)
  | .ok imported =>
  let p := plan (jobs.map (·.name)) imported replace
  let result : ImportResult :=
    ⟨"imported", replace, dryRun, imported.length, p.toCreate.map (·.name), p.toUpdate.map (·.name), p.toDelete, ""⟩
  if dryRun then (.result 200 { result with status := "dry_run" }, r) else
  applyOps dir envs 0 p.ops { result with created := [], updated := [], deleted := [] } r

/-! ## An import that answers `imported` -/

/-- Every call of `ops` succeeds, the `i`-th first, leading from `r` to `r'`. -/
def Succeeds (dir : String) (envs : Nat → Env) : Nat → List Op → State → State → Prop
  | _, [], r, r' => r' = r
  | i, op :: rest, r, r' =>
    (call dir (envs i) op.call r).1 = .ok () ∧ Succeeds dir envs (i + 1) rest (call dir (envs i) op.call r).2 r'

/-- The loops answer with an unchanged status only when every call succeeded, and then with the
result every call recorded itself in. -/
theorem applyOps_succeeds {dir : String} {envs : Nat → Env} {i : Nat} {ops : List Op} {res res' : ImportResult}
    {r r' : State} {code : Nat} (answered : applyOps dir envs i ops res r = (.result code res', r'))
    (fine : res.status ≠ "partial_failure") (kept : res'.status = res.status) :
    Succeeds dir envs i ops r r' ∧ res' = ops.foldl Op.record res := by
  induction ops generalizing i res r with
  | nil =>
    cases answered
    exact ⟨rfl, rfl⟩
  | cons op rest ih =>
    unfold applyOps at answered
    split at answered
    · cases answered
      exact absurd kept.symm fine
    next r₁ called =>
      have ok : (call dir (envs i) op.call r).1 = .ok () := by rw [called]
      have fine' : (op.record res).status ≠ "partial_failure" := by cases op <;> exact fine
      have kept' : res'.status = (op.record res).status := by cases op <;> exact kept
      obtain ⟨succeeds, folded⟩ := ih answered fine' kept'
      exact ⟨⟨ok, by rw [called]; exact succeeds⟩, folded⟩


/-- What a call of the import leaves under its name: for a create or an update, a job of the
payload job's name and settings; for a delete, nothing. -/
def Op.Leaves : Op → Option Job → Prop
  | .create job, v | .update job, v => ∃ j, v = some j ∧ j.name = job.name ∧ settings j = settings job
  | .delete _, v => v = none

/-- A call about a job the parser accepted. -/
def Op.Imported : Op → Prop
  | .create job | .update job => Normal job ∧ validateImportedJob job = .ok ()
  | .delete _ => True

/-- A call of the import that succeeds changes `jobMap` under its own name only, and leaves
there what `Leaves` says. -/
theorem Op.leaves_of_ok {dir : String} {env : Env} {r : State} {op : Op} (imported : op.Imported)
    (ok : (Registry.call dir env op.call r).1 = .ok ()) :
    ∃ v, (Registry.call dir env op.call r).2.jobMap = Function.update r.jobMap op.name v ∧ op.Leaves v := by
  have called : Registry.call dir env op.call r = (.ok (), (Registry.call dir env op.call r).2) := Prod.ext ok rfl
  cases op with
  | create job =>
    obtain ⟨c, validated, -, stored, -⟩ := createJob_ok called
    rw [imported.1.validateJob imported.2] at validated
    cases validated
    exact ⟨_, stored, _, rfl, rfl, rfl⟩
  | update job =>
    obtain ⟨j', stored, -, named, same⟩ := updateJobSettings_ok called
    exact ⟨_, stored, j', rfl, named.trans imported.1.name, same imported.1⟩
  | delete name => exact ⟨none, deleteJob_ok called, rfl⟩


/-- Calls of distinct names that all succeed: a name none of them is about keeps its job, and
under every other name stands what its call leaves. -/
theorem Succeeds.jobMap {dir : String} {envs : Nat → Env} :
    ∀ {i : Nat} {ops : List Op} {r r' : State}, (∀ op ∈ ops, op.Imported) → (ops.map Op.name).Nodup →
      Succeeds dir envs i ops r r' →
      ∀ n, (n ∉ ops.map Op.name → r'.jobMap n = r.jobMap n) ∧ ∀ op ∈ ops, op.name = n → op.Leaves (r'.jobMap n)
  | _, [], _, _, _, _, succeeds, _ => ⟨fun _ => by rw [succeeds], fun _ held => by cases held⟩
  | i, op :: rest, r, r', imported, distinct, ⟨ok, succeeds⟩, n => by
    obtain ⟨v, stored, leaves⟩ := Op.leaves_of_ok (imported op (List.mem_cons_self _ _)) ok
    have later := Succeeds.jobMap (fun op' held => imported op' (List.mem_cons_of_mem _ held))
      (List.nodup_cons.mp distinct).2 succeeds
    rw [stored] at later
    have fresh : op.name ∉ rest.map Op.name := (List.nodup_cons.mp distinct).1
    refine ⟨fun unnamed => ?_, fun op' held named => ?_⟩
    · have other : n ≠ op.name := fun same => unnamed (same ▸ List.mem_cons_self _ _)
      rw [(later n).1 (fun mem => unnamed (List.mem_cons_of_mem _ mem)), Function.update_noteq other]
    · rcases List.mem_cons.mp held with rfl | held
      · rw [← named, (later op'.name).1 fresh, Function.update_same]
        exact leaves
      · exact (later n).2 op' held named


section Plan
variable {existing : List String} {imported : List Job}

theorem mem_toDelete {n : String} :
    n ∈ (plan existing imported true).toDelete ↔ n ∈ existing ∧ n ∉ imported.map (·.name) := by
  simp only [plan, if_true]
  rw [(List.perm_insertionSort _ _).mem_iff]
  simp only [List.mem_filter, List.mem_dedup, decide_eq_true_eq]

/-- Every job of the payload is created or updated, by whether its name is listed. -/
theorem plan_job_op {job : Job} (held : job ∈ imported) (replace : Bool) :
    (if job.name ∈ existing then Op.update job else Op.create job) ∈ (plan existing imported replace).ops := by
  by_cases listed : job.name ∈ existing <;> simp [Plan.ops, plan, held, listed]

/-- A call of a replacing import creates or updates a payload job, or deletes a listed name the
payload lacks. -/
theorem plan_op_cases {op : Op} (held : op ∈ (plan existing imported true).ops) :
    (∃ job ∈ imported, op = .create job ∨ op = .update job) ∨
      ∃ n, op = .delete n ∧ n ∈ existing ∧ n ∉ imported.map (·.name) := by
  simp only [Plan.ops, List.mem_append, List.mem_map] at held
  rcases held with (⟨job, held, rfl⟩ | ⟨job, held, rfl⟩) | ⟨n, held, rfl⟩
  · exact .inl ⟨job, (List.mem_filter.mp held).1, .inl rfl⟩
  · exact .inl ⟨job, (List.mem_filter.mp held).1, .inr rfl⟩
  · exact .inr ⟨n, rfl, mem_toDelete.mp held⟩

/-- The calls of a replacing import are about distinct names. -/
theorem plan_ops_nodup (distinct : (imported.map (·.name)).Nodup) :
    ((plan existing imported true).ops.map Op.name).Nodup := by
  have names : (plan existing imported true).ops.map Op.name =
      ((imported.filter fun j => j.name ∉ existing).map (·.name) ++
        (imported.filter fun j => j.name ∈ existing).map (·.name)) ++ (plan existing imported true).toDelete := by
    simp [Plan.ops, plan, Op.name, Function.comp_def]
  have sub : ∀ p : Job → Bool, ((imported.filter p).map (·.name)).Nodup := fun p =>
    distinct.sublist ((List.filter_sublist _).map _)
  have deleted : (plan existing imported true).toDelete.Nodup :=
    (List.perm_insertionSort _ _).nodup_iff.mpr ((List.nodup_dedup _).filter _)
  rw [names, List.nodup_append, List.nodup_append]
  refine ⟨⟨sub _, sub _, fun n created updated => ?_⟩, deleted, fun n planned gone => ?_⟩
  · simp only [List.mem_map, List.mem_filter, decide_eq_true_eq] at created updated
    obtain ⟨_, ⟨-, unlisted⟩, rfl⟩ := created
    obtain ⟨_, ⟨-, listed⟩, same⟩ := updated
    exact unlisted (same ▸ listed)
  · refine (mem_toDelete.mp gone).2 ?_
    simp only [List.mem_append, List.mem_map, List.mem_filter] at planned
    rcases planned with ⟨job, ⟨held, -⟩, rfl⟩ | ⟨job, ⟨held, -⟩, rfl⟩ <;> exact List.mem_map_of_mem _ held

/-- The loops record each call in its list: the names created, updated and deleted. -/
theorem foldl_record (p : Plan) (res : ImportResult) :
    p.ops.foldl Op.record res =
      { res with created := res.created ++ p.toCreate.map (·.name), updated := res.updated ++ p.toUpdate.map (·.name)
                 deleted := res.deleted ++ p.toDelete } := by
  have creates : ∀ (l : List Job) res, (l.map .create).foldl Op.record res =
      { res with created := res.created ++ l.map (·.name) } := by
    intro l res
    induction l generalizing res <;> simp [*, Op.record]
  have updates : ∀ (l : List Job) res, (l.map .update).foldl Op.record res =
      { res with updated := res.updated ++ l.map (·.name) } := by
    intro l res
    induction l generalizing res <;> simp [*, Op.record]
  have deletes : ∀ (l : List String) res, (l.map .delete).foldl Op.record res =
      { res with deleted := res.deleted ++ l } := by
    intro l res
    induction l generalizing res <;> simp [*, Op.record]
  simp only [Plan.ops, List.foldl_append, creates, updates, deletes]

end Plan


theorem mem_importedJobs {decoded : List Job} {job : Job} (held : job ∈ importedJobs decoded) :
    ∃ doc ∈ decoded, job = applyImportedDefaults (normalizeImportedJob doc) := by
  simp only [importedJobs, List.mem_map, List.mem_filter] at held
  obtain ⟨_, ⟨⟨doc, held, rfl⟩, -⟩, rfl⟩ := held
  exact ⟨doc, held, rfl⟩

theorem parseBoolQuery_true (key : String) : parseBoolQuery key "true" = .ok true := rfl

theorem parseBoolQuery_empty (key : String) : parseBoolQuery key "" = .ok false := rfl

/-- Against a registry whose every key names its job, an import with `replace` that answers
`imported` leaves `jobMap` holding exactly the payload's names, each with the settings of its
document, normalised and defaulted; the same request as a dry run reports the same lists and
changes nothing. -/
theorem import_replace_installs_payload (dir : String) (envs : Nat → Env)
    (decode : String → List (Except String Job)) {jobs : List Job} {r r' : State}
    (keyed : ∀ n j, r.jobMap n = some j → j.name = n) (listed : Lists r.jobMap jobs) (req : Request String)
    {query preview : String → String} (replace : query "replace" = "true") (applied : query "dry_run" = "")
    (replace' : preview "replace" = "true") (dry : preview "dry_run" = "true") {imported : List Job}
    (parsed : parseImportedJobsYAML (decode req.body) = .ok imported) {code : Nat} {res : ImportResult}
    (answered : handleImportJobs dir envs decode jobs req query r = (.result code res, r'))
    (status : res.status = "imported") :
    (∃ decoded, decode req.body = decoded.map .ok ∧ imported = importedJobs decoded) ∧
      (∀ n, (r'.jobMap n).isSome ↔ n ∈ imported.map (·.name)) ∧
      (∀ job ∈ imported, ∃ j, r'.jobMap job.name = some j ∧ settings j = settings job) ∧
      handleImportJobs dir envs decode jobs req preview r = (.result 200 { res with status := "dry_run", dryRun := true }, r) := by
  obtain ⟨decoded, decoded_eq, imported_eq, distinct, valid, -⟩ := parseImportedJobsYAML_ok parsed
  unfold handleImportJobs at answered ⊢
  simp only [replace, applied, replace', dry, parseBoolQuery_true, parseBoolQuery_empty, parsed,
    Bool.false_eq_true, if_false, if_true] at answered ⊢
  split_ifs at answered with post large blank
  · cases answered
  · cases answered
  · cases answered
  rw [if_neg post, if_neg large, if_neg blank]
  obtain ⟨succeeds, rfl⟩ := applyOps_succeeds answered (show "imported" ≠ "partial_failure" by decide) status
  have importedJob : ∀ job ∈ imported, Normal job ∧ validateImportedJob job = .ok () := fun job held =>
    let ⟨doc, _, same⟩ := mem_importedJobs (imported_eq ▸ held)
    ⟨same ▸ normal_imported doc, valid job held⟩
  have ops_imported : ∀ op ∈ (plan (jobs.map (·.name)) imported true).ops, op.Imported := by
    intro op held
    rcases plan_op_cases held with ⟨job, jobHeld, rfl | rfl⟩ | ⟨n, rfl, -⟩
    · exact importedJob job jobHeld
    · exact importedJob job jobHeld
    · exact trivial
  have final := Succeeds.jobMap ops_imported (plan_ops_nodup distinct) succeeds
  have stored : ∀ job ∈ imported, ∃ j, r'.jobMap job.name = some j ∧ j.name = job.name ∧
      settings j = settings job := by
    intro job held
    have leaves := (final job.name).2 _ (plan_job_op held true) (by split <;> rfl)
    split at leaves <;> exact leaves
  refine ⟨⟨decoded, decoded_eq, imported_eq⟩, ?_, fun job held => ?_, by rw [foldl_record]; rfl⟩
  · intro n
    refine ⟨fun present => ?_, fun named => ?_⟩
    · by_contra absent
      by_cases listedName : n ∈ jobs.map (·.name)
      · have gone := (final n).2 (.delete n)
          (List.mem_append_right _ (List.mem_map_of_mem _ (mem_toDelete.mpr ⟨listedName, absent⟩))) rfl
        rw [show r'.jobMap n = none from gone] at present
        cases present
      · have untouched : n ∉ (plan (jobs.map (·.name)) imported true).ops.map Op.name := by
          intro mem
          obtain ⟨op, held, rfl⟩ := List.mem_map.mp mem
          rcases plan_op_cases held with ⟨job, jobHeld, rfl | rfl⟩ | ⟨m, rfl, listed', -⟩
          · exact absent (List.mem_map_of_mem _ jobHeld)
          · exact absent (List.mem_map_of_mem _ jobHeld)
          · exact listedName listed'
        rw [(final n).1 untouched] at present
        obtain ⟨j, found⟩ := Option.isSome_iff_exists.mp present
        exact listedName (keyed n j found ▸ List.mem_map_of_mem _ ((listed j).mpr ⟨n, found⟩))
    · obtain ⟨job, held, rfl⟩ := List.mem_map.mp named
      obtain ⟨j, found, -⟩ := stored job held
      rw [found]
      rfl
  · obtain ⟨j, found, -, same⟩ := stored job held
    exact ⟨j, found, same⟩

/-- A job file `old`. -/
def oldJob : Job := ⟨"old", "@every 1h", "true", "", "shell", "", [], none, [], [], none, [], "jobs/old.yaml"⟩

/-- A payload document for a job `a`. -/
def docA : Job := ⟨"a", "@every 1h", "echo a", "", "", "", [], none, [], [], none, [], ""⟩

/-- A call environment in which every file-system call succeeds. -/
def quietEnv : Env := ⟨Time.zero, ⟨.none, .none, .none, .none, .none⟩⟩

/-- The query of `POST /api/v1/jobs/import?replace=true`. -/
def replaceQuery (key : String) : String := if key = "replace" then "true" else ""

/-- With `old` loaded at startup, the import of `a` with `replace` creates `a`, deletes `old`
and answers `imported`. -/
theorem import_replaces_listed_job :
    (handleImportJobs "jobs" (fun _ => quietEnv) (fun _ => [.ok docA]) [oldJob] ⟨"POST", "/api/v1/jobs/import", "name: a"⟩
        replaceQuery (startup [oldJob] (fun _ => none) Time.zero)).1 =
      .result 200 ⟨"imported", true, false, 1, ["a"], [], ["old"], ""⟩ ∧
    (∃ decoded, [(Except.ok docA : Except String Job)] = decoded.map .ok ∧
        [applyImportedDefaults (normalizeImportedJob docA)] = importedJobs decoded) ∧
      (∀ n, ((handleImportJobs "jobs" (fun _ => quietEnv) (fun _ => [.ok docA]) [oldJob]
          ⟨"POST", "/api/v1/jobs/import", "name: a"⟩ replaceQuery (startup [oldJob] (fun _ => none) Time.zero)).2.jobMap n).isSome ↔
        n ∈ [applyImportedDefaults (normalizeImportedJob docA)].map (·.name)) ∧
      (∀ job ∈ [applyImportedDefaults (normalizeImportedJob docA)], ∃ j, (handleImportJobs "jobs" (fun _ => quietEnv)
          (fun _ => [.ok docA]) [oldJob] ⟨"POST", "/api/v1/jobs/import", "name: a"⟩ replaceQuery
          (startup [oldJob] (fun _ => none) Time.zero)).2.jobMap job.name = some j ∧ settings j = settings job) ∧
      handleImportJobs "jobs" (fun _ => quietEnv) (fun _ => [.ok docA]) [oldJob] ⟨"POST", "/api/v1/jobs/import", "name: a"⟩
          (fun _ => "true") (startup [oldJob] (fun _ => none) Time.zero) =
        (.result 200 { (⟨"imported", true, false, 1, ["a"], [], ["old"], ""⟩ : ImportResult) with
            status := "dry_run", dryRun := true }, startup [oldJob] (fun _ => none) Time.zero) :=
  by
  refine ⟨by decide, @import_replace_installs_payload "jobs" (fun _ => quietEnv) (fun _ => [.ok docA]) [oldJob]
    (startup [oldJob] (fun _ => none) Time.zero) _ (startup_consistent _ _ _ ?_).keyed (startup_lists ?_ _ _)
    ⟨"POST", "/api/v1/jobs/import", "name: a"⟩ replaceQuery (fun _ => "true") rfl rfl rfl rfl
    [applyImportedDefaults (normalizeImportedJob docA)] ?_ 200 ⟨"imported", true, false, 1, ["a"], [], ["old"], ""⟩
    (Prod.ext ?_ rfl) rfl⟩
  all_goals first | decide | rfl

/-- A job file that names its job ` a`, with a leading space: `LoadJobs` keeps the name as it is. -/
def spacedJob : Job := ⟨" a", "@every 1h", "true", "", "shell", "", [], none, [], [], none, [], "jobs/ a.yaml"⟩

/-- The registry after ` a` is loaded, its settings are updated (which trims the job's name but
keeps its key), and `a` is created. -/
def renamedRegistry : State :=
  (createJob "jobs" quietEnv docA
    (updateJobSettings "jobs" quietEnv " a" docA (startup [spacedJob] (fun _ => none) Time.zero)).2).2

/-- What `getJobs` returns for it. -/
def renamedJobs : List Job := (renamedRegistry.jobMap " a").toList ++ (renamedRegistry.jobMap "a").toList

theorem renamedJobs_lists : Lists renamedRegistry.jobMap renamedJobs := by
  obtain ⟨c, validated, -, created, -⟩ := @createJob_ok "jobs" quietEnv
    (updateJobSettings "jobs" quietEnv " a" docA (startup [spacedJob] (fun _ => none) Time.zero)).2
    renamedRegistry docA (Prod.ext rfl rfl)
  obtain ⟨j', updated, -⟩ := @updateJobSettings_ok "jobs" quietEnv (startup [spacedJob] (fun _ => none) Time.zero)
    (updateJobSettings "jobs" quietEnv " a" docA (startup [spacedJob] (fun _ => none) Time.zero)).2
    " a" docA (Prod.ext rfl rfl)
  have named : c.name = "a" := (validateJob_name validated).trans rfl
  intro j
  simp only [renamedJobs, List.mem_append, Option.mem_toList, Option.mem_def]
  refine ⟨fun found => found.elim (⟨_, ·⟩) (⟨_, ·⟩), fun ⟨key, found⟩ => ?_⟩
  rw [created, named, updated] at found ⊢
  by_cases keyA : key = "a"
  · exact .inr (keyA ▸ found)
  by_cases keySpaced : key = " a"
  · exact .inl (keySpaced ▸ found)
  simp only [Function.update_apply, keyA, keySpaced, if_false, startup, List.foldl_cons, List.foldl_nil,
    spacedJob] at found
  cases found

/-- A registry in which the key ` a` holds a job named `a`, next to the key `a`: it arises from
loading ` a`, updating its settings and creating `a`. The import of `a` with `replace` updates
`a`, deletes nothing and answers `imported`, yet ` a` stays in `jobMap` though the payload does
not name it. -/
theorem import_replace_keeps_renamed_key :
    Lists renamedRegistry.jobMap renamedJobs ∧
      (handleImportJobs "jobs" (fun _ => quietEnv) (fun _ => [.ok docA]) renamedJobs
          ⟨"POST", "/api/v1/jobs/import", "name: a"⟩ replaceQuery renamedRegistry).1 =
        .result 200 ⟨"imported", true, false, 1, [], ["a"], [], ""⟩ ∧
      ((handleImportJobs "jobs" (fun _ => quietEnv) (fun _ => [.ok docA]) renamedJobs
          ⟨"POST", "/api/v1/jobs/import", "name: a"⟩ replaceQuery renamedRegistry).2.jobMap " a").isSome ∧
      " a" ∉ (importedJobs [docA]).map (·.name) :=
  ⟨renamedJobs_lists, by decide, by decide, by decide⟩

end Cronbat.Transfer
