import Cronbat.RunRecords

/-! The part of the web API (`internal/web/api`) that a run reaches from outside: `routeJobs`,
which dispatches `/api/v1/jobs/{name}[/action]`, and `handleTriggerRun`, which starts
`TriggerRun(name)`, that is `executeJob(name, "manual")`, on a goroutine of its own. On the
client side, the request `wrapViaAPI` of `cmd/cronbat` posts once it has run the command
itself.

`a.Jobs()` is `getJobs`: a clone of every job of `jobMap`, in the map's iteration order, so a
handler receives it as a list that `Lists` relates to the registry. The `job.changed` event the
handler emits is not modelled. -/
namespace Cronbat.Api
open Cronbat Cronbat.Config Cronbat.Store Cronbat.Executor

/-- An HTTP request as a handler sees it. -/
structure Request (α : Type) where
  method : String
  path : String
  body : α

/-- What `writeJSON` answers: the status and the JSON object of strings. -/
structure Response where
  status : Nat
  body : List (String × String)
  deriving DecidableEq, Repr

/-! ## Routing -/

/-- `strings.TrimPrefix`. -/
def trimPrefix (s pre : String) : String :=
  if pre.toList.isPrefixOf s.toList then String.mk (s.toList.drop pre.length) else s

/-- `strings.SplitN(s, "/", 2)`: the text before the first slash, and the text after it when
there is one. -/
def splitN : List Char → List Char × Option (List Char)
  | [] => ([], none)
  | c :: cs => if c = '/' then ([], some cs) else ((c :: (splitN cs).1), (splitN cs).2)

/-- The handler `routeJobs` calls. -/
inductive Route where
  | listJobs
  | triggerRun (name : String)
  | startJob (name : String)
  | stopJob (name : String)
  | pauseJob (name : String)
  | archiveJob (name : String)
  | enableJob (name : String)
  | disableJob (name : String)
  | getJobYAML (name : String)
  | updateJobYAML (name : String)
  | updateJobSettings (name : String)
  | deleteJob (name : String)
  | getJob (name : String)
  | methodNotAllowed
  deriving DecidableEq, Repr

/-- `routeJobs`: the name and the action from the path, then the method. -/
def routeJobs {α : Type} (r : Request α) : Route :=
  let parts := splitN (trimPrefix r.path "/api/v1/jobs/").toList
  let name := String.mk parts.1
  if name = "" then .listJobs else
  let action := (parts.2.map String.mk).getD ""
  if action = "run" ∧ r.method = "POST" then .triggerRun name
  else if action = "start" ∧ r.method = "PUT" then .startJob name
  else if action = "stop" ∧ r.method = "PUT" then .stopJob name
  else if action = "pause" ∧ r.method = "PUT" then .pauseJob name
  else if action = "archive" ∧ r.method = "PUT" then .archiveJob name
  else if action = "enable" ∧ r.method = "PUT" then .enableJob name
  else if action = "disable" ∧ r.method = "PUT" then .disableJob name
  else if action = "yaml" ∧ r.method = "GET" then .getJobYAML name
  else if action = "yaml" ∧ r.method = "PUT" then .updateJobYAML name
  else if action = "" ∧ r.method = "PUT" then .updateJobSettings name
  else if action = "" ∧ r.method = "DELETE" then .deleteJob name
  else if action = "" ∧ r.method = "GET" then .getJob name
  else .methodNotAllowed

theorem trimPrefix_append (pre s : String) : trimPrefix (pre ++ s) pre = s := by
  have head : pre.toList.isPrefixOf (pre.toList ++ s.toList) :=
    List.isPrefixOf_iff_prefix.mpr (List.prefix_append _ _)
  exact (if_pos head).trans (congrArg String.mk (List.drop_left _ _))

theorem splitN_append {name : List Char} (noSlash : '/' ∉ name) (rest : List Char) :
    splitN (name ++ '/' :: rest) = (name, some rest) := by
  induction name with
  | nil => simp [splitN]
  | cons c cs ih =>
    have other : c ≠ '/' := fun same => noSlash (same ▸ List.mem_cons_self c cs)
    simp [splitN, other, ih (fun mem => noSlash (List.mem_cons_of_mem c mem))]

/-- The path `wrapViaAPI` posts to reaches `handleTriggerRun` for every non-empty name without
a slash, whatever the body. -/
theorem routeJobs_run {α : Type} {name : String} (named : name ≠ "") (noSlash : '/' ∉ name.toList)
    (body : α) : routeJobs ⟨"POST", "/api/v1/jobs/" ++ name ++ "/run", body⟩ = .triggerRun name := by
  have parts : splitN (trimPrefix ("/api/v1/jobs/" ++ name ++ "/run") "/api/v1/jobs/").toList =
      (name.toList, some "run".toList) := by
    rw [String.append_assoc, trimPrefix_append]
    exact splitN_append noSlash _
  simp only [routeJobs, parts]
  exact (if_neg named).trans (if_pos ⟨rfl, trivial⟩)

/-! ## The client: `wrapViaAPI` -/

/-- The JSON object `wrapViaAPI` posts. -/
structure WrapPayload where
  jobName : String
  status : String
  exitCode : Int
  durationMs : Nat
  stdoutTail : List UInt8
  stderrTail : List UInt8
  errorMsg : String
  trigger : String
  deriving DecidableEq, Repr

/-- `maxTail`: the bytes of each output the payload carries. -/
def maxTail : Nat := 64 * 1024

/-- The last `maxTail` bytes of an output. -/
def tail (s : List UInt8) : List UInt8 := if s.length > maxTail then s.drop (s.length - maxTail) else s

/-- `wrapViaAPI` once `cmd.Run()` of `sh -c command`, under the `timeout` deadline, has returned
after `durationMs`: the request it posts to `apiURL + "/api/v1/jobs/" + jobName + "/run"`, with
the path as the daemon's server sees it, and the exit code it returns. -/
def wrapViaAPI (jobName : String) (timeout : Int) (outcome : CmdOutcome) (timedOut : Bool)
    (durationMs : Nat) (stdout stderr : List UInt8) : Request WrapPayload × Int :=
  let deadline := timedOut && decide (0 < timeout)
  let (exitCode, errMsg) : Int × String := match outcome with
    | .success => (0, "")
    | .exitError code _ message => (code, if deadline then "timeout" else message)
    | .otherError message => (-1, if deadline then "timeout" else message)
  let payload : WrapPayload :=
    { jobName, status := if exitCode ≠ 0 ∨ errMsg ≠ "" then "failure" else "success", exitCode
      durationMs, stdoutTail := tail stdout, stderrTail := tail stderr, errorMsg := errMsg
      trigger := "cron" }
  (⟨"POST", "/api/v1/jobs/" ++ jobName ++ "/run", payload⟩, exitCode)

/-- Whatever the command did, the request `wrapViaAPI` posts for a non-empty job name without a
slash is dispatched to `handleTriggerRun` for that name. -/
theorem routeJobs_wrapViaAPI {jobName : String} (named : jobName ≠ "") (noSlash : '/' ∉ jobName.toList)
    (timeout : Int) (outcome : CmdOutcome) (timedOut : Bool) (durationMs : Nat) (stdout stderr : List UInt8) :
    routeJobs (wrapViaAPI jobName timeout outcome timedOut durationMs stdout stderr).1 = .triggerRun jobName := by
  cases outcome <;> exact routeJobs_run named noSlash _

/-! ## The daemon: `handleTriggerRun` -/

/-- `getJobs`: `jobs` holds the jobs of `jobMap`, each stored under some key. -/
def Lists (jobMap : String → Option Job) (jobs : List Job) : Prop :=
  ∀ j, j ∈ jobs ↔ ∃ key, jobMap key = some j

/-- `handleTriggerRun`: 404 unless a job `a.Jobs()` lists has the name; otherwise it starts
`TriggerRun(name)` on goroutine `i` and answers 202. The request body is not read. -/
def handleTriggerRun (dir : String) (jobs : List Job) (i : Nat) (name : String) (d : Daemon) :
    Response × Daemon :=
  if jobs.any (·.name == name) then (⟨202, [("status", "triggered")]⟩, step dir d (.trigger i name))
  else (⟨404, [("error", "job not found")]⟩, d)

theorem Lists.any_iff {jobMap : String → Option Job} {jobs : List Job} (listed : Lists jobMap jobs)
    (name : String) : jobs.any (·.name == name) = true ↔ ∃ key j, jobMap key = some j ∧ j.name = name := by
  simp only [List.any_eq_true, beq_iff_eq, listed _]
  exact ⟨fun ⟨j, ⟨key, found⟩, named⟩ => ⟨key, j, found, named⟩,
    fun ⟨key, j, found, named⟩ => ⟨j, ⟨key, found⟩, named⟩⟩

/-- The jobs left in the map after filling it, by name, from jobs of distinct names: those jobs,
and what the map held under any other name. -/
theorem foldl_update_held {jobs : List Job} (distinct : (jobs.map (·.name)).Nodup)
    (m : String → Option Job) (j : Job) :
    (∃ key, jobs.foldl (fun (m : String → Option Job) j => Function.update m j.name (some j)) m key = some j) ↔
      j ∈ jobs ∨ ∃ key, key ∉ jobs.map (·.name) ∧ m key = some j := by
  induction jobs generalizing m with
  | nil => simp
  | cons a rest ih =>
    have fresh : a.name ∉ rest.map (·.name) := (List.nodup_cons.mp distinct).1
    simp only [List.foldl_cons, ih (List.nodup_cons.mp distinct).2, List.map_cons, List.mem_cons,
      not_or, Function.update_apply]
    constructor
    · rintro (inRest | ⟨key, unnamed, held⟩)
      · exact .inl (.inr inRest)
      · by_cases same : key = a.name
        · simp only [same, if_true, Option.some.injEq] at held
          exact .inl (.inl held.symm)
        · simp only [same, if_false] at held
          exact .inr ⟨key, ⟨same, unnamed⟩, held⟩
    · rintro ((rfl | inRest) | ⟨key, ⟨other, unnamed⟩, held⟩)
      · exact .inr ⟨j.name, fresh, if_pos rfl⟩
      · exact .inl inRest
      · exact .inr ⟨key, unnamed, (if_neg other).trans held⟩

/-- The registry `main` starts with, from job files of distinct names, lists exactly their jobs. -/
theorem startup_lists {jobs : List Job} (distinct : (jobs.map (·.name)).Nodup) (files : Files) (now : Time) :
    Lists (Registry.startup jobs files now).jobMap jobs := fun j =>
  ((foldl_update_held distinct _ j).trans (or_iff_left fun ⟨_, _, held⟩ => by cases held)).symm

/-- `executeJob` returns at its lookup, writing nothing, for a job that is disabled or whose
timeout does not parse. -/
theorem advance_start_skips {jobMap : String → Option Job} {j : Job} (table : Table) {name : String}
    (found : jobMap name = some j) (skipped : j.isEnabled = false ∨ j.parseTimeout = none)
    (trigger : String) (env : ExecEnv) : advance jobMap table ⟨name, trigger, .start⟩ env = (table, none) := by
  rcases skipped with disabled | invalid
  · simp [advance, found, disabled]
  · simp [advance, found, invalid]

section Handler
variable (dir : String) {jobs : List Job} {d : Daemon} (i : Nat) {name : String}

/-- A name some registered job has, under whatever key, is accepted, and goroutine `i` enters
`executeJob(name, "manual")`. -/
theorem handleTriggerRun_accepts (listed : Lists d.registry.jobMap jobs)
    (found : ∃ key j, d.registry.jobMap key = some j ∧ j.name = name) (idle : d.execs (.worker i) = none) :
    handleTriggerRun dir jobs i name d =
      (⟨202, [("status", "triggered")]⟩,
        { d with execs := Function.update d.execs (.worker i) (some ⟨name, "manual", .start⟩) }) := by
  simp only [handleTriggerRun, (listed.any_iff name).mpr found, if_true, step, idle]

/-- Any other name is answered 404, and the daemon is left as it was. -/
theorem handleTriggerRun_rejects (listed : Lists d.registry.jobMap jobs)
    (absent : ∀ key j, d.registry.jobMap key = some j → j.name ≠ name) :
    handleTriggerRun dir jobs i name d = (⟨404, [("error", "job not found")]⟩, d) := by
  have unlisted : jobs.any (·.name == name) = false :=
    Bool.eq_false_iff.mpr fun any => by
      obtain ⟨key, j, held, named⟩ := (listed.any_iff name).mp any
      exact absent key j held named
  simp only [handleTriggerRun, unlisted]
  rfl

/-- Where a manual trigger is recorded: a job that is enabled with a valid timeout, whose run id
is new to the table and whose two writes succeed. The goroutine's four steps add one row, the
job's, terminal and with trigger `manual`, and leave the goroutine free. -/
theorem manual_run_records_row (listed : Lists d.registry.jobMap jobs) {j : Job} {t : Int}
    (found : d.registry.jobMap name = some j) (named : j.name = name) (idle : d.execs (.worker i) = none)
    (enabled : j.isEnabled = true) (valid : j.parseTimeout = some t) (e₁ e₂ e₃ e₄ : ExecEnv)
    (id : e₁.runId ≠ "") (unclaimed : Unclaimed d.table e₁.runId)
    (stored : e₂.recordFails = false) (stored' : e₄.recordFails = false) :
    (handleTriggerRun dir jobs i name d).1 = ⟨202, [("status", "triggered")]⟩ ∧
      let after := run dir (handleTriggerRun dir jobs i name d).2 ([e₁, e₂, e₃, e₄].map (.proceed (.worker i)))
      after.execs = d.execs ∧ ∃ row, after.table = d.table ++ [row] ∧ row.id = e₁.runId ∧
        row.jobName = name ∧ row.triggerType = "manual" ∧ Terminal row := by
  rw [handleTriggerRun_accepts dir i listed ⟨name, j, found, named⟩ idle]
  refine ⟨rfl, ?_⟩
  simp only [run, List.map_cons, List.map_nil, List.foldl_cons, List.foldl_nil, step_proceed,
    advance, found, enabled, valid, Bool.not_true, Bool.false_eq_true, if_false, stored, stored']
  refine ⟨idle ▸ Function.update_eq_self _ _, ?_⟩
  set run₀ : Run := ⟨e₁.runId, name, "running", 0, e₁.now, none, 0, "", "", "", "manual", "", 0, Time.zero⟩
  set recorded := (recordRun e₂.now e₂.runId false run₀ d.table).1
  set finished := finalize recorded (runnerRun t e₃.outcome e₃.timedOut e₃.durationMs e₃.stdout e₃.stderr) e₃.now
  obtain ⟨first, written⟩ := @recordRun_named e₂.now e₂.runId false d.table run₀ id
  have recordedId : recorded.id = e₁.runId := congrArg Run.id first
  have fresh : ∀ old ∈ d.table, old.id ≠ (insertRow recorded).id := fun old held => by
    rw [show (insertRow recorded).id = e₁.runId from recordedId]
    exact unclaimed old held
  obtain ⟨second, written'⟩ := @recordRun_named e₄.now e₄.runId false (d.table ++ [insertRow recorded])
    finished (recordedId ▸ id)
  rw [written, if_neg Bool.false_ne_true, upsert_fresh fresh, written', if_neg Bool.false_ne_true,
    upsert_last fresh (by rw [second]; rfl)]
  refine ⟨_, rfl, recordedId, congrArg Run.jobName first, congrArg Run.trigger first, ?_⟩
  show Terminal (insertRow (recordRun e₄.now e₄.runId false finished _).1)
  rw [second]
  exact runStatus_terminal _

/-- A manual trigger the handler accepts, of a job that is disabled or whose timeout does not
parse: the goroutine's first step ends `executeJob`, and the daemon is left as it was. -/
theorem skipped_trigger_records_nothing (listed : Lists d.registry.jobMap jobs) {j : Job}
    (found : d.registry.jobMap name = some j) (named : j.name = name) (idle : d.execs (.worker i) = none)
    (skipped : j.isEnabled = false ∨ j.parseTimeout = none) (env : ExecEnv) :
    (handleTriggerRun dir jobs i name d).1 = ⟨202, [("status", "triggered")]⟩ ∧
      (handleTriggerRun dir jobs i name d).2.execs (.worker i) = some ⟨name, "manual", .start⟩ ∧
      step dir (handleTriggerRun dir jobs i name d).2 (.proceed (.worker i) env) = d := by
  rw [handleTriggerRun_accepts dir i listed ⟨name, j, found, named⟩ idle]
  refine ⟨rfl, Function.update_same _ _ _, ?_⟩
  rw [step_proceed, advance_start_skips _ found skipped, ← idle, Function.update_eq_self]

end Handler

/-- A job `backup` loaded at startup, and the request `wrapViaAPI` posts for it once it has run
the command, whatever the command did. The daemon routes the request to `handleTriggerRun`,
which answers 202 and starts `executeJob("backup", "manual")`: two steps later that goroutine is
inside `Runner.Run`, running the command again, and the row it leaves is a `manual` run with the
exit code of the daemon's own run. -/
theorem wrap_request_reruns_job (timeout : Int) (outcome : CmdOutcome) (timedOut : Bool)
    (durationMs : Nat) (stdout stderr : List UInt8) :
    let job : Job := ⟨"backup", "@every 1h", "backup.sh", "", "shell", "", [], none, [], [], none, [], "jobs/backup.yaml"⟩
    let d : Daemon := ⟨Registry.startup [job] (fun _ => none) Time.zero, [], fun _ => none⟩
    let env : ExecEnv := ⟨Time.zero, "r1", false, .success, false, 5, "", ""⟩
    let accepted := handleTriggerRun "jobs" [job] 0 "backup" d
    let inside := run "jobs" accepted.2 [.proceed (.worker 0) env, .proceed (.worker 0) env]
    Lists d.registry.jobMap [job] ∧
      routeJobs (wrapViaAPI "backup" timeout outcome timedOut durationMs stdout stderr).1 = .triggerRun "backup" ∧
      accepted.1 = ⟨202, [("status", "triggered")]⟩ ∧
      inside.execs (.worker 0) = some ⟨"backup", "manual", .running
        ⟨"r1", "backup", "running", 0, Time.zero, none, 0, "", "", "", "manual", "", 0, Time.zero⟩ 0⟩ ∧
      (run "jobs" inside [.proceed (.worker 0) env, .proceed (.worker 0) env]).table.map
        (fun row => (row.triggerType, row.exitCode)) = [("manual", some 0)] := by
  dsimp only
  exact ⟨startup_lists (by decide) _ _, routeJobs_wrapViaAPI (by decide) (by decide) _ _ _ _ _ _, by decide,
    by decide, by decide⟩

/-- A job `report` that is paused, so disabled, and a job `sync` whose file holds the timeout
`soon`, both loaded at startup. A manual trigger of either is answered 202 and enters
`executeJob`, which returns at its lookup: for every table, and whatever the step reads, the
daemon is left as it was, with no row written. -/
theorem manual_trigger_of_skipped_job_records_nothing (table : Table) (env : ExecEnv) :
    let paused : Job :=
      ⟨"report", "@every 1h", "report.sh", "", "shell", "", [], some false, [], [], none, [], "jobs/report.yaml"⟩
    let unbounded : Job :=
      ⟨"sync", "@every 1h", "sync.sh", "", "shell", "soon", [], none, [], [], none, [], "jobs/sync.yaml"⟩
    let d : Daemon := ⟨Registry.startup [paused, unbounded] (fun _ => none) Time.zero, table, fun _ => none⟩
    Lists d.registry.jobMap [paused, unbounded] ∧
      ∀ name ∈ ["report", "sync"],
        (handleTriggerRun "jobs" [paused, unbounded] 0 name d).1 = ⟨202, [("status", "triggered")]⟩ ∧
        (handleTriggerRun "jobs" [paused, unbounded] 0 name d).2.execs (.worker 0) = some ⟨name, "manual", .start⟩ ∧
        step "jobs" (handleTriggerRun "jobs" [paused, unbounded] 0 name d).2 (.proceed (.worker 0) env) = d := by
  dsimp only
  have listed := @startup_lists [⟨"report", "@every 1h", "report.sh", "", "shell", "", [], some false, [],
    [], none, [], "jobs/report.yaml"⟩, ⟨"sync", "@every 1h", "sync.sh", "", "shell", "soon", [], none, [], [], none,
    [], "jobs/sync.yaml"⟩] (by decide) (fun _ => none) Time.zero
  refine ⟨listed, fun name mem => ?_⟩
  simp only [List.mem_cons, List.mem_singleton, List.not_mem_nil, or_false] at mem
  rcases mem with rfl | rfl
  · exact skipped_trigger_records_nothing "jobs" 0 (d := ⟨_, table, fun _ => none⟩) listed (by exact rfl)
      (by exact rfl) rfl (.inl (by exact rfl)) env
  · exact skipped_trigger_records_nothing "jobs" 0 (d := ⟨_, table, fun _ => none⟩) listed (by exact rfl)
      (by exact rfl) rfl (.inr (by decide)) env

end Cronbat.Api
