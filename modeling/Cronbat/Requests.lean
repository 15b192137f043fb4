import Cronbat.Agreement

/-! Registry calls as the web server makes them: each request in its own goroutine, each
critical section under `jobsMu` atomic. Every operation is one critical section but
`startJob`, `stopJob` and `pauseJob`, which release the lock after `setJobEnabled` and take it
again to write the label. Between the two, any other request may run.

What is proved here: every interleaving is, up to labels, the calls run one after another in
the order of their first critical sections, so the registry's jobs and queue stay in step; the
labels need not. -/
namespace Cronbat.Registry
open Cronbat Cronbat.Config

/-- Where a request's goroutine stands between two holds of `jobsMu`. -/
inductive Pending where
  /-- Not started: the whole call, or `setJobEnabled` for `startJob`, `stopJob`, `pauseJob`. -/
  | call (env : Env) (c : Call)
  /-- `setJobEnabled` returned nil; the second critical section is still to come. -/
  | label (name lbl : String)

/-- After `setJobEnabled`: on success the label write is still to come. -/
def labelNext (name lbl : String) : Except String Unit × State → State × Option Pending
  | (.ok (), r) => (r, some (.label name lbl))
  | (.error _, r) => (r, none)

/-- One critical section of a request: the registry after it and what remains of the request. -/
def critical (dir : String) (r : State) : Pending → State × Option Pending
  | .call env (.startJob name) => labelNext name "started" (setJobEnabled dir env name true r)
  | .call env (.stopJob name) => labelNext name "stopped" (setJobEnabled dir env name false r)
  | .call env (.pauseJob name) => labelNext name "paused" (setJobEnabled dir env name false r)
  | .call env c => ((call dir env c r).2, none)
  | .label name lbl => (writeLabel name lbl r, none)

/-- The registry and the requests in flight. -/
structure Server where
  registry : State
  pending : List Pending

/-- The request at position `i` runs its next critical section. -/
def Server.step (dir : String) (d : Server) (i : Nat) : Server :=
  match d.pending[i]? with
  | none => d
  | some p =>
    match critical dir d.registry p with
    | (r, some rest) => ⟨r, d.pending.set i rest⟩
    | (r, none) => ⟨r, d.pending.eraseIdx i⟩

/-- An interleaving: the position of the request that runs at each step. -/
def Server.run (dir : String) (d : Server) (schedule : List Nat) : Server :=
  schedule.foldl (Server.step dir) d

/-! ## Interleavings change only the labels

Labels never flow into `jobMap`, the queue or the files, and every critical section but a
label write is a whole call. So an interleaving leaves the jobs, the queue and the files where
the calls leave them run one after another, in the order their first critical sections ran;
only `jobStateMap` can differ. -/

/-- Two registries with the same jobs, queue and files; their labels may differ. -/
structure SameJobs (r r' : State) : Prop where
  jobMap : r.jobMap = r'.jobMap
  sched : r.sched = r'.sched
  files : r.files = r'.files

theorem SameJobs.symm {r r' : State} (same : SameJobs r r') : SameJobs r' r :=
  ⟨same.jobMap.symm, same.sched.symm, same.files.symm⟩

theorem SameJobs.trans {r r' r'' : State} (same : SameJobs r r') (same' : SameJobs r' r'') : SameJobs r r'' :=
  ⟨same.jobMap.trans same'.jobMap, same.sched.trans same'.sched, same.files.trans same'.files⟩

/-! Each operation, on a registry relabelled by `m`, ends with the jobs, queue and files it
ends with on the registry itself. -/

section Relabel
variable (dir : String) (env : Env) (r : State) (m : String → Option String)

theorem createJob_relabel (j : Job) :
    SameJobs (createJob dir env j { r with jobStateMap := m }).2 (createJob dir env j r).2 := by
  unfold createJob
  dsimp only
  repeat' split
  all_goals exact ⟨rfl, rfl, rfl⟩

theorem setJobEnabled_relabel (name : String) (enabled : Bool) :
    SameJobs (setJobEnabled dir env name enabled { r with jobStateMap := m }).2 (setJobEnabled dir env name enabled r).2 := by
  unfold setJobEnabled
  dsimp only
  repeat' split
  all_goals exact ⟨rfl, rfl, rfl⟩

theorem archiveJob_relabel (name : String) :
    SameJobs (archiveJob dir env name { r with jobStateMap := m }).2 (archiveJob dir env name r).2 := by
  unfold archiveJob
  dsimp only
  repeat' split
  all_goals exact ⟨rfl, rfl, rfl⟩

theorem deleteJob_relabel (name : String) :
    SameJobs (deleteJob dir env name { r with jobStateMap := m }).2 (deleteJob dir env name r).2 := by
  unfold deleteJob
  dsimp only
  repeat' split
  all_goals exact ⟨rfl, rfl, rfl⟩

theorem updateJobSettings_relabel (name : String) (updated : Job) :
    SameJobs (updateJobSettings dir env name updated { r with jobStateMap := m }).2 (updateJobSettings dir env name updated r).2 := by
  unfold updateJobSettings
  dsimp only
  repeat' split
  all_goals exact ⟨rfl, rfl, rfl⟩

theorem updateJobYAML_relabel (name : String) (unmarshalled : Except String Job) :
    SameJobs (updateJobYAML dir env name unmarshalled { r with jobStateMap := m }).2
      (updateJobYAML dir env name unmarshalled r).2 := by
  cases unmarshalled with
  | error e => exact ⟨rfl, rfl, rfl⟩
  | ok parsed =>
  unfold updateJobYAML
  dsimp only
  by_cases empty : ({ applyJobDefaults parsed with name := trimSpace (applyJobDefaults parsed).name } : Job).name = ""
  · simp only [if_pos empty]
    exact ⟨rfl, rfl, rfl⟩
  simp only [if_neg empty]
  cases validateJob { applyJobDefaults parsed with name := trimSpace (applyJobDefaults parsed).name } with
  | error e => exact ⟨rfl, rfl, rfl⟩
  | ok parsed =>
  dsimp only
  cases r.jobMap name with
  | none => exact ⟨rfl, rfl, rfl⟩
  | some old =>
  dsimp only
  by_cases taken : parsed.name ≠ name ∧ (r.jobMap parsed.name).isSome
  · simp only [if_pos taken]
    exact ⟨rfl, rfl, rfl⟩
  simp only [if_neg taken]
  cases applyScheduleLocked env.now { parsed with filePath := joinPath dir (parsed.name ++ ".yaml") }
    (Scheduler.removeJob r.sched name) with
  | mk failed sched =>
  cases failed with
  | some e => exact ⟨rfl, rfl, rfl⟩
  | none =>
  dsimp only
  cases saveJob (joinPath dir (parsed.name ++ ".yaml"))
      { parsed with filePath := joinPath dir (parsed.name ++ ".yaml") } env.faults.save r.files with
  | mk failed rest =>
  cases failed with
  | some e => exact ⟨rfl, rfl, rfl⟩
  | none =>
  dsimp only
  by_cases same : joinPath dir (parsed.name ++ ".yaml") = jobFilePath dir old
  · simp only [if_pos same]
    exact ⟨rfl, rfl, rfl⟩
  simp only [if_neg same]
  cases remove (jobFilePath dir old) env.faults.remove rest.2 with
  | mk result files =>
  cases result <;> exact ⟨rfl, rfl, rfl⟩

theorem setThenLabel_sameJobs (name : String) (enabled : Bool) (lbl : String) :
    SameJobs (setThenLabel dir env name enabled lbl r).2 (setJobEnabled dir env name enabled r).2 := by
  unfold setThenLabel
  generalize setJobEnabled dir env name enabled r = result
  obtain ⟨_ | ⟨⟩, r⟩ := result <;> exact ⟨rfl, rfl, rfl⟩

end Relabel

theorem call_updateJobYAML (dir : String) (env : Env) (name : String) (unmarshalled : Except String Job)
    (r : State) : (call dir env (.updateJobYAML name unmarshalled) r).2 = (updateJobYAML dir env name unmarshalled r).2 :=
  Prod.map_snd _ _ _

/-- Labels never flow into the jobs, the queue or the files: a call on two registries with the
same jobs ends with the same jobs. -/
theorem call_sameJobs (dir : String) (env : Env) (c : Call) {r r' : State} (same : SameJobs r r') :
    SameJobs (call dir env c r).2 (call dir env c r').2 := by
  obtain ⟨jobMap, labels, sched, files⟩ := r
  obtain ⟨jobMap', labels', sched', files'⟩ := r'
  obtain ⟨same₁, same₂, same₃⟩ := same
  dsimp only at same₁ same₂ same₃
  subst same₁ same₂ same₃
  let r : State := ⟨jobMap, labels', sched, files⟩
  have relabelled := fun name enabled lbl =>
    (setThenLabel_sameJobs dir env { r with jobStateMap := labels } name enabled lbl).trans
      ((setJobEnabled_relabel dir env r labels name enabled).trans (setThenLabel_sameJobs dir env r name enabled lbl).symm)
  cases c with
  | createJob job => exact createJob_relabel dir env r labels job
  | updateJobSettings name updated => exact updateJobSettings_relabel dir env r labels name updated
  | updateJobYAML name unmarshalled =>
    rw [call_updateJobYAML, call_updateJobYAML]
    exact updateJobYAML_relabel dir env r labels name unmarshalled
  | enableJob name => exact setJobEnabled_relabel dir env r labels name true
  | disableJob name => exact setJobEnabled_relabel dir env r labels name false
  | startJob name => exact relabelled name true "started"
  | stopJob name => exact relabelled name false "stopped"
  | pauseJob name => exact relabelled name false "paused"
  | archiveJob name => exact archiveJob_relabel dir env r labels name
  | deleteJob name => exact deleteJob_relabel dir env r labels name

theorem run_append (dir : String) (r : State) (done later : List (Env × Call)) :
    run dir r (done ++ later) = run dir (run dir r done) later := by
  induction done generalizing r with
  | nil => rfl
  | cons call rest ih => exact ih _

/-- The call a request has yet to make: none once its first critical section has run. -/
def Pending.call? : Pending → Option (Env × Call)
  | .call env c => some (env, c)
  | .label _ _ => none

theorem labelNext_fst (name lbl : String) (result : Except String Unit × State) :
    (labelNext name lbl result).1 = result.2 := by
  obtain ⟨_ | ⟨⟩, r⟩ := result <;> rfl

theorem labelNext_rest {name lbl : String} {result : Except String Unit × State} {rest : Pending}
    (next : (labelNext name lbl result).2 = some rest) : rest.call? = none := by
  obtain ⟨_ | ⟨⟩, r⟩ := result
  · exact Option.noConfusion next
  · exact Option.some.inj next ▸ rfl

theorem labelNext_setJobEnabled (dir : String) (env : Env) (r : State) (name : String) (enabled : Bool)
    (lbl : String) :
    SameJobs (labelNext name lbl (setJobEnabled dir env name enabled r)).1 (setThenLabel dir env name enabled lbl r).2 := by
  rw [labelNext_fst]
  exact (setThenLabel_sameJobs dir env r name enabled lbl).symm

/-- A request's first critical section is its call up to labels, and what remains of it is a
label write. -/
theorem critical_call (dir : String) (r : State) (env : Env) (c : Call) :
    SameJobs (critical dir r (.call env c)).1 (call dir env c r).2 ∧
      ∀ rest, (critical dir r (.call env c)).2 = some rest → rest.call? = none := by
  cases c with
  | startJob name => exact ⟨labelNext_setJobEnabled dir env r name true "started", fun _ => labelNext_rest⟩
  | stopJob name => exact ⟨labelNext_setJobEnabled dir env r name false "stopped", fun _ => labelNext_rest⟩
  | pauseJob name => exact ⟨labelNext_setJobEnabled dir env r name false "paused", fun _ => labelNext_rest⟩
  | _ => exact ⟨⟨rfl, rfl, rfl⟩, fun _ returned => Option.noConfusion returned⟩

theorem filterMap_perm_eraseIdx {α β : Type} (f : α → Option β) {l : List α} {i : Nat} {p : α}
    (found : l[i]? = some p) : (l.filterMap f).Perm ((f p).toList ++ (l.eraseIdx i).filterMap f) := by
  obtain ⟨lt, rfl⟩ := List.getElem?_eq_some_iff.mp found
  have whole : l = l.take i ++ l[i] :: l.drop (i + 1) := by
    rw [← List.drop_eq_getElem_cons lt, List.take_append_drop]
  rw [List.eraseIdx_eq_take_drop_succ]
  conv_lhs => rw [whole]
  simp only [List.filterMap_append, List.filterMap_cons]
  cases f l[i] with
  | none => exact List.Perm.refl _
  | some b => exact List.perm_middle

theorem filterMap_set_none {α β : Type} (f : α → Option β) {l : List α} {i : Nat} {q : α}
    (lt : i < l.length) (dropped : f q = none) : (l.set i q).filterMap f = (l.eraseIdx i).filterMap f := by
  rw [List.set_eq_take_cons_drop q lt, List.eraseIdx_eq_take_drop_succ]
  simp [dropped]

/-- The registry is, up to labels, where the calls whose first critical section has run leave
it, run one after another in that order; the others have yet to start. -/
def Linearized (dir : String) (r₀ : State) (calls : List (Env × Call)) (d : Server) : Prop :=
  ∃ done, (done ++ d.pending.filterMap Pending.call?).Perm calls ∧ SameJobs d.registry (run dir r₀ done)

theorem Linearized.step {dir : String} {r₀ : State} {calls : List (Env × Call)} {d : Server}
    (lin : Linearized dir r₀ calls d) (i : Nat) : Linearized dir r₀ calls (d.step dir i) := by
  obtain ⟨done, perm, same⟩ := lin
  unfold Server.step
  split
  · exact ⟨done, perm, same⟩
  rename_i p found
  have lt : i < d.pending.length := (List.getElem?_eq_some_iff.mp found).1
  have erased := filterMap_perm_eraseIdx Pending.call? found
  cases p with
  | label name lbl =>
    simp only [critical]
    refine ⟨done, ?_, ⟨same.jobMap, same.sched, same.files⟩⟩
    exact (List.Perm.append_left done (by simpa [Pending.call?] using erased.symm)).trans perm
  | call env c =>
    obtain ⟨first, rest⟩ := critical_call dir d.registry env c
    have moved : (done ++ [(env, c)] ++ (d.pending.eraseIdx i).filterMap Pending.call?).Perm calls := by
      refine List.Perm.trans ?_ perm
      simpa [Pending.call?] using (List.Perm.append_left done erased).symm
    have ran : SameJobs (critical dir d.registry (.call env c)).1 (run dir r₀ (done ++ [(env, c)])) := by
      rw [run_append]
      exact first.trans (call_sameJobs dir env c same)
    generalize critical dir d.registry (.call env c) = result at rest ran ⊢
    obtain ⟨r, _ | q⟩ := result
    · exact ⟨_, moved, ran⟩
    · refine ⟨_, ?_, ran⟩
      rwa [filterMap_set_none Pending.call? lt (rest q rfl)]

theorem Linearized.run {dir : String} {r₀ : State} {calls : List (Env × Call)} {d : Server}
    (lin : Linearized dir r₀ calls d) : ∀ schedule, Linearized dir r₀ calls (Server.run dir d schedule)
  | [] => lin
  | i :: rest => (lin.step i).run rest

/-- **Linearizability up to labels.** Take any requests, each in its own goroutine, and any
interleaving of their critical sections. The jobs, the queue and the files are then where the
calls whose first critical section has run leave them, run one after another in that order;
the other requests have not started. Only `jobStateMap` can differ from that sequential run. -/
theorem interleaving_linearizable (dir : String) (r₀ : State) (requests : List (Env × Call))
    (schedule : List Nat) :
    let d := Server.run dir ⟨r₀, requests.map fun request => .call request.1 request.2⟩ schedule
    ∃ done, (done ++ d.pending.filterMap Pending.call?).Perm requests ∧ SameJobs d.registry (run dir r₀ done) := by
  have pending : (requests.map fun request => Pending.call request.1 request.2).filterMap Pending.call? = requests := by
    rw [List.filterMap_map]
    exact List.filterMap_some requests
  have start : Linearized dir r₀ requests ⟨r₀, requests.map fun request => .call request.1 request.2⟩ :=
    ⟨[], by rw [List.nil_append, pending], ⟨rfl, rfl, rfl⟩⟩
  exact start.run schedule

theorem archivesSucceed_of_unarchived (dir : String) {r : State} {calls : List (Env × Call)}
    (unarchived : ∀ request ∈ calls, ∀ name, request.2 ≠ .archiveJob name) : archivesSucceed dir r calls = true := by
  induction calls generalizing r with
  | nil => rfl
  | cons request rest ih =>
    obtain ⟨env, c⟩ := request
    have kept : archiveFails dir env r c = false := by
      cases c with
      | archiveJob name => exact absurd rfl (unarchived _ (List.mem_cons_self _ _) name)
      | _ => rfl
    simp only [archivesSucceed, kept, Bool.not_false, Bool.true_and]
    exact ih fun request held => unarchived request (List.mem_cons_of_mem _ held)

/-- From the registry built at startup from job names with no surrounding white space, every
interleaving of requests other than `archiveJob` keeps every job under its own name, and the
queue holding an entry for exactly the enabled jobs whose schedules parse; only the labels can
go wrong. -/
theorem interleaving_keeps_jobs_and_queue (dir : String) (jobs : List Job) (files : Files) (now : Time)
    (requests : List (Env × Call)) (schedule : List Nat) (trimmedNames : ∀ j ∈ jobs, trimSpace j.name = j.name)
    (unarchived : ∀ request ∈ requests, ∀ name, request.2 ≠ .archiveJob name) :
    let d := Server.run dir ⟨startup jobs files now, requests.map fun request => .call request.1 request.2⟩ schedule
    (∀ n j, d.registry.jobMap n = some j → j.name = n) ∧
      ∀ n s, (∃ e ∈ d.registry.sched, e.jobName = n ∧ e.schedule = s) ↔
        ∃ j, d.registry.jobMap n = some j ∧ j.isEnabled ∧ Scheduler.parseSchedule j.schedule = .ok s := by
  intro d
  obtain ⟨done, perm, same⟩ := interleaving_linearizable dir (startup jobs files now) requests schedule
  have archived : archivesSucceed dir (startup jobs files now) done = true :=
    archivesSucceed_of_unarchived dir fun request held =>
      unarchived request (perm.subset (List.mem_append_left _ held))
  have c := run_consistent (startup_consistent jobs files now trimmedNames) done archived
  rw [same.jobMap, same.sched]
  exact ⟨c.keyed, c.scheduled_iff⟩

/-- `pauseJob` and `startJob` of one enabled job, interleaved between their two critical
sections: pause disables the job, start enables it and writes `started`, and pause's label
write lands last, so the enabled job is labelled `paused`. A `stopJob` racing a `deleteJob` the
same way leaves a label for a job that is gone. -/
theorem interleaved_labels_disagree :
    let job : Job := ⟨"a", "@every 1m", "true", "", "shell", "", [], none, [], [], none, [], "jobs/a.yaml"⟩
    let env : Env := ⟨⟨1704067200 * Time.second⟩, ⟨.none, .none, .none, .none, .none⟩⟩
    let r := startup [job] (fun p => if p = "jobs/a.yaml" then some (.yaml job) else none) env.now
    let paused := Server.run "jobs" ⟨r, [.call env (.pauseJob "a"), .call env (.startJob "a")]⟩ [0, 1, 1, 0]
    let stopped := Server.run "jobs" ⟨r, [.call env (.stopJob "a"), .call env (.deleteJob "a")]⟩ [0, 1, 0]
    paused.pending.length = 0 ∧ (paused.registry.jobMap "a").map (·.isEnabled) = some true ∧
      paused.registry.jobStateMap "a" = some "paused" ∧
      stopped.pending.length = 0 ∧ stopped.registry.jobMap "a" = none ∧
      stopped.registry.jobStateMap "a" = some "stopped" := by
  decide

end Cronbat.Registry
