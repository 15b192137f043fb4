import Cronbat.Registry

/-! What the registry keeps in step: every key of `jobMap` names its job, every job has a
label and `started` means enabled, and the scheduler's queue holds, for each name, exactly
the entry `applyScheduleLocked` would build for that job. Startup establishes it, every
operation keeps it except an `archiveJob` that fails after taking the job off the queue,
and a failing call leaves the maps as they were. Job files are written by name, whatever
file a loaded job came from. -/
namespace Cronbat.Registry
open Cronbat Cronbat.Config Cronbat.Scheduler Cronbat.Heap

/-- The entry `applyScheduleLocked` leaves for a job at clock reading `now`. -/
def applied (now : Time) (j : Job) : Option Entry :=
  if j.isEnabled then (parseSchedule j.schedule).toOption.map fun s => ⟨j.name, s, nextTime s now⟩
  else none

/-- The schedule the queue should hold for a job: its own, when it is enabled and parses. -/
def wantedFor (j : Job) : Option Cron.Schedule :=
  if j.isEnabled then (parseSchedule j.schedule).toOption else none

variable {h : EntryHeap} {now : Time} {j : Job} {e : String}

@[simp] theorem applied_schedule : (applied now j).map (·.schedule) = wantedFor j := by
  unfold applied wantedFor
  split <;> simp [Option.map_map, Function.comp_def]

theorem applyScheduleLocked_spec (valid : Valid h) (now : Time) (j : Job) :
    Valid (applyScheduleLocked now j h).2 ∧
      entryOf (applyScheduleLocked now j h).2 = Function.update (entryOf h) j.name (applied now j) := by
  have removed : Valid (removeJob h j.name) := (removeJob_spec valid).2.1
  unfold applyScheduleLocked applied
  by_cases enabled : j.isEnabled
  · cases parse : parseSchedule j.schedule with
    | error e => simpa [enabled, parse, Except.toOption] using ⟨removed, entryOf_removeJob valid⟩
    | ok s =>
      simp only [enabled, parse, Bool.not_true, Bool.false_eq_true, if_false, if_true, Except.toOption,
        Option.map_some']
      rw [entryOf_addJob removed, entryOf_removeJob valid, Function.update_idem]
      exact ⟨(addJob_spec removed s now).2, rfl⟩
  · simpa [enabled] using ⟨removed, entryOf_removeJob valid⟩

theorem applied_of_error (failed : (applyScheduleLocked now j h).1 = some e) : applied now j = none := by
  unfold applyScheduleLocked at failed
  unfold applied
  split at failed
  · cases failed
  · split at failed
    · rename_i bad
      simp [bad, Except.toOption]
    · cases failed

/-! ## The invariant -/

/-- What the registry keeps in step. `trimmed` holds of every name `validateJob` passed; only a
loaded file brings in a name with white space around it. -/
structure Consistent (r : State) : Prop where
  keyed : ∀ n j, r.jobMap n = some j → j.name = n
  trimmed : ∀ n j, r.jobMap n = some j → trimSpace n = n
  labelled : ∀ n, (r.jobStateMap n).isSome = (r.jobMap n).isSome
  started : ∀ n j, r.jobMap n = some j → (r.jobStateMap n = some "started" ↔ j.isEnabled)
  valid : Valid r.sched
  agrees : ∀ n, (entryOf r.sched n).map (·.schedule) = (r.jobMap n).bind wantedFor

variable {r : State} {n : String}

theorem Consistent.unscheduled (c : Consistent r) (absent : r.jobMap n = none) : entryOf r.sched n = none := by
  simpa [absent] using c.agrees n

/-- A job put under its own name, labelled `started` just when it is enabled, with the queue
changed as `applyScheduleLocked` changes it. -/
theorem Consistent.put (c : Consistent r) (name : String) (j : Job) (lbl : String) (sched : EntryHeap)
    (files : Files) (named : j.name = name) (trimmed : trimSpace name = name)
    (started : lbl = "started" ↔ j.isEnabled) (valid : Valid sched)
    (entries : entryOf sched = Function.update (entryOf r.sched) name (applied now j)) :
    Consistent ⟨Function.update r.jobMap name (some j), Function.update r.jobStateMap name (some lbl),
      sched, files⟩ := by
  subst named
  constructor
  · intro n k found
    by_cases same : n = j.name
    · subst same; simp_all
    · exact c.keyed n k (by simpa [same] using found)
  · intro n k found
    by_cases same : n = j.name
    · subst same; exact trimmed
    · exact c.trimmed n k (by simpa [same] using found)
  · intro n
    by_cases same : n = j.name
    · subst same; simp
    · simpa [same] using c.labelled n
  · intro n k found
    by_cases same : n = j.name
    · subst same; simp_all
    · simpa [same] using c.started n k (by simpa [same] using found)
  · exact valid
  · intro n
    rw [entries]
    by_cases same : n = j.name
    · subst same; simp
    · simpa [same] using c.agrees n

/-- A job taken out of the maps and the queue. -/
theorem Consistent.drop (c : Consistent r) (name : String) (sched : EntryHeap) (files : Files)
    (valid : Valid sched) (entries : entryOf sched = Function.update (entryOf r.sched) name none) :
    Consistent ⟨Function.update r.jobMap name none, Function.update r.jobStateMap name none, sched, files⟩ := by
  constructor
  · intro n k found
    by_cases same : n = name
    · subst same; simp at found
    · exact c.keyed n k (by simpa [same] using found)
  · intro n k found
    by_cases same : n = name
    · subst same; simp at found
    · exact c.trimmed n k (by simpa [same] using found)
  · intro n
    by_cases same : n = name
    · subst same; simp
    · simpa [same] using c.labelled n
  · intro n k found
    by_cases same : n = name
    · subst same; simp at found
    · simpa [same] using c.started n k (by simpa [same] using found)
  · exact valid
  · intro n
    rw [entries]
    by_cases same : n = name
    · subst same; simp
    · simpa [same] using c.agrees n

/-- The maps unchanged, and the queue unchanged or with one job's entry rebuilt from the
job as the map holds it. -/
theorem Consistent.resched (c : Consistent r) (sched : EntryHeap) (files : Files) (valid : Valid sched)
    (entries : entryOf sched = entryOf r.sched ∨
      ∃ name, entryOf sched = Function.update (entryOf r.sched) name ((r.jobMap name).bind (applied now))) :
    Consistent ⟨r.jobMap, r.jobStateMap, sched, files⟩ := by
  refine ⟨c.keyed, c.trimmed, c.labelled, c.started, valid, fun n => ?_⟩
  rcases entries with same | ⟨name, rebuilt⟩
  · simpa [same] using c.agrees n
  · rw [rebuilt]
    by_cases named : n = name
    · subst named
      cases r.jobMap n <;> simp
    · simpa [named] using c.agrees n

/-! ## Failing calls -/

/-- What a failing call may leave of the job files: the files as they were; the target of a
`SaveJob` whose `os.WriteFile` failed after creating or truncating it; or, when `cleans`, the new
file of `updateJobYAML` removed again once the old one could not be removed (left in place when
that removal fails too). -/
def FilesLeft (faults : Faults) (cleans : Bool) (files files' : Files) : Prop :=
  files' = files ∨ (∃ path left err, faults.save = .torn left err ∧ files' = Function.update files path (some left)) ∨
    (cleans ∧ ∃ path, (∀ q, q ≠ path → files' q = files q) ∧ (faults.cleanup = .none → files' path = none))

theorem saveJob_left {faults : Faults} {cleans : Bool} {path e : String} {job j : Job} {files files' : Files}
    (saved : saveJob path job faults.save files = (some e, j, files')) : FilesLeft faults cleans files files' :=
  (saveJob_failed saved).imp_right fun ⟨left, err, torn, written⟩ => .inl ⟨path, left, err, torn, written⟩

/-- What a failing call leaves: the maps as they were; the queue as it was, or with one job's
entry rebuilt from the job the map holds (its `nextRun` from the call's clock reading); and
the files as `FilesLeft` allows. -/
structure Restored (env : Env) (cleans : Bool) (r r' : State) : Prop where
  jobMap : r'.jobMap = r.jobMap
  jobStateMap : r'.jobStateMap = r.jobStateMap
  valid : Valid r'.sched
  sched : entryOf r'.sched = entryOf r.sched ∨
    ∃ name, entryOf r'.sched = Function.update (entryOf r.sched) name ((r.jobMap name).bind (applied env.now))
  files : FilesLeft env.faults cleans r.files r'.files

section Failing
variable {env : Env} {cleans : Bool}

theorem Consistent.restored_self (c : Consistent r) : Restored env cleans r r :=
  ⟨rfl, rfl, c.valid, .inl rfl, .inl rfl⟩

theorem Restored.consistent (c : Consistent r) {r' : State} (restored : Restored env cleans r r') : Consistent r' := by
  obtain ⟨jobMap, jobStateMap, sched, files⟩ := r'
  obtain ⟨rfl, rfl, valid, entries, -⟩ := restored
  exact c.resched sched files valid entries

/-- What a call leaves, by its result: a consistent registry, or the registry restored. -/
def Settles {α : Type} (env : Env) (cleans : Bool) (r : State) (result : Except String α × State) : Prop :=
  match result.1 with
  | .ok _ => Consistent result.2
  | .error _ => Restored env cleans r result.2

theorem Settles.consistent {α : Type} {result : Except String α × State} (c : Consistent r)
    (settles : Settles env cleans r result) : Consistent result.2 := by
  unfold Settles at settles
  split at settles
  · exact settles
  · exact settles.consistent c

end Failing

/-- The label `updateJobSettings` and `updateJobYAML` compute says `started` just when the
job is enabled. -/
theorem carried_label (enabled : Bool) (state : String) :
    (if enabled = true then "started" else if state = "" ∨ state = "started" then "stopped" else state) =
      "started" ↔ enabled = true := by
  split_ifs <;> simp_all

section Operations
variable (dir : String) (env : Env)

theorem createJob_settles (c : Consistent r) (newJob : Job) : Settles env false r (createJob dir env newJob r) := by
  unfold createJob
  dsimp only
  split
  · exact c.restored_self
  rename_i candidate validated
  split
  · exact c.restored_self
  rename_i absent
  have absent : r.jobMap candidate.name = none := by simpa using absent
  obtain ⟨valid₁, entries₁⟩ :=
    applyScheduleLocked_spec c.valid env.now { candidate with filePath := joinPath dir (candidate.name ++ ".yaml") }
  have unscheduled : Function.update (entryOf r.sched) candidate.name none = entryOf r.sched := by
    rw [Function.update_eq_self_iff, c.unscheduled absent]
  split
  · rename_i e sched applied_eq
    rw [applied_eq] at valid₁ entries₁
    refine ⟨rfl, rfl, (removeJob_spec valid₁).2.1, .inl ?_, .inl rfl⟩
    rw [entryOf_removeJob valid₁, entries₁]
    exact (Function.update_idem _ _ _).trans unscheduled
  · rename_i sched applied_eq
    rw [applied_eq] at valid₁ entries₁
    split
    · rename_i e _ files saved
      refine ⟨rfl, rfl, (removeJob_spec valid₁).2.1, .inl ?_, saveJob_left saved⟩
      rw [entryOf_removeJob valid₁, entries₁]
      exact (Function.update_idem _ _ _).trans unscheduled
    · rename_i cand files saved
      obtain ⟨rfl, rfl⟩ := saveJob_ok saved
      exact c.put _ _ _ _ _ rfl (validateJob_trimmed validated : trimSpace candidate.name = candidate.name)
        (by simp [label]) valid₁ entries₁

/-- Rolling a job back with `applyScheduleLocked` rebuilds its entry from the job the map holds. -/
theorem rollback_entries (c : Consistent r) {name : String} {old j : Job} {sched : EntryHeap}
    (found : r.jobMap name = some old) (valid : Valid sched)
    (entries : entryOf sched = Function.update (entryOf r.sched) name (applied env.now j)) :
    Valid (applyScheduleLocked env.now old sched).2 ∧
      entryOf (applyScheduleLocked env.now old sched).2 =
        Function.update (entryOf r.sched) name ((r.jobMap name).bind (applied env.now)) := by
  obtain ⟨valid', entries'⟩ := applyScheduleLocked_spec valid env.now old
  rw [entries', entries, c.keyed name old found, Function.update_idem, found]
  exact ⟨valid', rfl⟩

theorem setJobEnabled_settles (c : Consistent r) (name : String) (enabled : Bool) :
    Settles env false r (setJobEnabled dir env name enabled r) := by
  unfold setJobEnabled
  dsimp only
  split
  · exact c.restored_self
  rename_i old found
  obtain rfl : old.name = name := c.keyed name old found
  obtain ⟨valid₁, entries₁⟩ := applyScheduleLocked_spec c.valid env.now { old with enabled := some enabled }
  split
  · rename_i e sched applied_eq
    rw [applied_eq] at valid₁ entries₁
    obtain ⟨valid₂, entries₂⟩ := rollback_entries env c found valid₁ entries₁
    exact ⟨rfl, rfl, valid₂, .inr ⟨_, entries₂⟩, .inl rfl⟩
  · rename_i sched applied_eq
    rw [applied_eq] at valid₁ entries₁
    split
    · rename_i e _ files saved
      obtain ⟨valid₂, entries₂⟩ := rollback_entries env c found valid₁ entries₁
      exact ⟨rfl, rfl, valid₂, .inr ⟨_, entries₂⟩, saveJob_left saved⟩
    · rename_i j files saved
      obtain ⟨rfl, rfl⟩ := saveJob_ok saved
      exact c.put _ _ _ _ _ rfl (c.trimmed _ old found) (by cases enabled <;> simp [label, Job.isEnabled])
        valid₁ entries₁

theorem setJobEnabled_ok (name : String) (enabled : Bool) (ok : (setJobEnabled dir env name enabled r).1 = .ok ()) :
    ∃ j, (setJobEnabled dir env name enabled r).2.jobMap name = some j ∧ j.isEnabled = enabled := by
  unfold setJobEnabled at ok ⊢
  dsimp only at ok ⊢
  split at ok <;> try cases ok
  split at ok <;> try cases ok
  split at ok <;> try cases ok
  rename_i saved
  obtain ⟨rfl, rfl⟩ := saveJob_ok saved
  simp_all [Job.isEnabled]

theorem Consistent.relabel (c : Consistent r) {name lbl : String} {j : Job} (found : r.jobMap name = some j)
    (started : lbl = "started" ↔ j.isEnabled) : Consistent (writeLabel name lbl r) := by
  refine ⟨c.keyed, c.trimmed, fun n => ?_, fun n k found' => ?_, c.valid, c.agrees⟩
  all_goals by_cases same : n = name
  · subst same; simp [writeLabel, found]
  · simpa [writeLabel, same] using c.labelled n
  · subst same; simp_all [writeLabel]
  · simpa [writeLabel, same] using c.started n k found'

theorem setThenLabel_settles (c : Consistent r) (name : String) (enabled : Bool) (lbl : String)
    (labelled : lbl = "started" ↔ enabled = true) :
    Settles env false r (setThenLabel dir env name enabled lbl r) := by
  have settles := setJobEnabled_settles dir env c name enabled
  have ok := setJobEnabled_ok dir env (r := r) name enabled
  unfold setThenLabel
  split
  · rename_i e r' result
    rw [result] at settles
    exact settles
  · rename_i r' result
    rw [result] at settles ok
    obtain ⟨j, found, en⟩ := ok rfl
    exact settles.relabel found (labelled.trans (by rw [en]))

theorem archiveJob_settles (c : Consistent r) (name : String) :
    ((archiveJob dir env name r).1 = .ok () → Consistent (archiveJob dir env name r).2) ∧
      ∀ e, (archiveJob dir env name r).1 = .error e →
        (archiveJob dir env name r).2.jobMap = r.jobMap ∧
          (archiveJob dir env name r).2.jobStateMap = r.jobStateMap ∧
          FilesLeft env.faults false r.files (archiveJob dir env name r).2.files := by
  have dropped : ∀ files, Consistent ⟨Function.update r.jobMap name none,
      Function.update r.jobStateMap name none, removeJob r.sched name, files⟩ := fun files =>
    c.drop name _ files (removeJob_spec c.valid).2.1 (entryOf_removeJob c.valid)
  unfold archiveJob
  dsimp only
  split
  · exact ⟨(fun ok => by cases ok), fun _ _ => ⟨rfl, rfl, .inl rfl⟩⟩
  split
  · exact ⟨(fun ok => by cases ok), fun _ _ => ⟨rfl, rfl, .inl rfl⟩⟩
  split
  · exact ⟨fun _ => dropped _, fun _ failed => by cases failed⟩
  · exact ⟨(fun ok => by cases ok), fun _ _ => ⟨rfl, rfl, .inl rfl⟩⟩
  · split
    · rename_i saved
      exact ⟨(fun ok => by cases ok), fun _ _ => ⟨rfl, rfl, saveJob_left saved⟩⟩
    · exact ⟨fun _ => dropped _, fun _ failed => by cases failed⟩

theorem deleteJob_settles (c : Consistent r) (name : String) : Settles env false r (deleteJob dir env name r) := by
  unfold deleteJob
  split
  · exact c.restored_self
  split
  · exact c.restored_self
  · exact c.drop name _ _ (removeJob_spec c.valid).2.1 (entryOf_removeJob c.valid)

theorem updateJobSettings_settles (c : Consistent r) (name : String) (updated : Job) :
    Settles env false r (updateJobSettings dir env name updated r) := by
  unfold updateJobSettings
  dsimp only
  split
  · exact c.restored_self
  rename_i old found
  split
  · exact c.restored_self
  rename_i candidate validated
  have named : candidate.name = name := (validateJob_name validated).trans (c.trimmed name old found)
  obtain ⟨valid₁, entries₁⟩ := applyScheduleLocked_spec c.valid env.now { candidate with filePath := jobFilePath dir old }
  replace entries₁ := entries₁.trans (congrArg (Function.update (entryOf r.sched) · (applied env.now _)) named)
  split
  · rename_i e sched applied_eq
    rw [applied_eq] at valid₁ entries₁
    obtain ⟨valid₂, entries₂⟩ := rollback_entries env c found valid₁ entries₁
    exact ⟨rfl, rfl, valid₂, .inr ⟨_, entries₂⟩, .inl rfl⟩
  · rename_i sched applied_eq
    rw [applied_eq] at valid₁ entries₁
    split
    · rename_i e _ files saved
      obtain ⟨valid₂, entries₂⟩ := rollback_entries env c found valid₁ entries₁
      exact ⟨rfl, rfl, valid₂, .inr ⟨_, entries₂⟩, saveJob_left saved⟩
    · rename_i j files saved
      obtain ⟨rfl, rfl⟩ := saveJob_ok saved
      exact c.put _ _ _ _ _ named (c.trimmed name old found) (carried_label _ _) valid₁ entries₁


theorem Consistent.rename (c : Consistent r) {name newName lbl : String} {j : Job} (sched : EntryHeap)
    (files : Files) (named : j.name = newName) (trimmed : trimSpace newName = newName)
    (started : lbl = "started" ↔ j.isEnabled) (valid : Valid sched)
    (entries : entryOf sched = Function.update (Function.update (entryOf r.sched) name none) newName (applied now j)) :
    Consistent ⟨Function.update (if newName ≠ name then Function.update r.jobMap name none else r.jobMap) newName (some j),
      Function.update (if newName ≠ name then Function.update r.jobStateMap name none else r.jobStateMap) newName
        (some lbl), sched, files⟩ := by
  by_cases renamed : newName = name
  · subst renamed
    simp only [ne_eq, not_true_eq_false, if_false]
    rw [Function.update_idem] at entries
    exact c.put _ _ _ _ _ named trimmed started valid entries
  · simp only [ne_eq, renamed, not_false_eq_true, if_true]
    have dropped := c.drop name (removeJob r.sched name) files (removeJob_spec c.valid).2.1 (entryOf_removeJob c.valid)
    exact dropped.put _ _ _ _ _ named trimmed started valid (by rw [entries, entryOf_removeJob c.valid])

/-- The maps `updateJobYAML` puts back after a failure are the maps it started from. -/
theorem restored_map {β : Type} (m : String → Option β) {name newName : String} (v : Option β)
    (free : newName ≠ name → m newName = none) :
    Function.update (if newName ≠ name then
        Function.update (Function.update (if newName ≠ name then Function.update m name none else m) newName v)
          newName none
      else Function.update (if newName ≠ name then Function.update m name none else m) newName v)
      name (m name) = m := by
  funext n
  by_cases renamed : newName = name
  · subst renamed
    by_cases same : n = newName <;> simp [same]
  · by_cases same : n = name
    · subst same; simp [renamed]
    · by_cases other : n = newName
      · subst other; simp [renamed, free renamed]
      · simp [renamed, same, other]

theorem update_rebuilt {β : Type} {F E : String → Option β} {name : String} (y : Option β)
    (agree : ∀ n, n ≠ name → F n = E n) : Function.update F name y = Function.update E name y := by
  funext n
  by_cases same : n = name
  · subst same; simp
  · simp [same, agree n same]

theorem updateJobYAML_settles (c : Consistent r) (name : String) (unmarshalled : Except String Job) :
    Settles env true r (updateJobYAML dir env name unmarshalled r) := by
  cases unmarshalled with
  | error e => exact c.restored_self
  | ok parsed =>
  unfold updateJobYAML
  dsimp only
  by_cases empty : ({ applyJobDefaults parsed with name := trimSpace (applyJobDefaults parsed).name } : Job).name = ""
  · rw [if_pos empty]
    exact c.restored_self
  rw [if_neg empty]
  cases validated : validateJob { applyJobDefaults parsed with name := trimSpace (applyJobDefaults parsed).name } with
  | error e => exact c.restored_self
  | ok parsed =>
  dsimp only
  cases found : r.jobMap name with
  | none => exact c.restored_self
  | some old =>
  dsimp only
  obtain rfl : old.name = name := c.keyed name old found
  by_cases taken : parsed.name ≠ old.name ∧ (r.jobMap parsed.name).isSome
  · rw [if_pos taken]
    exact c.restored_self
  rw [if_neg taken]
  have free : parsed.name ≠ old.name → r.jobMap parsed.name = none := by
    intro renamed
    simpa [renamed] using taken
  have freeState : parsed.name ≠ old.name → r.jobStateMap parsed.name = none := fun renamed => by
    simpa [free renamed] using c.labelled parsed.name
  have jobsBack := restored_map r.jobMap (some { parsed with filePath := joinPath dir (parsed.name ++ ".yaml") }) free
  rw [found] at jobsBack
  have removed : Valid (removeJob r.sched old.name) := (removeJob_spec c.valid).2.1
  obtain ⟨valid₁, entries₁⟩ :=
    applyScheduleLocked_spec removed env.now { parsed with filePath := joinPath dir (parsed.name ++ ".yaml") }
  rw [entryOf_removeJob c.valid] at entries₁
  have unscheduled : parsed.name ≠ old.name → entryOf r.sched parsed.name = none := fun renamed =>
    c.unscheduled (free renamed)
  cases applied_eq : applyScheduleLocked env.now { parsed with filePath := joinPath dir (parsed.name ++ ".yaml") }
    (removeJob r.sched old.name) with
  | mk failed sched =>
  rw [applied_eq] at valid₁ entries₁
  cases failed with
  | some e =>
    have gone := applied_of_error (congrArg Prod.fst applied_eq)
    obtain ⟨valid₂, entries₂⟩ := applyScheduleLocked_spec valid₁ env.now old
    refine ⟨jobsBack, restored_map _ _ freeState, valid₂, .inr ⟨old.name, ?_⟩, .inl rfl⟩
    rw [entries₂, found]
    refine update_rebuilt _ fun n other => ?_
    rw [entries₁, gone]
    by_cases renamed : n = parsed.name
    · subst renamed; simp [other, unscheduled other]
    · simp [renamed, other]
  | none =>
    dsimp only
    have rollback : Valid (applyScheduleLocked env.now old (removeJob (removeJob sched old.name) parsed.name)).2 ∧
        entryOf (applyScheduleLocked env.now old (removeJob (removeJob sched old.name) parsed.name)).2 =
          Function.update (entryOf r.sched) old.name ((r.jobMap old.name).bind (applied env.now)) := by
      have valid₂ : Valid (removeJob sched old.name) := (removeJob_spec valid₁).2.1
      obtain ⟨valid₃, entries₃⟩ := applyScheduleLocked_spec (removeJob_spec valid₂).2.1 env.now old
      refine ⟨valid₃, ?_⟩
      rw [entries₃, entryOf_removeJob valid₂, entryOf_removeJob valid₁, found]
      refine update_rebuilt _ fun n other => ?_
      rw [entries₁]
      by_cases renamed : n = parsed.name
      · subst renamed; simp [other, unscheduled other]
      · simp [renamed, other]
    cases saved : saveJob (joinPath dir (parsed.name ++ ".yaml"))
      { parsed with filePath := joinPath dir (parsed.name ++ ".yaml") } env.faults.save r.files with
    | mk failed rest =>
    obtain ⟨_, files⟩ := rest
    cases failed with
    | some e =>
      exact ⟨jobsBack, restored_map _ _ freeState, rollback.1, .inr ⟨old.name, rollback.2⟩, saveJob_left saved⟩
    | none =>
    dsimp only
    by_cases same : joinPath dir (parsed.name ++ ".yaml") = jobFilePath dir old
    · rw [if_pos same]
      exact c.rename sched _ rfl (validateJob_trimmed validated) (carried_label _ _) valid₁ entries₁
    rw [if_neg same]
    cases removed : remove (jobFilePath dir old) env.faults.remove files with
    | mk result files' =>
    cases result with
    | error e =>
      exact ⟨jobsBack, restored_map _ _ freeState, rollback.1, .inr ⟨old.name, rollback.2⟩, .inr (.inr ⟨rfl, _,
        fun q other => (remove_elsewhere other).trans (saveJob_elsewhere saved other),
        fun clean => by rw [clean]; exact remove_clears⟩)⟩
    | _ => exact c.rename sched _ rfl (validateJob_trimmed validated) (carried_label _ _) valid₁ entries₁

end Operations

/-! ## Runs -/

/-- Whether a call is an `archiveJob` that fails. -/
def archiveFails (dir : String) (env : Env) (r : State) : Call → Bool
  | .archiveJob name => !(archiveJob dir env name r).1.toBool
  | _ => false

/-- No `archiveJob` of the run fails. -/
def archivesSucceed (dir : String) : State → List (Env × Call) → Bool
  | _, [] => true
  | r, (env, c) :: rest => !archiveFails dir env r c && archivesSucceed dir (call dir env c r).2 rest

/-- Whether a call is `updateJobYAML`, the one call that may remove a file of its own making when
it fails. -/
def Call.renames : Call → Bool
  | .updateJobYAML _ _ => true
  | _ => false

theorem Settles.map {α β : Type} {env : Env} {cleans : Bool} {result : Except String α × State} (f : α → β)
    (settles : Settles env cleans r result) : Settles env cleans r (Prod.map (Except.map f) id result) := by
  obtain ⟨res, r'⟩ := result
  cases res <;> exact settles

section Calls
variable (dir : String) (env : Env)

theorem call_settles (c : Consistent r) (cl : Call) (other : ∀ name, cl ≠ .archiveJob name) :
    Settles env cl.renames r (call dir env cl r) := by
  cases cl with
  | createJob job => exact createJob_settles dir env c job
  | updateJobSettings name updated => exact updateJobSettings_settles dir env c name updated
  | updateJobYAML name unmarshalled => exact (updateJobYAML_settles dir env c name unmarshalled).map _
  | enableJob name => exact setJobEnabled_settles dir env c name true
  | disableJob name => exact setJobEnabled_settles dir env c name false
  | startJob name => exact setThenLabel_settles dir env c name true "started" (by simp)
  | stopJob name => exact setThenLabel_settles dir env c name false "stopped" (by decide)
  | pauseJob name => exact setThenLabel_settles dir env c name false "paused" (by decide)
  | archiveJob name => exact absurd rfl (other name)
  | deleteJob name => exact deleteJob_settles dir env c name

theorem call_consistent (c : Consistent r) (cl : Call) (archived : archiveFails dir env r cl = false) :
    Consistent (call dir env cl r).2 := by
  cases cl with
  | archiveJob name =>
    cases ran : (archiveJob dir env name r).1 with
    | error e => simp [archiveFails, ran, Except.toBool] at archived
    | ok u => exact (archiveJob_settles dir env c name).1 ran
  | _ => exact (call_settles dir env c _ fun _ same => by cases same).consistent c

end Calls

theorem run_consistent {dir : String} (c : Consistent r) (calls : List (Env × Call))
    (archived : archivesSucceed dir r calls = true) : Consistent (run dir r calls) := by
  induction calls generalizing r with
  | nil => exact c
  | cons head rest ih =>
    obtain ⟨env, cl⟩ := head
    simp only [archivesSucceed, Bool.and_eq_true, Bool.not_eq_true'] at archived
    exact ih (call_consistent dir env c cl archived.1) archived.2

theorem startup_consistent (jobs : List Job) (files : Files) (now : Time)
    (trimmedNames : ∀ j ∈ jobs, trimSpace j.name = j.name) : Consistent (startup jobs files now) := by
  unfold startup
  induction jobs using List.reverseRecOn with
  | nil => exact ⟨nofun, nofun, fun _ => rfl, nofun, valid_nil, fun _ => rfl⟩
  | append_singleton jobs j ih =>
    simp only [List.foldl_append, List.foldl_cons, List.foldl_nil]
    have c := ih fun k member => trimmedNames k (List.mem_append_left _ member)
    obtain ⟨valid, entries⟩ := applyScheduleLocked_spec c.valid now j
    exact c.put j.name j _ _ files rfl (trimmedNames j (by simp)) (by cases j.isEnabled <;> simp [label])
      valid entries

/-! ## What the registry guarantees -/

theorem wantedFor_eq_some {j : Job} {s : Cron.Schedule} :
    wantedFor j = some s ↔ j.isEnabled ∧ parseSchedule j.schedule = .ok s := by
  unfold wantedFor
  cases parse : parseSchedule j.schedule <;> by_cases enabled : j.isEnabled <;>
    simp [enabled, parse, Except.toOption]

theorem Consistent.scheduled_iff (c : Consistent r) (n : String) (s : Cron.Schedule) :
    (∃ e ∈ r.sched, e.jobName = n ∧ e.schedule = s) ↔
      ∃ j, r.jobMap n = some j ∧ j.isEnabled ∧ parseSchedule j.schedule = .ok s := by
  have agree := c.agrees n
  constructor
  · rintro ⟨e, mem, named, rfl⟩
    rw [(entryOf_eq_some c.valid).mpr ⟨mem, named⟩] at agree
    obtain ⟨j, found, wanted⟩ := Option.bind_eq_some.mp agree.symm
    exact ⟨j, found, wantedFor_eq_some.mp wanted⟩
  · rintro ⟨j, found, enabled, parse⟩
    rw [found, Option.some_bind, wantedFor_eq_some.mpr ⟨enabled, parse⟩] at agree
    obtain ⟨e, held, rfl⟩ := Option.map_eq_some'.mp agree
    exact ⟨e, ((entryOf_eq_some c.valid).mp held).1, ((entryOf_eq_some c.valid).mp held).2, rfl⟩

theorem applied_eq_map : applied now j = (wantedFor j).map fun s => ⟨j.name, s, nextTime s now⟩ := by
  unfold applied wantedFor
  split <;> rfl

/-- A job's entry rebuilt at clock reading `now` is its entry with `nextRun` recomputed. -/
theorem Consistent.rebuilt (c : Consistent r) (name : String) (now : Time) :
    (r.jobMap name).bind (applied now) =
      (entryOf r.sched name).map fun x => { x with nextRun := nextTime x.schedule now } := by
  have agree := c.agrees name
  cases found : r.jobMap name with
  | none => simp [c.unscheduled found]
  | some j =>
    rw [found, Option.some_bind] at agree
    rw [Option.some_bind, applied_eq_map, ← agree, Option.map_map]
    cases held : entryOf r.sched name with
    | none => rfl
    | some x =>
      have named := ((entryOf_eq_some c.valid).mp held).2
      simp only [Option.map_some', Function.comp_def, c.keyed name j found, ← named]

/-- What a failing call leaves of the files when no `SaveJob` fails after writing. -/
theorem FilesLeft.untorn {faults : Faults} {cleans : Bool} {files files' : Files}
    (left : FilesLeft faults cleans files files') (untorn : ∀ left err, faults.save ≠ .torn left err) :
    files' = files ∨ cleans ∧ ∃ path, (∀ q, q ≠ path → files' q = files q) ∧ (faults.cleanup = .none → files' path = none) :=
  left.imp_right fun rest => rest.resolve_left fun ⟨_, l, err, torn, _⟩ => untorn l err torn

/-- A loaded file `a.yaml` that holds a job named `b` is `b`'s file. `createJob` of a job named
`a` checks only the name, succeeds, and writes `<dir>/a.yaml` over `b`'s definition, while `b`
stays in the registry with that path as its file. -/
theorem createJob_overwrites_other_job_file :
    let b : Job := ⟨"b", "@every 1m", "true", "", "shell", "", [], none, [], [], none, [], ""⟩
    let loaded : Job := { b with filePath := "jobs/a.yaml" }
    let env : Env := ⟨⟨1704067200 * Time.second⟩, ⟨.none, .none, .none, .none, .none⟩⟩
    let r := startup [loaded] (fun p => if p = "jobs/a.yaml" then some (.yaml b) else none) env.now
    (loadJobs "jobs" [("a.yaml", false)] fun _ => .ok b).toOption = some [loaded] ∧
      (createJob "jobs" env { b with name := "a" } r).1 = .ok () ∧
      (createJob "jobs" env { b with name := "a" } r).2.jobMap "b" = some loaded ∧
      jobFilePath "jobs" loaded = "jobs/a.yaml" ∧ r.files "jobs/a.yaml" = some (.yaml b) ∧
      (createJob "jobs" env { b with name := "a" } r).2.files "jobs/a.yaml" = some (.yaml { b with name := "a" }) :=
  ⟨by decide, rfl, rfl, rfl, rfl, rfl⟩

end Cronbat.Registry
