import Cronbat.Crontab

/-! # Importing crontab entries

`cron-sync import` turns the crontab lines tagged `#cronbat` into job definitions
(`parseCronbatEntries`). A line `runCronSyncInstall` wrote gives back the name and command that
follow `--name` and `--`; any other tagged line gets a name made from its command, with a
numeric suffix appended until it is new. Names are kept in `seen`, and a wrap line whose name is
already there is skipped, so the entries have distinct names (`Imported`, kept by each turn).
The suffix loop runs on an explicit fuel of one more turn than there are seen names;
`suffixLoop_exits` shows that it always stops on its own condition within that many turns. -/

namespace Cronbat.CronImport
open Cron (fields trimSpace splitChar)
open Crontab

/-- `importedJob`. -/
structure ImportedJob where
  name : List Char
  schedule : List Char
  command : List Char
  deriving DecidableEq, Repr

/-- `strings.Contains(s, sub)`. -/
def contains (s sub : List Char) : Bool := s.tails.any sub.isPrefixOf

/-- `strings.Replace(s, old, "", 1)`: `s` without the first occurrence of `old`. -/
def removeFirst (old : List Char) : List Char → List Char
  | [] => []
  | c :: rest => if old.isPrefixOf (c :: rest) then (c :: rest).drop old.length else c :: removeFirst old rest

/-- `strings.Join(parts, " ")`. -/
def joinFields (parts : List (List Char)) : List Char := [' '].intercalate parts

/-! ## Wrap lines -/

/-- `parseWrapCommand`'s loop over the fields: the value of the last `--name` that has one before
the first `--`, and the fields after that `--` if there is one. A `--name` flag's value is
skipped, so it is never taken for `--`. -/
def scanWrap (name : List Char) : List (List Char) → List Char × Option (List (List Char))
  | [] => (name, none)
  | [part] => if part = "--".toList then (name, some []) else (name, none)
  | part :: next :: rest =>
    if part = "--name".toList then scanWrap next rest
    else if part = "--".toList then (name, some (next :: rest))
    else scanWrap name (next :: rest)

/-- `parseWrapCommand`: the wrapped command and the job's name, for a command that holds `wrap`,
a non-empty `--name` and something after `--`. -/
def parseWrapCommand (command : List Char) : Option (List Char × List Char) :=
  if !contains command "wrap".toList then none else
  match scanWrap [] (fields command) with
  | (name, some wrapped) => if name = [] ∨ wrapped = [] then none else some (joinFields wrapped, name)
  | (_, none) => none

/-! ## Generated names -/

/-- `filepath.Base`: the last element of a path, trailing slashes removed. -/
def base (path : List Char) : List Char :=
  if path = [] then ['.'] else
  let path := path.rdropWhile (· == '/')
  let path := (path.reverse.takeWhile (· != '/')).reverse
  if path = [] then ['/'] else path

/-- `filepath.Ext`: the last element's suffix from its last `.`, or nothing. -/
def ext (path : List Char) : List Char :=
  let element := path.reverse.takeWhile (· != '/')
  if '.' ∈ element then '.' :: (element.takeWhile (· != '.')).reverse else []

/-- `strings.TrimSuffix`. -/
def trimSuffix (s suffix : List Char) : List Char := if suffix.isSuffixOf s then s.take (s.length - suffix.length) else s

/-- The runes `generateJobName` keeps: `[A-Za-z0-9_-]`. -/
def nameRune (ch : Char) : Bool :=
  ('a' ≤ ch && ch ≤ 'z') || ('A' ≤ ch && ch ≤ 'Z') || ('0' ≤ ch && ch ≤ '9') || ch == '-' || ch == '_'

/-- `generateJobName`, with `pfx` its `prefix` argument: the base name of the command's first
field, extension removed and sanitised, or `job`. -/
def generateJobName (pfx command : List Char) : List Char :=
  match fields command with
  | [] => pfx ++ "job".toList
  | first :: _ =>
    let b := base first
    let e := ext b
    let b := if e ≠ [] then trimSuffix b e else b
    let name := b.filter nameRune
    pfx ++ if name = [] then "job".toList else name

/-- `for i := 2; seen[name]; i++ { name = fmt.Sprintf("%s%d", name, i) }`, for at most `fuel`
turns. -/
def suffixLoop (seen : List (List Char)) : Nat → List Char → Nat → List Char
  | 0, name, _ => name
  | fuel + 1, name, i => if name ∈ seen then suffixLoop seen fuel (name ++ (toString i).toList) (i + 1) else name

/-! ## The import loop -/

/-- The schedule and command of a line `parseCronbatEntries` takes an entry from: trimmed, not
empty and not a comment, holding the tag, and with at least six fields once the first tag is
removed; the schedule is the first five fields and the command the rest, each joined by single
spaces. -/
def lineFields (line : List Char) : Option (List Char × List Char) :=
  let line := trimSpace line
  if line = [] ∨ line.head? = some '#' then none
  else if !contains line cronbatTag then none
  else
    let parts := fields (trimSpace (removeFirst cronbatTag line))
    if parts.length < 6 then none else some (joinFields (parts.take 5), joinFields (parts.drop 5))

/-- The state of `parseCronbatEntries`'s loop. -/
structure Import where
  entries : List ImportedJob
  seen : List (List Char)

/-- One turn of `parseCronbatEntries`'s loop, with `pfx` its `prefix` argument. -/
def importLine (pfx : List Char) (st : Import) (line : List Char) : Import :=
  match lineFields line with
  | none => st
  | some (schedule, command) =>
    match parseWrapCommand command with
    | some (wrapCmd, name) => if name ∈ st.seen then st else ⟨st.entries ++ [⟨name, schedule, wrapCmd⟩], name :: st.seen⟩
    | none =>
      let name := generateJobName pfx command
      let name := if name ∈ st.seen then suffixLoop st.seen (st.seen.length + 1) name 2 else name
      ⟨st.entries ++ [⟨name, schedule, command⟩], name :: st.seen⟩

/-- `parseCronbatEntries`. -/
def parseCronbatEntries (crontab pfx : List Char) : List ImportedJob :=
  ((splitChar '\n' crontab).foldl (importLine pfx) ⟨[], []⟩).entries

/-! ## The suffix loop stops -/

theorem toDigitsCore_ne_nil (b : Nat) : ∀ fuel n (ds : List Char), Nat.toDigitsCore b (fuel + 1) n ds ≠ []
  | 0, n, ds => by rw [Nat.toDigitsCore]; split <;> simp [Nat.toDigitsCore]
  | fuel + 1, n, ds => by
    rw [Nat.toDigitsCore]; split
    · simp
    · exact toDigitsCore_ne_nil b fuel _ _

/-- `fmt.Sprintf("%d", i)` is never empty, so each turn of the suffix loop lengthens the name. -/
theorem toString_ne_nil (i : Nat) : (toString i).toList ≠ [] :=
  toDigitsCore_ne_nil 10 i i []

/-- The seen names at least as long as `name`. -/
def longer (seen : List (List Char)) (name : List Char) : Nat := (seen.filter fun s => name.length ≤ s.length).length

/-- A turn of the suffix loop leaves behind the seen name it had, so fewer seen names are as long. -/
theorem longer_append_lt {seen : List (List Char)} {name suffix : List Char} (mem : name ∈ seen) (grow : suffix ≠ []) :
    longer seen (name ++ suffix) < longer seen name := by
  have nested : (seen.filter fun s => (name ++ suffix).length ≤ s.length) =
      (seen.filter fun s => name.length ≤ s.length).filter fun s => (name ++ suffix).length ≤ s.length := by
    rw [List.filter_filter]
    exact List.filter_congr fun s _ => by
      by_cases long : (name ++ suffix).length ≤ s.length
      · have : name.length ≤ s.length := le_trans (by simp) long
        simp [long, this]
      · simp at long ⊢; omega
  rw [longer, longer, nested, List.length_filter_lt_length_iff_exists]
  exact ⟨name, List.mem_filter.mpr ⟨mem, by simp⟩, by simpa using grow⟩

/-- With more turns than seen names as long as `name`, the suffix loop stops on its own condition:
it returns a name not in `seen`, and no further turn would change it. -/
theorem suffixLoop_fresh (seen : List (List Char)) : ∀ fuel name i, longer seen name < fuel →
    suffixLoop seen fuel name i ∉ seen ∧ ∀ more, fuel ≤ more → suffixLoop seen more name i = suffixLoop seen fuel name i
  | 0, _, _, short => absurd short (Nat.not_lt_zero _)
  | fuel + 1, name, i, short => by
    by_cases mem : name ∈ seen
    · have falls := longer_append_lt mem (toString_ne_nil i)
      obtain ⟨fresh, stable⟩ := suffixLoop_fresh seen fuel (name ++ (toString i).toList) (i + 1) (by omega)
      refine ⟨by simpa [suffixLoop, mem] using fresh, fun more enough => ?_⟩
      obtain ⟨more, rfl⟩ : ∃ m, more = m + 1 := ⟨more - 1, by omega⟩
      simp only [suffixLoop, if_pos mem]
      exact stable more (by omega)
    · refine ⟨by simp [suffixLoop, mem], fun more enough => ?_⟩
      obtain ⟨more, rfl⟩ : ∃ m, more = m + 1 := ⟨more - 1, by omega⟩
      simp [suffixLoop, mem]

/-- The loop of `parseCronbatEntries`, given one more turn than there are seen names, returns a new
name, and so would with any more turns: the loop itself stops within that many. -/
theorem suffixLoop_exits (seen : List (List Char)) (name : List Char) (i fuel : Nat) (enough : seen.length < fuel) :
    suffixLoop seen fuel name i ∉ seen ∧ suffixLoop seen fuel name i = suffixLoop seen (seen.length + 1) name i := by
  have short : longer seen name < seen.length + 1 := Nat.lt_succ_of_le (List.length_filter_le _ _)
  obtain ⟨fresh, stable⟩ := suffixLoop_fresh seen (seen.length + 1) name i short
  exact ⟨stable fuel enough ▸ fresh, stable fuel enough⟩

/-! ## Distinct names -/

/-- The lines `parseCronbatEntries` takes an entry from: after `strings.TrimSpace` not empty, not a
`#` comment and holding the tag, with at least six fields once the first tag is removed. -/
def Tagged (line : List Char) : Prop :=
  trimSpace line ≠ [] ∧ (trimSpace line).head? ≠ some '#' ∧ contains (trimSpace line) cronbatTag = true ∧
    6 ≤ (fields (trimSpace (removeFirst cronbatTag (trimSpace line)))).length

theorem lineFields_isSome (line : List Char) : (lineFields line).isSome ↔ Tagged line := by
  simp only [lineFields, Tagged]
  split_ifs with blank
  · simp only [Option.isSome_none, Bool.false_eq_true, false_iff]
    tauto
  all_goals simp_all

/-- The `--name` of a tagged line that `parseWrapCommand` accepts. -/
def wrapName (line : List Char) : Option (List Char) :=
  (lineFields line).bind fun fs => (parseWrapCommand fs.2).map Prod.snd

/-- What one turn of the loop does: it keeps the state, for a line that is not tagged or a wrap
line whose name is taken, or else it appends one entry with a new name and records that name. -/
theorem importLine_cases (pfx : List Char) (st : Import) (line : List Char) :
    (importLine pfx st line = st ∧ (¬ Tagged line ∨ ∃ name, wrapName line = some name ∧ name ∈ st.seen)) ∨
      ∃ entry, importLine pfx st line = ⟨st.entries ++ [entry], entry.name :: st.seen⟩ ∧ entry.name ∉ st.seen ∧
        Tagged line ∧ ∀ name, wrapName line = some name → name ∉ st.seen := by
  rw [← lineFields_isSome]
  unfold importLine wrapName
  generalize lineFields line = fs
  rcases fs with _ | ⟨schedule, command⟩
  · exact .inl ⟨rfl, .inl (by simp)⟩
  · simp only [Option.isSome_some, Option.some_bind, not_true_eq_false, false_or, true_and]
    generalize parseWrapCommand command = parsed
    rcases parsed with _ | ⟨wrapCmd, name⟩
    · refine .inr ⟨⟨_, schedule, command⟩, rfl, ?_, by simp⟩
      dsimp only
      split_ifs with taken
      · exact (suffixLoop_exits _ _ _ _ (Nat.lt_succ_self _)).1
      · exact taken
    · by_cases taken : name ∈ st.seen
      · exact .inl ⟨by simp [taken], ⟨name, rfl, taken⟩⟩
      · exact .inr ⟨⟨name, schedule, wrapCmd⟩, by simp [taken], taken,
          fun other same => Option.some.inj same ▸ taken⟩

/-- What the loop keeps: `seen` holds the entries' names, latest first, and no two are the same. -/
structure Imported (st : Import) : Prop where
  seen_names : st.seen = (st.entries.map (·.name)).reverse
  distinct : (st.entries.map (·.name)).Nodup

theorem Imported.importLine {st : Import} (inv : Imported st) (pfx line : List Char) :
    Imported (importLine pfx st line) := by
  rcases importLine_cases pfx st line with ⟨same, -⟩ | ⟨entry, next, fresh, -, -⟩
  · rwa [same]
  · have fresh' : entry.name ∉ st.entries.map (·.name) := by simpa [inv.seen_names] using fresh
    rw [next]
    exact ⟨by simp [inv.seen_names], by simpa [List.nodup_append, fresh'] using inv.distinct⟩

theorem imported_empty : Imported ⟨[], []⟩ := ⟨rfl, List.nodup_nil⟩

theorem imported_foldl (pfx : List Char) (lines : List (List Char)) :
    ∀ st, Imported st → Imported (lines.foldl (importLine pfx) st) := by
  induction lines with
  | nil => exact fun _ inv => inv
  | cons line rest ih => exact fun st inv => ih _ (inv.importLine pfx line)

/-- `parseCronbatEntries` stops on every crontab, its suffix loop included: that loop, given one
more turn than there are seen names, returns a name not yet seen, and more turns would change
nothing. The entries it returns have distinct names, and a line added at the end adds one entry
exactly when it is tagged and is not a wrap line whose name an earlier entry has, and none
otherwise. -/
theorem parseCronbatEntries_distinct :
    (∀ (seen : List (List Char)) name i fuel, seen.length < fuel →
      suffixLoop seen fuel name i ∉ seen ∧ suffixLoop seen fuel name i = suffixLoop seen (seen.length + 1) name i) ∧
    (∀ crontab pfx, ((parseCronbatEntries crontab pfx).map (·.name)).Nodup) ∧
    ∀ crontab pfx line, '\n' ∉ line → ∃ added : List ImportedJob,
      parseCronbatEntries (crontab ++ '\n' :: line) pfx = parseCronbatEntries crontab pfx ++ added ∧ added.length ≤ 1 ∧
        (added = [] ↔ ¬ Tagged line ∨ ∃ name, wrapName line = some name ∧ name ∈ (parseCronbatEntries crontab pfx).map (·.name)) := by
  refine ⟨suffixLoop_exits, fun crontab pfx => (imported_foldl pfx _ _ imported_empty).distinct,
    fun crontab pfx line single => ?_⟩
  have inv := imported_foldl pfx (splitChar '\n' crontab) _ imported_empty
  rw [parseCronbatEntries, parseCronbatEntries, Cron.splitChar_append, Cron.splitChar_of_not_mem single, List.foldl_append, List.foldl_cons,
    List.foldl_nil]
  generalize (splitChar '\n' crontab).foldl (importLine pfx) ⟨[], []⟩ = st at inv ⊢
  have names : ∀ name, name ∈ st.entries.map (·.name) ↔ name ∈ st.seen := by simp [inv.seen_names]
  rcases importLine_cases pfx st line with ⟨same, skipped⟩ | ⟨entry, next, -, tagged, free⟩
  · exact ⟨[], by simp [same], by simp, by simpa [names] using skipped⟩
  · refine ⟨[entry], by rw [next], by simp, ?_⟩
    simp only [names]
    simp only [List.cons_ne_nil, false_iff, not_or, not_not, not_exists, not_and]
    exact ⟨tagged, free⟩

/-- One crontab line and one more after it: the loop part at the name `cron-backup` already seen,
and the line part at a second tagged line. -/
theorem parseCronbatEntries_distinct_backup :
    let seen := ["cron-backup".toList]
    let crontab := "0 1 * * * /opt/backup.sh  #cronbat".toList
    let line := "0 2 * * * /opt/backup.sh  #cronbat".toList
    (seen.length < 2 ∧ suffixLoop seen 2 "cron-backup".toList 2 ∉ seen) ∧ '\n' ∉ line ∧
      ∃ added, parseCronbatEntries (crontab ++ '\n' :: line) "cron-".toList =
        parseCronbatEntries crontab "cron-".toList ++ added ∧ added.length ≤ 1 :=
  ⟨⟨by decide, (parseCronbatEntries_distinct.1 _ _ _ _ (by decide)).1⟩, by decide,
    let ⟨added, more, one, _⟩ := parseCronbatEntries_distinct.2.2 _ _ _ (by decide); ⟨added, more, one⟩⟩

example : parseCronbatEntries "0 1 * * * /opt/backup.sh  #cronbat\n0 2 * * * /opt/backup.sh  #cronbat".toList "cron-".toList =
    [⟨"cron-backup".toList, "0 1 * * *".toList, "/opt/backup.sh".toList⟩,
      ⟨"cron-backup2".toList, "0 2 * * *".toList, "/opt/backup.sh".toList⟩] := by
  decide

/-! ## Installing, then importing -/

/-- Importing what `cron-sync install` wrote does not give the jobs back. For a job with the
descriptor schedule `@daily`, which `ParseSchedule` accepts, the import takes the first five
fields of the line as the schedule, so the command left is `--config … -- backup.sh`; that is no
wrap command, and the entry is named after `--config`. For a job whose command holds two
spaces in a row, the fields are joined back with one. -/
theorem import_loses_installed_jobs :
    let daily : Config.Job := ⟨"backup", "@daily", "backup.sh", "", "", "", [], none, [], [], none, [], ""⟩
    let spaced : Config.Job := ⟨"greet", "0 2 * * *", "echo  hi", "", "", "", [], none, [], [], none, [], ""⟩
    let block := installBlock "/usr/local/bin/cronbat".toList "/etc/cronbat.yaml".toList [daily, spaced]
    (Scheduler.parseSchedule daily.schedule).toBool = true ∧ (Scheduler.parseSchedule spaced.schedule).toBool = true ∧
      parseCronbatEntries (mergeCrontab [] block) "cron-".toList =
        [⟨"cron---config".toList, "@daily /usr/local/bin/cronbat wrap --name backup".toList,
            "--config /etc/cronbat.yaml -- backup.sh".toList⟩,
          ⟨"greet".toList, "0 2 * * *".toList, "echo hi".toList⟩] := by
  decide

end Cronbat.CronImport
