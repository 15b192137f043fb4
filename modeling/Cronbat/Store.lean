import Cronbat.Time

/-! The SQLite run store of `internal/store`: the `runs` table as the rows `RecordRun` writes,
the upsert with its write-once columns, the read path through `parseTime` and `scanRun`, and
the two queries that order by the `started_at` text (`ListRuns`, `GetJobStats`). Times are
stored as `time.RFC3339Nano` text, so the order of runs the queries see is the text order of
that layout, not the order of the instants. -/
namespace Cronbat.Store
open Cronbat

/-- `store.Run`. -/
structure Run where
  id : String
  jobName : String
  status : String
  exitCode : Int
  startedAt : Time
  finishedAt : Option Time
  durationMs : Int
  stdoutTail : String
  stderrTail : String
  errorMsg : String
  trigger : String
  llmAnalysis : String
  llmTokensUsed : Int
  createdAt : Time
  deriving DecidableEq, Repr

/-- One row of `runs`; a nullable column is an `Option`. -/
structure Row where
  id : String
  jobName : String
  status : String
  exitCode : Option Int
  startedAt : String
  finishedAt : Option String
  durationMs : Option Int
  stdoutTail : Option String
  stderrTail : Option String
  errorMsg : Option String
  triggerType : String
  llmAnalysis : Option String
  llmTokensUsed : Option Int
  createdAt : String
  deriving DecidableEq, Repr

/-- The table in rowid order. -/
abbrev Table := List Row

/-- `formatTime`. -/
def formatTime (t : Time) : String := t.formatRFC3339Nano

/-- `formatTimePtr`. -/
def formatTimePtr : Option Time → Option String
  | none => none
  | some t => some t.formatRFC3339Nano

/-- `nullString`: the empty string is stored as NULL. -/
def nullString (s : String) : Option String := if s = "" then none else some s

/-- `nullInt64`: zero is stored as NULL. -/
def nullInt64 (v : Int) : Option Int := if v = 0 then none else some v

/-- The row the `INSERT` half of `RecordRun` writes. -/
def insertRow (run : Run) : Row where
  id := run.id
  jobName := run.jobName
  status := run.status
  exitCode := some run.exitCode
  startedAt := formatTime run.startedAt
  finishedAt := formatTimePtr run.finishedAt
  durationMs := some run.durationMs
  stdoutTail := nullString run.stdoutTail
  stderrTail := nullString run.stderrTail
  errorMsg := nullString run.errorMsg
  triggerType := run.trigger
  llmAnalysis := nullString run.llmAnalysis
  llmTokensUsed := nullInt64 run.llmTokensUsed
  createdAt := formatTime run.createdAt

/-- `ON CONFLICT(id) DO UPDATE SET`: only the finalisation columns take the new values. -/
def conflictUpdate (old new : Row) : Row :=
  { old with
    status := new.status, exitCode := new.exitCode, finishedAt := new.finishedAt
    durationMs := new.durationMs, stdoutTail := new.stdoutTail, stderrTail := new.stderrTail
    errorMsg := new.errorMsg, llmAnalysis := new.llmAnalysis, llmTokensUsed := new.llmTokensUsed }

/-- The upsert statement on the table. -/
def upsert (row : Row) (table : Table) : Table :=
  if table.any (·.id == row.id) then table.map fun old => if old.id = row.id then conflictUpdate old row else old
  else table ++ [row]

/-- The columns the upsert never rewrites agree. -/
def SameOrigin (old new : Row) : Prop :=
  new.id = old.id ∧ new.jobName = old.jobName ∧ new.startedAt = old.startedAt ∧
    new.triggerType = old.triggerType ∧ new.createdAt = old.createdAt

section Upsert
variable {row row' old : Row} {table : Table}

/-- A row after the upsert is a row with another id, the row inserted, or an old row with the
same id updated. -/
theorem mem_upsert (mem : row' ∈ upsert row table) :
    (row' ∈ table ∧ row'.id ≠ row.id) ∨
      row'.id = row.id ∧ (row' = row ∨ ∃ old ∈ table, row' = conflictUpdate old row) := by
  unfold upsert at mem
  split at mem
  · obtain ⟨old, held, rfl⟩ := List.mem_map.mp mem
    split
    · exact .inr ⟨by assumption, .inr ⟨old, held, rfl⟩⟩
    · exact .inl ⟨held, by assumption⟩
  · rename_i absent
    rcases List.mem_append.mp mem with held | single
    · exact .inl ⟨held, fun same => absent (List.any_eq_true.mpr ⟨row', held, by simp [same]⟩)⟩
    · obtain rfl := List.mem_singleton.mp single
      exact .inr ⟨rfl, .inl rfl⟩

/-- Every row survives the upsert with its write-once columns, and unchanged under another id. -/
theorem upsert_keeps (held : old ∈ table) :
    ∃ row' ∈ upsert row table, SameOrigin old row' ∧ (old.id ≠ row.id → row' = old) := by
  unfold upsert
  split
  · refine ⟨if old.id = row.id then conflictUpdate old row else old, List.mem_map_of_mem _ held, ?_,
      fun other => if_neg other⟩
    split <;> exact ⟨rfl, rfl, rfl, rfl, rfl⟩
  · exact ⟨old, List.mem_append_left _ held, ⟨rfl, rfl, rfl, rfl, rfl⟩, fun _ => rfl⟩

/-- A row under an id no row has is appended. -/
theorem upsert_fresh (fresh : ∀ old ∈ table, old.id ≠ row.id) : upsert row table = table ++ [row] := by
  have absent : table.any (·.id == row.id) = false := by simpa using fresh
  rw [upsert, absent]
  rfl

/-- A row under the id of the last row, which no other row has, updates that row only. -/
theorem upsert_last (fresh : ∀ old ∈ table, old.id ≠ row.id) (same : row'.id = row.id) :
    upsert row' (table ++ [row]) = table ++ [conflictUpdate row row'] := by
  have present : (table ++ [row]).any (·.id == row'.id) = true := by simp [same]
  rw [upsert, if_pos present, List.map_append, List.map_singleton, if_pos same.symm]
  congr 1
  exact (List.map_congr_left fun old held => if_neg (same ▸ fresh old held)).trans (List.map_id' _)

end Upsert

/-- `RecordRun`: fills a missing id (`NewRunID`, here `freshId`) and a zero `CreatedAt` (with
`now`), then runs the upsert. `fails` is a failing `ExecContext`, which writes nothing. The
run is returned as the pointer holds it afterwards. -/
def recordRun (now : Time) (freshId : String) (fails : Bool) (run : Run) (table : Table) :
    Run × Bool × Table :=
  let run := if run.id = "" then { run with id := freshId } else run
  let run := if run.createdAt.isZero then { run with createdAt := now } else run
  if fails then (run, false, table) else (run, true, upsert (insertRow run) table)

/-- `RecordRun` of a run that has its id: only `CreatedAt` may be filled in, and the table
is upserted with the run's row unless the write fails. -/
theorem recordRun_named (now : Time) (freshId : String) (fails : Bool) (table : Table) {run : Run}
    (named : run.id ≠ "") :
    (recordRun now freshId fails run table).1 =
        { run with createdAt := if run.createdAt.isZero then now else run.createdAt } ∧
      (recordRun now freshId fails run table).2.2 =
        if fails then table else upsert (insertRow (recordRun now freshId fails run table).1) table := by
  unfold recordRun
  simp only [named, if_false]
  split_ifs <;> simp_all

/-! ## Reading rows back -/

/-- The digits of a fixed-width field, or `none` on a non-digit (`parseUint`'s scan). -/
def digitsValue (s : List Char) : Option Nat :=
  s.foldl (fun acc c => acc.bind fun x => if c.isDigit then some (x * 10 + (c.toNat - '0'.toNat)) else none)
    (some 0)

/-- `daysIn(month, year)`. -/
def daysIn (month year : Nat) : Nat :=
  if month = 2 then (if year % 4 = 0 ∧ (year % 100 ≠ 0 ∨ year % 400 = 0) then 29 else 28)
  else if month = 4 ∨ month = 6 ∨ month = 9 ∨ month = 11 then 30 else 31

/-- `parseNanoseconds` on the digits after the period: at most nine are read, then scaled. -/
def fracNanos (digits : List Char) : Nat :=
  let kept := digits.take 9
  (digitsValue kept).getD 0 * 10 ^ (9 - kept.length)

/-- `time.Parse(time.RFC3339Nano, s)` through Go's `parseRFC3339` fast path, for text in UTC
(`Z`) as `formatTime` writes it. On this ASCII text characters are bytes. A numeric zone
offset, which `formatTime` never writes, is reported as a parse failure. -/
def parseTime (s : String) : Option Time :=
  let cs := s.toList
  let field (i n lo hi : Nat) : Option Nat :=
    (digitsValue ((cs.drop i).take n)).bind fun x => if lo ≤ x ∧ x ≤ hi then some x else none
  if cs.length < 19 then none else
  match field 0 4 0 9999, field 5 2 1 12, field 11 2 0 23, field 14 2 0 59, field 17 2 0 59 with
  | some year, some month, some hour, some min, some sec =>
    match field 8 2 1 (daysIn month year) with
    | none => none
    | some day =>
      if cs[4]? = some '-' ∧ cs[7]? = some '-' ∧ cs[10]? = some 'T' ∧ cs[13]? = some ':' ∧
          cs[16]? = some ':' then
        let rest := cs.drop 19
        let (nsec, rest) := match rest with
          | '.' :: d :: more =>
            if d.isDigit then
              let ds := (d :: more).takeWhile Char.isDigit
              (fracNanos ds, (d :: more).drop ds.length)
            else (0, rest)
          | _ => (0, rest)
        if rest = ['Z'] then some (Time.date year month day hour min sec nsec) else none
      else none
  | _, _, _, _, _ => none

/-- `scanRun`: the row's columns back into a `Run`; NULL reads as the zero value. -/
def scanRun (row : Row) : Option Run := do
  let startedAt ← parseTime row.startedAt
  let createdAt ← parseTime row.createdAt
  let finishedAt ← match row.finishedAt with
    | none => some none
    | some s => (parseTime s).map some
  pure
    { id := row.id, jobName := row.jobName, status := row.status
      exitCode := row.exitCode.getD 0, startedAt, finishedAt
      durationMs := row.durationMs.getD 0, stdoutTail := row.stdoutTail.getD ""
      stderrTail := row.stderrTail.getD "", errorMsg := row.errorMsg.getD ""
      trigger := row.triggerType, llmAnalysis := row.llmAnalysis.getD ""
      llmTokensUsed := row.llmTokensUsed.getD 0, createdAt }

/-- `GetRun`: `none` for a missing id (`sql.ErrNoRows`), an error for an unreadable row. -/
def getRun (table : Table) (id : String) : Except String (Option Run) :=
  match table.find? (·.id = id) with
  | none => .ok none
  | some row => match scanRun row with
    | some run => .ok (some run)
    | none => .error "parse"

/-! ## Queries ordered by `started_at` -/

/-- SQLite's BINARY collation: `memcmp` of the UTF-8 bytes, a proper prefix first. UTF-8
keeps code point order, so this is code point order on the characters. -/
def binaryLt : List Char → List Char → Bool
  | [], [] => false
  | [], _ :: _ => true
  | _ :: _, [] => false
  | a :: as, b :: bs => if a.val < b.val then true else if a = b then binaryLt as bs else false

/-- `store.ListOpts`. -/
structure ListOpts where
  jobName : String
  limit : Int
  offset : Int

/-- `ORDER BY started_at DESC`. SQLite leaves the order of equal keys open; the model keeps
them in rowid order. -/
def orderByStartedAtDesc (rows : List Row) : List Row :=
  rows.insertionSort fun a b => binaryLt a.startedAt.toList b.startedAt.toList = false

/-- `ListRuns`. The query gets `LIMIT ?` when `Limit > 0` and `OFFSET ?` when `Offset > 0`;
SQLite accepts `OFFSET` only after a `LIMIT`, so an offset without a limit is a syntax error.
`LIMIT n OFFSET m` skips `m` rows and then keeps `n`. -/
def listRuns (table : Table) (opts : ListOpts) : Except String (List Run) :=
  if opts.limit ≤ 0 ∧ 0 < opts.offset then .error "near \"OFFSET\": syntax error" else
  let rows := if opts.jobName ≠ "" then table.filter (·.jobName = opts.jobName) else table
  let rows := orderByStartedAtDesc rows
  let rows := if 0 < opts.offset then rows.drop opts.offset.toNat else rows
  let rows := if 0 < opts.limit then rows.take opts.limit.toNat else rows
  match rows.mapM scanRun with
  | some runs => .ok runs
  | none => .error "parse"

section Window
variable {α β : Type} {f : α → Option β}

theorem mapM'_cons_some {a : α} {l : List α} {r : List β} (read : (a :: l).mapM' f = some r) :
    ∃ b bs, f a = some b ∧ l.mapM' f = some bs ∧ r = b :: bs := by
  cases fa : f a with
  | none => simp [fa] at read
  | some b =>
    cases fl : l.mapM' f with
    | none => simp [fa, fl] at read
    | some bs => exact ⟨b, bs, rfl, rfl, by simpa [fa, fl] using read.symm⟩

theorem mapM_drop {l : List α} {r : List β} (read : l.mapM f = some r) (n : Nat) :
    (l.drop n).mapM f = some (r.drop n) := by
  rw [← List.mapM'_eq_mapM] at read ⊢
  induction l generalizing r n with
  | nil => simp only [List.mapM'_nil, Option.pure_def, Option.some.injEq] at read; simp [← read]
  | cons a l ih =>
    obtain ⟨b, bs, fa, fl, rfl⟩ := mapM'_cons_some read
    cases n with
    | zero => simpa using read
    | succ n => exact ih fl n

theorem mapM_take {l : List α} {r : List β} (read : l.mapM f = some r) (n : Nat) :
    (l.take n).mapM f = some (r.take n) := by
  rw [← List.mapM'_eq_mapM] at read ⊢
  induction l generalizing r n with
  | nil => simp only [List.mapM'_nil, Option.pure_def, Option.some.injEq] at read; simp [← read]
  | cons a l ih =>
    obtain ⟨b, bs, fa, fl, rfl⟩ := mapM'_cons_some read
    cases n with
    | zero => simp
    | succ n => simp [fa, ih fl n]
end Window

/-- `store.JobStats`; SQLite's floating-point `AVG` is taken exactly. -/
structure JobStats where
  totalRuns : Nat
  successes : Nat
  failures : Nat
  lastRun : Option Time
  avgDurationMs : ℚ
  deriving DecidableEq, Repr

/-- `MAX(started_at)` under the BINARY collation. -/
def maxText : List String → Option String
  | [] => none
  | s :: rest => match maxText rest with
    | none => some s
    | some m => if binaryLt s.toList m.toList then some m else some s

/-- `GetJobStats`: counts, `MAX(started_at)` read back with `parseTime`, and the average of the
non-NULL durations. -/
def getJobStats (table : Table) (jobName : String) : Except String JobStats :=
  let rows := table.filter (·.jobName = jobName)
  let durations := rows.filterMap (·.durationMs)
  let stats : JobStats :=
    { totalRuns := rows.length
      successes := (rows.filter (·.status = "success")).length
      failures := (rows.filter (·.status = "failure")).length
      lastRun := none
      avgDurationMs := if durations = [] then 0 else (durations.sum : ℚ) / durations.length }
  match maxText (rows.map (·.startedAt)) with
  | none => .ok stats
  | some last => match parseTime last with
    | some t => .ok { stats with lastRun := some t }
    | none => .error "parse last_run"

/-- Two runs of one job started 0.1 s and 0.12 s into the same second. `RFC3339Nano` drops
trailing zeros, so the later start is the smaller text (`…:00.12Z` before `…:00.1Z`):
`ListRuns` returns the earlier run first, and `GetJobStats` reports it as the last run. -/
theorem listRuns_orders_by_text_not_time :
    let early : Time := ⟨1704067200 * Time.second + 100000000⟩
    let late : Time := ⟨1704067200 * Time.second + 120000000⟩
    let run (id : String) (t : Time) : Run :=
      { id, jobName := "j", status := "success", exitCode := 0, startedAt := t, finishedAt := some t,
        durationMs := 0, stdoutTail := "", stderrTail := "", errorMsg := "", trigger := "schedule",
        llmAnalysis := "", llmTokensUsed := 0, createdAt := t }
    let table := (recordRun late "" false (run "b" late) (recordRun early "" false (run "a" early) []).2.2).2.2
    early < late ∧ binaryLt (formatTime late).toList (formatTime early).toList = true ∧
      (listRuns table ⟨"j", 0, 0⟩).toOption.map (·.map (·.startedAt)) = some [early, late] ∧
      (getJobStats table "j").toOption.bind (·.lastRun) = some early := by
  decide

end Cronbat.Store
