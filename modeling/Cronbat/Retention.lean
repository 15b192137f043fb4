import Cronbat.Time

/-! `runlog.Manager.Cleanup`, the retention pass over the log tree. `filepath.WalkDir` presents
the tree as a sequence of callback calls in lexical order; the callback removes each log file
older than the cutoff at once and collects the others, and if their total size passes
`maxTotalBytes` the pass removes them oldest first until it no longer does. `sort.Slice` is not
stable, so the order of files with equal modification times is left open: the model takes the
sort's result as an argument, and the theorems assume only what `sort.Slice` promises. -/
namespace Cronbat.Retention
open Cronbat

/-- An error met by the walk, with whether `errors.Is(err, os.ErrNotExist)` holds of it. -/
structure WalkError where
  msg : String
  notExist : Bool
  deriving DecidableEq, Repr

/-- One call of the `WalkDir` callback: a directory, a file with what `d.Info()` returns for it
(its size and modification time), or a `walkErr`. -/
inductive Visit where
  | dir (path : String)
  | file (path : String) (info : Except WalkError (Nat × Time))
  | failed (err : WalkError)

/-- The callback's `fileInfo`. -/
structure FileInfo where
  path : String
  size : Nat
  modTime : Time
  deriving DecidableEq, Repr

/-- The retention settings of `runlog.Manager` that `Cleanup` reads. -/
structure Manager where
  retentionDays : Int
  maxTotalBytes : Int
  deriving DecidableEq, Repr

/-- What `os.Remove` returns: nil, an `os.ErrNotExist` error, or another error. -/
inductive RemoveResult where
  | ok
  | notExist
  | failed
  deriving DecidableEq, Repr

/-- `stdoutSuffix`. -/
def stdoutSuffix : String := ".stdout.log"

/-- `stderrSuffix`. -/
def stderrSuffix : String := ".stderr.log"

/-- What the callback does with one call: returns nil, removes the path and returns nil,
collects the file, or returns an error, which stops the walk. -/
inductive Action where
  | skip
  | remove (path : String)
  | collect (file : FileInfo)
  | stop (err : WalkError)

/-- The callback `Cleanup` passes to `WalkDir`, for files older than `cutoff`. -/
def callback (cutoff : Time) : Visit → Action
  | .failed err => .stop err
  | .dir _ => .skip
  | .file path info =>
    if !path.endsWith stdoutSuffix && !path.endsWith stderrSuffix then .skip
    else match info with
      | .error err => .stop err
      | .ok (size, modTime) => if modTime.before cutoff then .remove path else .collect ⟨path, size, modTime⟩

/-- `WalkDir` with that callback, over the walk's calls in order: the paths removed, the files
collected, and the error that stopped the walk. -/
def walk (cutoff : Time) : List Visit → List String × List FileInfo × Option WalkError
  | [] => ([], [], none)
  | v :: visits =>
    match callback cutoff v with
    | .skip => walk cutoff visits
    | .remove path => (path :: (walk cutoff visits).1, (walk cutoff visits).2)
    | .collect file => ((walk cutoff visits).1, file :: (walk cutoff visits).2.1, (walk cutoff visits).2.2)
    | .stop err => ([], [], some err)

/-- The loop over the sorted files: it stops once `total <= maxTotalBytes`, and a removal that
fails other than with `os.ErrNotExist` leaves `total` as it was. The paths passed to `os.Remove`. -/
def trim (maxTotalBytes : Int) (remove : String → RemoveResult) : Int → List FileInfo → List String
  | _, [] => []
  | total, f :: files =>
    if total ≤ maxTotalBytes then []
    else match remove f.path with
      | .failed => f.path :: trim maxTotalBytes remove total files
      | _ => f.path :: trim maxTotalBytes remove (total - f.size) files

/-- The loop that sums `total` over the collected files. -/
def totalSize (files : List FileInfo) : Nat := (files.map (·.size)).sum

/-- `Manager.Cleanup` at clock reading `now`, with `remove` the outcome of each `os.Remove` and
`sortSlice` the result of `sort.Slice` by modification time: the paths passed to `os.Remove`, in
order, and the error returned. -/
def cleanup (m : Manager) (now : Time) (visits : List Visit) (remove : String → RemoveResult)
    (sortSlice : List FileInfo → List FileInfo) : List String × Option String :=
  let cutoff := now.addDate 0 0 (-m.retentionDays)
  let (old, files, err) := walk cutoff visits
  match err with
  | some err => (old, if err.notExist then none else some err.msg)
  | none =>
    if m.maxTotalBytes ≤ 0 then (old, none)
    else
      let total : Int := totalSize files
      if total ≤ m.maxTotalBytes then (old, none)
      else (old ++ trim m.maxTotalBytes remove total (sortSlice files), none)

/-! ## What the pass removes -/

/-- A call of the walk that reads without error. -/
def Visit.readable : Visit → Bool
  | .dir _ => true
  | .file _ (.ok _) => true
  | .file _ (.error _) => false
  | .failed _ => false

/-- Whether a path names a log file: it ends in `.stdout.log` or `.stderr.log`. -/
def isLog (path : String) : Bool := path.endsWith stdoutSuffix || path.endsWith stderrSuffix

/-- The log files of the tree, in walk order. -/
def logFiles (visits : List Visit) : List FileInfo :=
  visits.filterMap fun
    | .file path (.ok (size, modTime)) => if isLog path then some ⟨path, size, modTime⟩ else none
    | _ => none

theorem totalSize_perm {files files' : List FileInfo} (perm : files.Perm files') :
    totalSize files = totalSize files' :=
  (perm.map _).sum_eq

/-- Over a readable tree the walk removes exactly the log files older than the cutoff, collects
the other log files, and meets no error. -/
theorem walk_readable (cutoff : Time) {visits : List Visit} (readable : ∀ v ∈ visits, v.readable = true) :
    walk cutoff visits = (((logFiles visits).filter (·.modTime < cutoff)).map (·.path),
      (logFiles visits).filter (fun f => ¬ f.modTime < cutoff), none) := by
  induction visits with
  | nil => rfl
  | cons v visits ih =>
    have ih := ih fun v held => readable v (.tail _ held)
    have readable := readable v (.head _)
    cases v with
    | dir path => simpa [walk, callback, logFiles] using ih
    | failed err => exact absurd readable Bool.false_ne_true
    | file path info =>
      cases info with
      | error err => exact absurd readable Bool.false_ne_true
      | ok info =>
        obtain ⟨size, modTime⟩ := info
        have cond : (!path.endsWith stdoutSuffix && !path.endsWith stderrSuffix) = !isLog path :=
          (Bool.not_or _ _).symm
        by_cases log : isLog path
        · by_cases old : modTime.unixNano < cutoff.unixNano
          · simp [walk, callback, cond, log, ih, logFiles, old]
          · simp [walk, callback, cond, log, ih, logFiles, List.filter_cons, old, Int.not_lt.mp old]
        · simpa [walk, callback, cond, log, logFiles] using ih

/-- When every removal succeeds, the loop over files whose total size is `total` removes the
shortest prefix whose removal brings the rest to at most `maxTotalBytes`. -/
theorem trim_shortest_initial {maxTotalBytes : Int} (nonneg : 0 ≤ maxTotalBytes) (files : List FileInfo) :
    ∃ k, trim maxTotalBytes (fun _ => .ok) (totalSize files) files = (files.take k).map (·.path) ∧
      (totalSize (files.drop k) : Int) ≤ maxTotalBytes ∧
      ∀ j < k, maxTotalBytes < totalSize (files.drop j) := by
  induction files with
  | nil => exact ⟨0, rfl, by simpa [totalSize] using nonneg, fun _ => by omega⟩
  | cons f files ih =>
    by_cases within : (totalSize (f :: files) : Int) ≤ maxTotalBytes
    · exact ⟨0, by simp [trim, within], by simpa using within, fun _ => by omega⟩
    · obtain ⟨k, removed, rest, shortest⟩ := ih
      have total : (totalSize (f :: files) : Int) - f.size = totalSize files := by
        simp [totalSize]
      refine ⟨k + 1, ?_, by simpa using rest, fun j lt => ?_⟩
      · simp only [trim, if_neg within, total, removed, List.take_succ_cons, List.map_cons]
      · cases j with
        | zero => simpa using Int.lt_of_not_ge within
        | succ j => simpa using shortest j (by omega)

/-- `Cleanup` over a readable log tree, with every removal succeeding and `sort.Slice` ordering
the collected files by ascending modification time (in some order among equal times): it removes
the log files older than `now` less `retentionDays` days, then, if `maxTotalBytes > 0`, the
shortest prefix of that ordering of the remaining log files whose removal brings their total to
at most `maxTotalBytes`. It passes no other path to `os.Remove` and returns nil. -/
theorem cleanup_removes_expired_then_oldest (m : Manager) (now : Time) (visits : List Visit)
    (sortSlice : List FileInfo → List FileInfo) (readable : ∀ v ∈ visits, v.readable = true)
    (sorts : ∀ files, (sortSlice files).Perm files ∧ (sortSlice files).Pairwise (·.modTime ≤ ·.modTime)) :
    ∃ (order : List FileInfo) (k : Nat),
      order.Perm ((logFiles visits).filter fun f => ¬ f.modTime < now.addDate 0 0 (-m.retentionDays)) ∧
      order.Pairwise (·.modTime ≤ ·.modTime) ∧
      cleanup m now visits (fun _ => .ok) sortSlice =
        (((logFiles visits).filter (·.modTime < now.addDate 0 0 (-m.retentionDays))).map (·.path) ++
          (order.take k).map (·.path), none) ∧
      (m.maxTotalBytes ≤ 0 → k = 0) ∧
      (0 < m.maxTotalBytes → (totalSize (order.drop k) : Int) ≤ m.maxTotalBytes ∧
        ∀ j < k, m.maxTotalBytes < totalSize (order.drop j)) := by
  obtain ⟨perm, sorted⟩ := sorts ((logFiles visits).filter fun f => ¬ f.modTime < now.addDate 0 0 (-m.retentionDays))
  have total := totalSize_perm perm
  have noCap (paths : List String) (files : List FileInfo) : paths ++ (files.take 0).map (·.path) = paths := by
    rw [List.take_zero, List.map_nil, List.append_nil]
  unfold cleanup
  dsimp only
  rw [walk_readable _ readable]
  dsimp only
  by_cases off : m.maxTotalBytes ≤ 0
  · exact ⟨_, 0, perm, sorted, by rw [if_pos off, noCap], fun _ => rfl, fun positive => absurd off (by omega)⟩
  · by_cases within : (totalSize ((logFiles visits).filter fun f => ¬ f.modTime < now.addDate 0 0
        (-m.retentionDays)) : Int) ≤ m.maxTotalBytes
    · refine ⟨_, 0, perm, sorted, by rw [if_neg off, if_pos within, noCap], fun positive => absurd positive off,
        fun _ => ⟨?_, fun _ => by omega⟩⟩
      rwa [List.drop_zero, total]
    · obtain ⟨k, removed, rest, shortest⟩ := @trim_shortest_initial m.maxTotalBytes (by omega) (sortSlice
        ((logFiles visits).filter fun f => ¬ f.modTime < now.addDate 0 0 (-m.retentionDays)))
      refine ⟨_, k, perm, sorted, ?_, fun positive => absurd positive off, fun _ => ⟨rest, shortest⟩⟩
      rw [if_neg off, if_neg within, ← total, removed]

/-- A tree of a directory, a file that is not a log, an expired log and two fresh logs, cleaned
with a week's retention and a cap of 10 bytes: the expired log goes, then the older fresh one. -/
theorem cleanup_removes_expired_then_oldest_capped :
    let m : Manager := ⟨7, 10⟩
    let now : Time := ⟨1704067200 * Time.second⟩
    let visits : List Visit := [.dir "logs", .file "logs/a/r1.stdout.log" (.ok (8, ⟨0⟩)),
      .file "logs/a/notes.txt" (.ok (100, ⟨0⟩)), .file "logs/a/r2.stdout.log" (.ok (6, now)),
      .file "logs/a/r3.stderr.log" (.ok (6, now.add Time.second))]
    let sortSlice := fun files : List FileInfo => files.mergeSort fun a b => decide (a.modTime ≤ b.modTime)
    (∀ v ∈ visits, v.readable = true) ∧
      (∀ files, (sortSlice files).Perm files ∧ (sortSlice files).Pairwise (·.modTime ≤ ·.modTime)) ∧
      ∃ (order : List FileInfo) (k : Nat),
        order.Perm ((logFiles visits).filter fun f => ¬ f.modTime < now.addDate 0 0 (-m.retentionDays)) ∧
        order.Pairwise (·.modTime ≤ ·.modTime) ∧
        cleanup m now visits (fun _ => .ok) sortSlice =
          (((logFiles visits).filter (·.modTime < now.addDate 0 0 (-m.retentionDays))).map (·.path) ++
            (order.take k).map (·.path), none) ∧
        (m.maxTotalBytes ≤ 0 → k = 0) ∧
        (0 < m.maxTotalBytes → (totalSize (order.drop k) : Int) ≤ m.maxTotalBytes ∧
          ∀ j < k, m.maxTotalBytes < totalSize (order.drop j)) := by
  intro m now visits sortSlice
  have readable : ∀ v ∈ visits, v.readable = true := by decide
  have sorts (files : List FileInfo) :
      (sortSlice files).Perm files ∧ (sortSlice files).Pairwise (·.modTime ≤ ·.modTime) :=
    ⟨List.mergeSort_perm _ _, (List.sorted_mergeSort (fun a b c h₁ h₂ => by simp at *; omega)
      (fun a b => by simp; omega) files).imp of_decide_eq_true⟩
  exact ⟨readable, sorts, cleanup_removes_expired_then_oldest m now visits sortSlice readable sorts⟩

/-! ## The configured cap

`main` and `wrapDirect` both build the manager with `cfg.RunLogs.MaxTotalMB*1024*1024`, an
`int64` product that Go wraps to 64 bits. -/

/-- Go's `int64` multiplication: the product reduced to 64-bit two's complement. -/
def int64Mul (a b : Int) : Int := (a * b).bmod (2 ^ 64)

/-- `applyDefaults` on `run_logs.max_total_mb`: a non-positive value becomes 128. -/
def defaultMaxTotalMB (maxTotalMB : Int) : Int := if maxTotalMB ≤ 0 then 128 else maxTotalMB

/-- The `maxTotalBytes` argument of `runlog.NewManager`: `MaxTotalMB*1024*1024`. -/
def maxTotalBytes (maxTotalMB : Int) : Int := int64Mul (int64Mul maxTotalMB 1024) 1024

/-- Below `2^43` MiB the product does not wrap: the cap is the configured size in bytes. -/
theorem maxTotalBytes_exact {maxTotalMB : Int} (lo : -2 ^ 43 ≤ maxTotalMB) (hi : maxTotalMB < 2 ^ 43) :
    maxTotalBytes maxTotalMB = maxTotalMB * 1048576 := by
  simp only [maxTotalBytes, int64Mul, Int.bmod]
  split_ifs <;> omega

/-- Two sizes that `LoadConfig` admits and `applyDefaults` keeps, for which the product wraps:
`2^43` MiB becomes `-2^63` bytes, so every `Cleanup` skips its size phase as if no cap were
set, and `2^44 + 1` MiB becomes 1 MiB, a cap far below the configured size. -/
theorem maxTotalBytes_wraps :
    defaultMaxTotalMB (2 ^ 43) = 2 ^ 43 ∧ maxTotalBytes (defaultMaxTotalMB (2 ^ 43)) = -2 ^ 63 ∧
      (∀ days now visits remove sortSlice, cleanup ⟨days, maxTotalBytes (2 ^ 43)⟩ now visits remove sortSlice =
        cleanup ⟨days, 0⟩ now visits remove sortSlice) ∧
      defaultMaxTotalMB (2 ^ 44 + 1) = 2 ^ 44 + 1 ∧ maxTotalBytes (defaultMaxTotalMB (2 ^ 44 + 1)) = 1048576 ∧
      (1048576 : Int) < (2 ^ 44 + 1) * 1048576 := by
  have negative : maxTotalBytes (2 ^ 43) ≤ 0 := by decide
  refine ⟨by decide, by decide, fun days now visits remove sortSlice => ?_, by decide, by decide, by decide⟩
  simp only [cleanup, negative, le_refl, if_true]

end Cronbat.Retention
