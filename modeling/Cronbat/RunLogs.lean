import Cronbat.Api
import Cronbat.Output
import Cronbat.Cron

/-! # Run log files

`runlog.Manager` keeps a run's output in two files, `<runID>.stdout.log` and
`<runID>.stderr.log`, in a directory under `baseDir` named by `sanitizeSegment` after the job.
`OpenRunWriters` creates both before the run, and `ReadRunLogs` reads them back for
`handleGetRunLogs`.

Paths are text, and `filepath.Clean` works on their elements (`CleanPath`), the text between
separators; `clean_normal` says what every cleaned path looks like. A sanitised job name is a
plain element, neither `.` nor `..`, so `Paths` puts both files directly inside
`baseDir/sanitizeSegment(jobName)` (`paths_inside`). The file system holds the log files by
their cleaned path; directories are not tracked. How each call fares is the environment's
choice, given as the error it returns. `OpenRunWriters` changes only the two log files
(`openRunWriters_frame`) and `ReadRunLogs` reads only them (`readRunLogs_congr`); when the stderr
file cannot be created, the stdout file it has created stays behind (`openRunWriters_files`). -/

namespace Cronbat.RunLogs
open Cron (splitChar splitChar_append splitChar_of_not_mem not_mem_of_mem_splitChar)

/-! ## Job names as path elements -/

/-- The runes `sanitizeSegment` keeps: `[A-Za-z0-9._-]`. -/
def segmentRune (ch : Char) : Bool :=
  ('a' ≤ ch && ch ≤ 'z') || ('A' ≤ ch && ch ≤ 'Z') || ('0' ≤ ch && ch ≤ '9') || ch == '-' || ch == '_' || ch == '.'

/-- The cutset `"._"` of `strings.Trim`. -/
def edgeRune (ch : Char) : Bool := ch == '.' || ch == '_'

/-- `strings.Trim(s, "._")`. -/
def trimEdges (s : List Char) : List Char := (s.dropWhile edgeRune).rdropWhile edgeRune

/-- `sanitizeSegment`, over the runes `range` yields for the job name; each byte of invalid
UTF-8 comes out as one `utf8.RuneError`, a rune it replaces like any other outside the set. -/
def sanitizeSegment (value : List Char) : List Char :=
  if value = [] then "unknown".toList else
  let result := trimEdges (value.map fun ch => if segmentRune ch then ch else '_')
  if result = [] then "unknown".toList else result

/-- What `sanitizeSegment` returns: a non-empty element over the kept runes that neither starts
nor ends with `.` or `_`. -/
structure SafeSegment (s : List Char) : Prop where
  ne_nil : s ≠ []
  runes : ∀ c ∈ s, segmentRune c
  first : ∀ c, s.head? = some c → edgeRune c = false
  last : ∀ c, s.getLast? = some c → edgeRune c = false

theorem trimEdges_first (s : List Char) (c : Char) (first : (trimEdges s).head? = some c) : edgeRune c = false := by
  obtain ⟨rest, prefixed⟩ := List.rdropWhile_prefix edgeRune (s.dropWhile edgeRune)
  rw [trimEdges] at first
  have head := List.head?_dropWhile_not edgeRune s
  rw [← prefixed, List.head?_append, first] at head
  exact head

theorem trimEdges_last (s : List Char) (c : Char) (last : (trimEdges s).getLast? = some c) : edgeRune c = false := by
  have ne : trimEdges s ≠ [] := by rintro h; rw [h] at last; simp at last
  have kept := List.rdropWhile_last_not (p := edgeRune) (l := s.dropWhile edgeRune) ne
  rw [List.getLast?_eq_getLast _ ne] at last
  rw [← Option.some.inj last]
  simpa using kept

theorem unknown_safe : SafeSegment "unknown".toList :=
  ⟨by decide, by decide, by decide, by decide⟩

/-- `sanitizeSegment` replaces every rune outside `[A-Za-z0-9._-]` by `_` and trims `.` and `_`
from both ends, giving `unknown` when nothing is left; the test for an empty name changes
nothing. -/
theorem sanitizeSegment_eq (value : List Char) :
    sanitizeSegment value =
      let result := trimEdges (value.map fun ch => if segmentRune ch then ch else '_')
      if result = [] then "unknown".toList else result := by
  cases value <;> rfl

theorem sanitizeSegment_safe (value : List Char) : SafeSegment (sanitizeSegment value) := by
  rw [sanitizeSegment_eq]
  dsimp only
  split_ifs with empty
  · exact unknown_safe
  · refine ⟨empty, fun c mem => ?_, trimEdges_first _, trimEdges_last _⟩
    have mem := ((List.rdropWhile_prefix _ _).sublist.trans (List.dropWhile_sublist _)).subset mem
    obtain ⟨ch, -, rfl⟩ := List.mem_map.mp mem
    split_ifs with kept
    · exact kept
    · rfl

/-- A safe element is its own sanitised form, so `sanitizeSegment` is idempotent. -/
theorem sanitizeSegment_of_safe {s : List Char} (safe : SafeSegment s) : sanitizeSegment s = s := by
  have same : s.map (fun ch => if segmentRune ch then ch else '_') = s :=
    (List.map_congr_left (g := fun ch => ch) fun ch mem => by simp [safe.runes ch mem]).trans (List.map_id' s)
  have untrimmed : trimEdges s = s := by
    have front : s.dropWhile edgeRune = s := by
      obtain ⟨c, rest, rfl⟩ := List.exists_cons_of_ne_nil safe.ne_nil
      exact List.dropWhile_cons_of_neg (by simp [safe.first c rfl])
    rw [trimEdges, front, List.rdropWhile_eq_self_iff]
    intro ne
    simpa using safe.last _ (List.getLast?_eq_getLast _ ne)
  rw [sanitizeSegment_eq]
  simp [same, untrimmed, safe.ne_nil]

theorem sanitizeSegment_idem (value : List Char) : sanitizeSegment (sanitizeSegment value) = sanitizeSegment value :=
  sanitizeSegment_of_safe (sanitizeSegment_safe value)

/-! ## Paths -/

/-- A path as `filepath.Clean` leaves it: whether it is rooted, and its elements. -/
structure CleanPath where
  rooted : Bool
  elems : List (List Char)
  deriving DecidableEq, Repr

/-- An element `filepath.Clean` keeps as it is: not empty, neither `.` nor `..`, and without a
separator. -/
def Plain (elem : List Char) : Prop := elem ≠ [] ∧ elem ≠ ['.'] ∧ elem ≠ ['.', '.'] ∧ '/' ∉ elem

/-- One element of `filepath.Clean`'s scan, onto the elements kept so far, latest first: empty
elements and `.` go, `..` removes the element before it, is dropped at the root, and stays at
the start of a relative path. -/
def cleanStep (rooted : Bool) (kept : List (List Char)) (elem : List Char) : List (List Char) :=
  if elem = [] ∨ elem = ['.'] then kept
  else if elem = ['.', '.'] then
    match kept with
    | last :: rest => if last = ['.', '.'] then elem :: kept else rest
    | [] => if rooted then [] else [elem]
  else elem :: kept

/-- The elements `filepath.Clean` keeps. -/
def clean (path : List Char) : CleanPath :=
  let rooted := path.head? = some '/'
  ⟨rooted, ((splitChar '/' path).foldl (cleanStep rooted) []).reverse⟩

/-- The text of a cleaned path: `/` alone for the root, `.` for an empty relative path. -/
def CleanPath.render (c : CleanPath) : List Char :=
  if c.rooted then '/' :: ['/'].intercalate c.elems
  else if c.elems = [] then ['.'] else ['/'].intercalate c.elems

/-- `filepath.Clean`. -/
def cleanPath (path : List Char) : List Char := (clean path).render

/-- `filepath.Join`: the elements from the first non-empty one, joined by `/` and cleaned. -/
def join (elems : List (List Char)) : List Char :=
  match elems.dropWhile List.isEmpty with
  | [] => []
  | rest => cleanPath (['/'].intercalate rest)

/-- `filepath.Dir`: the path up to its last separator, cleaned. -/
def dir (path : List Char) : List Char := cleanPath (path.reverse.dropWhile (· != '/')).reverse

/-- What `filepath.Clean` returns: some `..` elements, none in a rooted path, then plain ones. -/
def CleanPath.Normal (c : CleanPath) : Prop :=
  ∃ ups names, c.elems = List.replicate ups ['.', '.'] ++ names ∧ (∀ e ∈ names, Plain e) ∧ (c.rooted → ups = 0)

theorem SafeSegment.plain {s : List Char} (safe : SafeSegment s) : Plain s := by
  refine ⟨safe.ne_nil, ?_, ?_, fun mem => absurd (safe.runes '/' mem) (by decide)⟩ <;>
  · rintro rfl
    exact absurd (safe.first '.' rfl) (by decide)

section Clean
variable {rooted : Bool} {kept : List (List Char)}

/-- The elements kept so far, latest first: plain ones after some `..`, none in a rooted path. -/
def Kept (rooted : Bool) (kept : List (List Char)) : Prop :=
  ∃ names ups, kept = names ++ List.replicate ups ['.', '.'] ∧ (∀ e ∈ names, Plain e) ∧ (rooted → ups = 0)

@[simp] theorem cleanStep_empty : cleanStep rooted kept [] = kept := by simp [cleanStep]

theorem cleanStep_plain {elem : List Char} (plain : Plain elem) : cleanStep rooted kept elem = elem :: kept := by
  obtain ⟨ne, dot, dots, -⟩ := plain
  simp [cleanStep, ne, dot, dots]

theorem cleanStep_kept (keeps : Kept rooted kept) {elem : List Char} (single : '/' ∉ elem) :
    Kept rooted (cleanStep rooted kept elem) := by
  obtain ⟨names, ups, rfl, plain, top⟩ := keeps
  by_cases skip : elem = [] ∨ elem = ['.']
  · unfold cleanStep; rw [if_pos skip]; exact ⟨names, ups, rfl, plain, top⟩
  by_cases up : elem = ['.', '.']
  · subst up
    unfold cleanStep; rw [if_neg skip, if_pos rfl]
    cases names with
    | cons last rest =>
      have : last ≠ ['.', '.'] := (plain last (List.mem_cons_self _ _)).2.2.1
      simp only [List.cons_append, if_neg this]
      exact ⟨rest, ups, rfl, fun e mem => plain e (List.mem_cons_of_mem _ mem), top⟩
    | nil =>
      cases ups with
      | zero =>
        cases rooted
        · exact ⟨[], 1, rfl, by simp, fun h => absurd h (by decide)⟩
        · exact ⟨[], 0, rfl, by simp, fun _ => rfl⟩
      | succ ups =>
        simp only [List.nil_append, List.replicate_succ, if_true]
        exact ⟨[], ups + 2, by simp [List.replicate_succ], by simp, fun r => absurd (top r) (by omega)⟩
  · rw [cleanStep_plain ⟨fun h => skip (.inl h), fun h => skip (.inr h), up, single⟩]
    exact ⟨elem :: names, ups, rfl, by simpa using ⟨⟨fun h => skip (.inl h), fun h => skip (.inr h), up, single⟩, plain⟩, top⟩

theorem foldl_cleanStep_kept (pieces : List (List Char)) (single : ∀ p ∈ pieces, '/' ∉ p) (keeps : Kept rooted kept) :
    Kept rooted (pieces.foldl (cleanStep rooted) kept) := by
  induction pieces generalizing kept with
  | nil => exact keeps
  | cons piece rest ih =>
    exact ih (fun p mem => single p (List.mem_cons_of_mem _ mem)) (cleanStep_kept keeps (single piece (List.mem_cons_self _ _)))

/-- Every path `filepath.Clean` returns is normal. -/
theorem clean_normal (path : List Char) : (clean path).Normal := by
  obtain ⟨names, ups, folded, plain, top⟩ := foldl_cleanStep_kept (splitChar '/' path)
    (fun _ mem => not_mem_of_mem_splitChar mem) (⟨[], 0, rfl, by simp, fun _ => rfl⟩ : Kept (decide (path.head? = some '/')) [])
  exact ⟨ups, names.reverse, by simp [clean, folded, List.reverse_replicate], by simpa using plain, top⟩

theorem foldl_cleanStep_plain {names : List (List Char)} (plain : ∀ e ∈ names, Plain e) (kept : List (List Char)) :
    names.foldl (cleanStep rooted) kept = names.reverse ++ kept := by
  induction names generalizing kept with
  | nil => rfl
  | cons name rest ih =>
    rw [List.foldl_cons, cleanStep_plain (plain name (List.mem_cons_self _ _)),
      ih (fun e mem => plain e (List.mem_cons_of_mem _ mem))]
    simp

theorem foldl_cleanStep_ups (ups more : Nat) :
    (List.replicate ups ['.', '.']).foldl (cleanStep false) (List.replicate more ['.', '.']) =
      List.replicate (ups + more) ['.', '.'] := by
  induction ups generalizing more with
  | zero => simp
  | succ ups ih =>
    rw [List.replicate_succ, List.foldl_cons]
    have : cleanStep false (List.replicate more ['.', '.']) ['.', '.'] = List.replicate (more + 1) ['.', '.'] := by
      cases more <;> simp [cleanStep, List.replicate_succ]
    rw [this, ih]
    congr 1
    omega
end Clean

theorem head?_intercalate {rest : List (List Char)} {first : List Char} (ne : first ≠ []) :
    (['/'].intercalate (first :: rest)).head? = first.head? := by
  cases rest with
  | nil => simp [List.intercalate]
  | cons next rest =>
    rw [Cron.intercalate_cons _ _ (List.cons_ne_nil _ _), List.head?_append_of_ne_nil _ ne]

/-- `filepath.Clean` leaves a cleaned path as it is. -/
theorem clean_render {c : CleanPath} (normal : c.Normal) : clean c.render = c := by
  obtain ⟨rooted, elems⟩ := c
  obtain ⟨ups, names, rfl, plain, top⟩ := normal
  have single : ∀ e ∈ List.replicate ups ['.', '.'] ++ names, '/' ∉ e := by
    intro e mem
    rcases List.mem_append.mp mem with mem | mem
    · rw [List.eq_of_mem_replicate mem]; decide
    · exact (plain e mem).2.2.2
  have pieces : ∀ elems : List (List Char), (∀ e ∈ elems, '/' ∉ e) → elems ≠ [] →
      splitChar '/' (['/'].intercalate elems) = elems := fun elems single ne => by
    rw [Cron.splitChar_eq_splitOn]; exact List.splitOn_intercalate _ '/' single ne
  have kept : ((List.replicate ups ['.', '.'] ++ names).foldl (cleanStep rooted) []).reverse =
      List.replicate ups ['.', '.'] ++ names := by
    cases rooted
    · rw [List.foldl_append, ← List.replicate_zero, foldl_cleanStep_ups, foldl_cleanStep_plain plain]; simp
    · rw [top rfl, List.replicate_zero, List.nil_append, foldl_cleanStep_plain plain]; simp
  simp only [CleanPath.render]
  cases rooted
  · by_cases empty : List.replicate ups ['.', '.'] ++ names = []
    · simp only [empty, if_true, Bool.false_eq_true, if_false]
      rfl
    · obtain ⟨first, rest, split⟩ := List.exists_cons_of_ne_nil empty
      rw [split] at single kept
      have firstNe : first ≠ [] := by
        rcases List.mem_append.mp (split ▸ List.mem_cons_self first rest : first ∈ _) with mem | mem
        · rw [List.eq_of_mem_replicate mem]; decide
        · exact (plain first mem).1
      have firstHead : first.head? ≠ some '/' := fun h =>
        single first (List.mem_cons_self _ _) (List.mem_of_mem_head? h)
      simp only [split, List.cons_ne_nil, if_false, Bool.false_eq_true, clean, pieces _ single (List.cons_ne_nil _ _),
        head?_intercalate firstNe, firstHead, decide_False, kept]
  · simp only [if_true, clean, List.head?_cons, decide_True]
    by_cases empty : List.replicate ups ['.', '.'] ++ names = []
    · simp [empty, Cron.splitChar]
    · rw [show '/' :: ['/'].intercalate (List.replicate ups ['.', '.'] ++ names) =
          [] ++ '/' :: ['/'].intercalate (List.replicate ups ['.', '.'] ++ names) from rfl,
        splitChar_append, pieces _ single empty, show splitChar '/' [] = [[]] from rfl, List.singleton_append,
        List.foldl_cons, cleanStep_empty, kept]

theorem CleanPath.Normal.push {c : CleanPath} (normal : c.Normal) {elem : List Char} (plain : Plain elem) :
    (⟨c.rooted, c.elems ++ [elem]⟩ : CleanPath).Normal := by
  obtain ⟨ups, names, split, plains, top⟩ := normal
  refine ⟨ups, names ++ [elem], by simp [split], fun e mem => ?_, top⟩
  rcases List.mem_append.mp mem with mem | mem
  · exact plains e mem
  · exact List.mem_singleton.mp mem ▸ plain

theorem CleanPath.Normal.elem {c : CleanPath} (normal : c.Normal) {e : List Char} (mem : e ∈ c.elems) :
    e ≠ [] ∧ '/' ∉ e := by
  obtain ⟨ups, names, split, plain, -⟩ := normal
  rw [split] at mem
  rcases List.mem_append.mp mem with mem | mem
  · rw [List.eq_of_mem_replicate mem]; decide
  · exact ⟨(plain e mem).1, (plain e mem).2.2.2⟩

theorem render_ne_nil {c : CleanPath} (normal : c.Normal) : c.render ≠ [] := by
  unfold CleanPath.render
  split_ifs with rooted empty
  · simp
  · simp
  · obtain ⟨first, rest, cons⟩ := List.exists_cons_of_ne_nil empty
    have first_ne := (normal.elem (cons ▸ List.mem_cons_self first rest)).1
    intro joined
    have := congrArg List.head? joined
    rw [cons, head?_intercalate first_ne, List.head?_nil] at this
    exact first_ne (List.head?_eq_none_iff.mp this)

theorem clean_plain {elem : List Char} (plain : Plain elem) : clean elem = ⟨false, [elem]⟩ := by
  have head : elem.head? ≠ some '/' := fun h => plain.2.2.2 (List.mem_of_mem_head? h)
  simp [clean, head, splitChar_of_not_mem plain.2.2.2, cleanStep_plain plain]

/-- Cleaning a path with one more plain element adds it to the cleaned path. -/
theorem clean_append_plain {path elem : List Char} (ne : path ≠ []) (plain : Plain elem) :
    clean (path ++ '/' :: elem) = ⟨(clean path).rooted, (clean path).elems ++ [elem]⟩ := by
  simp only [clean, List.head?_append_of_ne_nil _ ne, splitChar_append, splitChar_of_not_mem plain.2.2.2,
    List.foldl_append, List.foldl_cons, List.foldl_nil, cleanStep_plain plain, List.reverse_cons]

/-- `filepath.Join(path, elem)` for a plain `elem`: the cleaned path with `elem` added. -/
theorem join_plain (path : List Char) {elem : List Char} (plain : Plain elem) :
    join [path, elem] = (⟨(clean path).rooted, (clean path).elems ++ [elem]⟩ : CleanPath).render := by
  have alone : ['/'].intercalate [elem] = elem := by simp [List.intercalate]
  by_cases empty : path = []
  · subst empty
    have kept : [[], elem].dropWhile List.isEmpty = [elem] := by simp [plain.1]
    simp only [join, kept, cleanPath, alone, clean_plain plain]
    rfl
  · have kept : [path, elem].dropWhile List.isEmpty = [path, elem] := List.dropWhile_cons_of_neg (by simpa using empty)
    simp only [join, kept, cleanPath]
    rw [Cron.intercalate_cons _ path (List.cons_ne_nil elem []), alone, clean_append_plain empty plain]

/-- A cleaned path with a separator after it cleans to itself. -/
theorem clean_render_slash {c : CleanPath} (normal : c.Normal) : clean (c.render ++ ['/']) = c := by
  conv_rhs => rw [← clean_render normal]
  simp only [clean, List.head?_append_of_ne_nil _ (render_ne_nil normal), splitChar_append, List.foldl_append]
  rfl

/-- `filepath.Dir`'s scan back to the last separator passes over a whole element. -/
theorem not_sep_of_single {elem : List Char} (single : '/' ∉ elem) : ∀ c ∈ elem.reverse, (c != '/') = true :=
  fun _ mem => bne_iff_ne.mpr fun sep => single (sep ▸ List.mem_reverse.mp mem)

theorem dirPrefix_append (path : List Char) {elem : List Char} (single : '/' ∉ elem) :
    ((path ++ '/' :: elem).reverse.dropWhile (· != '/')).reverse = path ++ ['/'] := by
  simp [List.reverse_append, List.dropWhile_append_of_pos (not_sep_of_single single)]

/-- `filepath.Dir` of a cleaned path that ends in a plain element is the path without it. -/
theorem dir_push {c : CleanPath} (normal : c.Normal) {elem : List Char} (plain : Plain elem) :
    dir (⟨c.rooted, c.elems ++ [elem]⟩ : CleanPath).render = c.render := by
  obtain ⟨rooted, elems⟩ := c
  unfold dir cleanPath
  by_cases empty : elems = []
  · subst empty
    cases rooted
    · simp [CleanPath.render, List.intercalate, List.dropWhile_eq_nil_iff.mpr (not_sep_of_single plain.2.2.2)]
      rfl
    · have : (⟨true, [] ++ [elem]⟩ : CleanPath).render = [] ++ '/' :: elem := by
        simp [CleanPath.render, List.intercalate]
      rw [this, dirPrefix_append _ plain.2.2.2]
      rfl
  · have text : (⟨rooted, elems ++ [elem]⟩ : CleanPath).render = (⟨rooted, elems⟩ : CleanPath).render ++ '/' :: elem := by
      cases rooted <;>
      simp [CleanPath.render, empty, Cron.intercalate_append_singleton, Cron.flatMap_append_sep _ empty]
    rw [text, dirPrefix_append _ plain.2.2.2, clean_render_slash normal]

/-! ## The manager's paths -/

def stdoutSuffix : List Char := ".stdout.log".toList
def stderrSuffix : List Char := ".stderr.log".toList

/-- The part of `runlog.Manager` its log files use. -/
structure Manager where
  baseDir : List Char
  maxBytesPerStream : Int

/-- `Manager.Paths`. -/
def Manager.paths (m : Manager) (jobName runID : List Char) : List Char × List Char :=
  let safeJob := sanitizeSegment jobName
  let dir := join [m.baseDir, safeJob]
  (join [dir, runID ++ stdoutSuffix], join [dir, runID ++ stderrSuffix])

/-- The alphabet of the ULIDs `store.NewRunID` returns: Crockford's base 32. -/
def crockford : List Char := "0123456789ABCDEFGHJKMNPQRSTVWXYZ".toList

theorem plain_logName {runID suffix : List Char} (ulid : ∀ c ∈ runID, c ∈ crockford) (long : 2 < suffix.length)
    (single : '/' ∉ suffix) : Plain (runID ++ suffix) := by
  have long' : 2 < (runID ++ suffix).length := by simp; omega
  refine ⟨fun h => by simp [h] at long', fun h => by simp [h] at long', fun h => by simp [h] at long', ?_⟩
  rw [List.mem_append, not_or]
  exact ⟨fun mem => absurd (ulid '/' mem) (by decide), single⟩

/-- A file named by a plain element in the job's directory. -/
theorem join_jobDir (baseDir jobName : List Char) {name : List Char} (plain : Plain name) :
    join [join [baseDir, sanitizeSegment jobName], name] =
      (⟨(clean baseDir).rooted, (clean baseDir).elems ++ [sanitizeSegment jobName, name]⟩ : CleanPath).render := by
  have safe := (sanitizeSegment_safe jobName).plain
  rw [join_plain baseDir safe, join_plain _ plain, clean_render ((clean_normal baseDir).push safe)]
  simp

/-- `Paths` puts both log files directly inside `baseDir/sanitizeSegment(jobName)`: each is the
cleaned `baseDir` with the sanitised name and the file's name added, and `filepath.Dir` of the
stdout file, the directory `OpenRunWriters` creates, is the cleaned `baseDir` with the name
added. -/
theorem paths_inside (m : Manager) (jobName : List Char) {runID : List Char} (ulid : ∀ c ∈ runID, c ∈ crockford) :
    (m.paths jobName runID).1 =
        (⟨(clean m.baseDir).rooted, (clean m.baseDir).elems ++ [sanitizeSegment jobName, runID ++ stdoutSuffix]⟩ : CleanPath).render ∧
      (m.paths jobName runID).2 =
        (⟨(clean m.baseDir).rooted, (clean m.baseDir).elems ++ [sanitizeSegment jobName, runID ++ stderrSuffix]⟩ : CleanPath).render ∧
      dir (m.paths jobName runID).1 =
        (⟨(clean m.baseDir).rooted, (clean m.baseDir).elems ++ [sanitizeSegment jobName]⟩ : CleanPath).render := by
  have stdoutName := @plain_logName runID stdoutSuffix ulid (by decide) (by decide)
  have stdoutPath := join_jobDir m.baseDir jobName stdoutName
  refine ⟨stdoutPath, join_jobDir m.baseDir jobName (@plain_logName runID stderrSuffix ulid (by decide) (by decide)), ?_⟩
  have pushed := dir_push ((clean_normal m.baseDir).push (sanitizeSegment_safe jobName).plain) stdoutName
  simp only [List.append_assoc, List.singleton_append] at pushed
  rw [Manager.paths, stdoutPath, pushed]

/-! ## The log files -/

/-- The files, by the cleaned path the file system resolves each name to, against one working
directory; directories and links are not tracked. -/
abbrev Files := CleanPath → Option (List UInt8)

/-- The paths inside `baseDir`: its cleaned elements and at least one more. -/
def Within (baseDir : List Char) (path : CleanPath) : Prop :=
  ∃ rest, rest ≠ [] ∧ path = ⟨(clean baseDir).rooted, (clean baseDir).elems ++ rest⟩

/-- `os.Create(path)`: the file is made, or truncated, empty. -/
def create (files : Files) (path : List Char) : Files := Function.update files (clean path) (some [])

/-- The error each of `OpenRunWriters`'s calls returns, if it fails. -/
structure OpenFaults where
  mkdirAll : Option String
  createStdout : Option String
  createStderr : Option String

/-- `RunWriters`, over the two empty files. -/
structure RunWriters where
  stdout : Output.CappedFileWriter
  stderr : Output.CappedFileWriter
  stdoutPath : List Char
  stderrPath : List Char
  deriving DecidableEq, Repr

/-- `Manager.OpenRunWriters`, with the files afterwards. -/
def Manager.openRunWriters (m : Manager) (faults : OpenFaults) (files : Files) (jobName runID : List Char) :
    Except String RunWriters × Files :=
  let paths := m.paths jobName runID
  match faults.mkdirAll, faults.createStdout, faults.createStderr with
  | some err, _, _ => (.error err, files)
  | none, some err, _ => (.error err, files)
  | none, none, some err => (.error err, create files paths.1)
  | none, none, none =>
    (.ok ⟨Output.newCappedFileWriter m.maxBytesPerStream, Output.newCappedFileWriter m.maxBytesPerStream,
      paths.1, paths.2⟩, create (create files paths.1) paths.2)

/-- The error `os.ReadFile` returns: the file is missing (`os.ErrNotExist`), or another error,
with its text. -/
inductive ReadError where
  | notExist
  | other (msg : String)
  deriving DecidableEq, Repr

/-- `os.ReadFile(path)`; `fault` is an error other than a missing file that the call returns. -/
def readFile (fault : Option String) (files : Files) (path : List Char) : Except ReadError (List UInt8) :=
  match fault, files (clean path) with
  | some msg, _ => .error (.other msg)
  | none, some data => .ok data
  | none, none => .error .notExist

/-- What `ReadRunLogs` returns besides its error. -/
structure LogContents where
  stdout : List UInt8
  stderr : List UInt8
  stdoutPath : List Char
  stderrPath : List Char
  deriving DecidableEq, Repr

/-- `Manager.ReadRunLogs`: its switch, case by case. -/
def Manager.readRunLogs (m : Manager) (stdoutFault stderrFault : Option String) (files : Files)
    (jobName runID : List Char) : LogContents × Option ReadError :=
  let paths := m.paths jobName runID
  match readFile stdoutFault files paths.1, readFile stderrFault files paths.2 with
  | .ok out, .ok err => (⟨out, err, paths.1, paths.2⟩, none)
  | .ok out, .error .notExist => (⟨out, [], paths.1, paths.2⟩, none)
  | .error .notExist, .ok err => (⟨[], err, paths.1, paths.2⟩, none)
  | .error .notExist, .error .notExist => (⟨[], [], paths.1, paths.2⟩, some .notExist)
  | .error e, _ => (⟨[], [], paths.1, paths.2⟩, some e)
  | .ok _, .error e => (⟨[], [], paths.1, paths.2⟩, some e)

/-- `runLogsResponse`; the JSON encoding and its `omitempty` are not modelled. -/
structure RunLogsResponse where
  runID : String
  jobName : String
  source : String
  stdout : List UInt8
  stderr : List UInt8
  stdoutPath : List Char
  stderrPath : List Char
  stdoutTail : String
  stderrTail : String
  storageError : String
  deriving DecidableEq, Repr

/-- `handleGetRunLogs`: the error reply, or the response served with `200`; `readRunLogs` is
`a.ReadRunLogs`, unset when the daemon has no log manager. -/
def handleGetRunLogs (table : Store.Table) (id : String)
    (readRunLogs : Option (List Char → List Char → LogContents × Option ReadError)) : Except Api.Response RunLogsResponse :=
  match Store.getRun table id with
  | .error _ => .error ⟨500, [("error", "failed to get run")]⟩
  | .ok none => .error ⟨404, [("error", "run not found")]⟩
  | .ok (some run) =>
    let resp : RunLogsResponse := ⟨run.id, run.jobName, "tail", run.stdoutTail.toUTF8.toList,
      run.stderrTail.toUTF8.toList, [], [], run.stdoutTail, run.stderrTail, ""⟩
    match readRunLogs with
    | none => .ok resp
    | some read =>
      match read run.jobName.toList run.id.toList with
      | (logs, none) =>
        .ok { resp with
          source := "file", stdout := logs.stdout, stderr := logs.stderr
          stdoutPath := logs.stdoutPath, stderrPath := logs.stderrPath }
      | (_, some .notExist) => .ok resp
      | (_, some (.other msg)) => .ok { resp with storageError := msg }

/-! ## What the calls touch -/

@[simp] theorem create_apply (files : Files) (path : List Char) (p : CleanPath) :
    create files path p = if p = clean path then some [] else files p :=
  Function.update_apply files (clean path) (some []) p

theorem jobFile_normal (baseDir jobName : List Char) {name : List Char} (plain : Plain name) :
    (⟨(clean baseDir).rooted, (clean baseDir).elems ++ [sanitizeSegment jobName, name]⟩ : CleanPath).Normal := by
  simpa using ((clean_normal baseDir).push (sanitizeSegment_safe jobName).plain).push plain

/-- Both log files, as the file system resolves them, are inside `baseDir`. -/
theorem paths_within (m : Manager) (jobName : List Char) {runID : List Char} (ulid : ∀ c ∈ runID, c ∈ crockford) :
    Within m.baseDir (clean (m.paths jobName runID).1) ∧ Within m.baseDir (clean (m.paths jobName runID).2) := by
  obtain ⟨stdoutPath, stderrPath, -⟩ := paths_inside m jobName ulid
  refine ⟨⟨[sanitizeSegment jobName, runID ++ stdoutSuffix], List.cons_ne_nil _ _, ?_⟩,
    ⟨[sanitizeSegment jobName, runID ++ stderrSuffix], List.cons_ne_nil _ _, ?_⟩⟩
  · rw [stdoutPath, clean_render (jobFile_normal _ _ (@plain_logName runID stdoutSuffix ulid (by decide) (by decide)))]
  · rw [stderrPath, clean_render (jobFile_normal _ _ (@plain_logName runID stderrSuffix ulid (by decide) (by decide)))]

/-- The files `OpenRunWriters` leaves, for every outcome of its calls: as they were when making
the directory or creating the stdout file failed, with the stdout file created when creating the
stderr file failed, and with both created when it succeeds. -/
theorem openRunWriters_files (m : Manager) (faults : OpenFaults) (files : Files) (jobName runID : List Char) :
    let paths := m.paths jobName runID
    (m.openRunWriters faults files jobName runID).2 =
      if faults.mkdirAll.isSome ∨ faults.createStdout.isSome then files
      else if faults.createStderr.isSome then create files paths.1
      else create (create files paths.1) paths.2 := by
  obtain ⟨_ | _, _ | _, _ | _⟩ := faults <;> rfl

/-- `OpenRunWriters` changes no file but the two log files. -/
theorem openRunWriters_frame (m : Manager) (faults : OpenFaults) (files : Files) (jobName runID : List Char)
    {p : CleanPath} (other₁ : p ≠ clean (m.paths jobName runID).1) (other₂ : p ≠ clean (m.paths jobName runID).2) :
    (m.openRunWriters faults files jobName runID).2 p = files p := by
  rw [openRunWriters_files]
  split_ifs <;> simp [other₁, other₂]

theorem readFile_congr (fault : Option String) {files files' : Files} {path : List Char}
    (same : files (clean path) = files' (clean path)) : readFile fault files path = readFile fault files' path := by
  simp only [readFile, same]

/-- `ReadRunLogs` reads only the two log files: on files that agree there, it returns the same. -/
theorem readRunLogs_congr (m : Manager) (stdoutFault stderrFault : Option String) {files files' : Files}
    (jobName runID : List Char) (same₁ : files (clean (m.paths jobName runID).1) = files' (clean (m.paths jobName runID).1))
    (same₂ : files (clean (m.paths jobName runID).2) = files' (clean (m.paths jobName runID).2)) :
    m.readRunLogs stdoutFault stderrFault files jobName runID = m.readRunLogs stdoutFault stderrFault files' jobName runID := by
  simp only [Manager.readRunLogs, readFile_congr stdoutFault same₁, readFile_congr stderrFault same₂]

/-- For every job name and every run id over the alphabet of `NewRunID`: `sanitizeSegment` is the
name with its other runes replaced by `_` and `.` and `_` trimmed from its ends, or `unknown`, a
safe element it leaves as it is; `Paths` puts both files directly inside
`baseDir/sanitizeSegment(jobName)`, where `OpenRunWriters` also makes its directory; and
`OpenRunWriters` changes, and `ReadRunLogs` reads, no file outside `baseDir`. -/
theorem runLog_paths_confined (m : Manager) (jobName : List Char) {runID : List Char} (ulid : ∀ c ∈ runID, c ∈ crockford) :
    (sanitizeSegment jobName =
        let result := trimEdges (jobName.map fun ch => if segmentRune ch then ch else '_')
        if result = [] then "unknown".toList else result) ∧
      SafeSegment (sanitizeSegment jobName) ∧ sanitizeSegment (sanitizeSegment jobName) = sanitizeSegment jobName ∧
      ((m.paths jobName runID).1 =
          (⟨(clean m.baseDir).rooted, (clean m.baseDir).elems ++ [sanitizeSegment jobName, runID ++ stdoutSuffix]⟩ : CleanPath).render ∧
        (m.paths jobName runID).2 =
          (⟨(clean m.baseDir).rooted, (clean m.baseDir).elems ++ [sanitizeSegment jobName, runID ++ stderrSuffix]⟩ : CleanPath).render ∧
        dir (m.paths jobName runID).1 =
          (⟨(clean m.baseDir).rooted, (clean m.baseDir).elems ++ [sanitizeSegment jobName]⟩ : CleanPath).render) ∧
      (∀ faults files p, ¬Within m.baseDir p → (m.openRunWriters faults files jobName runID).2 p = files p) ∧
      (∀ stdoutFault stderrFault (files files' : Files), (∀ p, Within m.baseDir p → files p = files' p) →
        m.readRunLogs stdoutFault stderrFault files jobName runID =
          m.readRunLogs stdoutFault stderrFault files' jobName runID) := by
  obtain ⟨within₁, within₂⟩ := paths_within m jobName ulid
  refine ⟨sanitizeSegment_eq jobName, sanitizeSegment_safe jobName, sanitizeSegment_idem jobName,
    paths_inside m jobName ulid, fun faults files p outside => ?_, fun _ _ files files' same => ?_⟩
  · exact openRunWriters_frame m faults files jobName runID (by rintro rfl; exact outside within₁)
      (by rintro rfl; exact outside within₂)
  · exact readRunLogs_congr m _ _ jobName runID (same _ within₁) (same _ within₂)

theorem runLog_paths_confined_escape :
    (∀ c ∈ "01ARZ3NDEKTSV4RRFFQ69G5FAV".toList, c ∈ crockford) ∧
      (∀ faults files p, ¬Within "/var/lib/cronbat/logs".toList p →
        ((⟨"/var/lib/cronbat/logs".toList, 1048576⟩ : Manager).openRunWriters faults files "../../etc/passwd".toList
          "01ARZ3NDEKTSV4RRFFQ69G5FAV".toList).2 p = files p) :=
  ⟨by decide, (@runLog_paths_confined ⟨"/var/lib/cronbat/logs".toList, 1048576⟩ "../../etc/passwd".toList
    "01ARZ3NDEKTSV4RRFFQ69G5FAV".toList (by decide)).2.2.2.2.1⟩

/-! ## A run whose writers failed to open

The daemon logs the error of `OpenRunWriters` and runs the job without log files, so the run's
record keeps only its tails. -/

/-- `ReadRunLogs` of two missing files, with no other error: `os.ErrNotExist`. -/
theorem readRunLogs_absent (m : Manager) {files : Files} {jobName runID : List Char}
    (absent₁ : files (clean (m.paths jobName runID).1) = none) (absent₂ : files (clean (m.paths jobName runID).2) = none) :
    m.readRunLogs none none files jobName runID =
      (⟨[], [], (m.paths jobName runID).1, (m.paths jobName runID).2⟩, some .notExist) := by
  simp [Manager.readRunLogs, readFile, absent₁, absent₂]

/-- When `OpenRunWriters` fails before it creates the stdout file, and neither log file was
there, the logs endpoint serves the run's tails. -/
theorem failed_open_serves_tails (m : Manager) {faults : OpenFaults} {files : Files} {table : Store.Table}
    {id : String} {run : Store.Run} (early : faults.mkdirAll.isSome ∨ faults.createStdout.isSome)
    (absent₁ : files (clean (m.paths run.jobName.toList run.id.toList).1) = none)
    (absent₂ : files (clean (m.paths run.jobName.toList run.id.toList).2) = none)
    (stored : Store.getRun table id = .ok (some run)) :
    handleGetRunLogs table id
        (some (m.readRunLogs none none (m.openRunWriters faults files run.jobName.toList run.id.toList).2)) =
      .ok ⟨run.id, run.jobName, "tail", run.stdoutTail.toUTF8.toList, run.stderrTail.toUTF8.toList, [], [],
        run.stdoutTail, run.stderrTail, ""⟩ := by
  have missing := readRunLogs_absent m absent₁ absent₂
  rw [openRunWriters_files, if_pos early]
  simp only [handleGetRunLogs, stored]
  rw [missing]

/-- Creating the stderr file fails after the stdout file was created: `OpenRunWriters` returns
the error and leaves the empty stdout file, which `ReadRunLogs` then reads without an error, so the
logs endpoint serves `file` with no output in place of the run's tail. -/
theorem openRunWriters_leaves_stdout :
    let m : Manager := ⟨"/var/lib/cronbat/logs".toList, 1048576⟩
    let runID := "01ARZ3NDEKTSV4RRFFQ69G5FAV"
    let opened := m.openRunWriters ⟨none, none, some "permission denied"⟩ (fun _ => none) "backup".toList runID.toList
    let read := m.readRunLogs none none opened.2
    let row : Store.Row := ⟨runID, "backup", "success", some 0, "2026-01-02T03:04:05Z", some "2026-01-02T03:04:06Z",
      some 1000, some "hello", none, none, "schedule", none, none, "2026-01-02T03:04:05Z"⟩
    opened.1 = .error "permission denied" ∧ opened.2 (clean (m.paths "backup".toList runID.toList).1) = some [] ∧
      (read "backup".toList runID.toList).2 = none ∧
      (handleGetRunLogs [row] runID (some read)).map (fun resp => (resp.source, resp.stdout, resp.stdoutTail)) =
        .ok ("file", [], "hello") :=
  ⟨rfl, by decide, by decide, rfl⟩

end Cronbat.RunLogs
