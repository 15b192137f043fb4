import Cronbat.CronImport

/-! # Installing, then importing

`cron-sync import` reads back the jobs `cron-sync install` wrote when each installed line
parses as the line it is: the schedule is five fields, so the first five fields of the line are
the schedule; the command is written with single spaces, so joining its fields gives it back; the
binary and config paths are single fields that are no flag of the wrap command; and no field holds
the tag, so removing the first tag removes the one at the end. Under these conditions, and when the
lines the merge keeps from the user's crontab are no lines the import takes an entry from, reading
the crontab back gives every enabled job, in order (`install_then_import`). Without them it need
not: a descriptor schedule such as `@daily` takes five fields of the line with it. -/

namespace Cronbat.CronImport
open Cron (fields trimSpace splitChar isSpace splitChar_eq_splitOn not_mem_of_mem_splitChar)
open Crontab

/-! ## Words and tags -/

/-- One field of a line: not empty, and no white space in it. -/
def Word (w : List Char) : Prop := w ≠ [] ∧ ∀ c ∈ w, isSpace c = false

instance : DecidablePred Word := fun _ => inferInstanceAs (Decidable (_ ∧ _))

theorem subset_of_mem_intercalate {sep : Char} {pieces : List (List Char)} {piece : List Char}
    (mem : piece ∈ pieces) : piece ⊆ [sep].intercalate pieces := by
  induction pieces with
  | nil => cases mem
  | cons first rest ih =>
    rcases rest with _ | ⟨next, rest⟩
    · rw [List.mem_singleton.mp mem]; simp [List.intercalate]
    rw [Cron.intercalate_cons _ _ (List.cons_ne_nil _ _)]
    rcases List.mem_cons.mp mem with rfl | mem
    · exact List.subset_append_left _ _
    · exact (ih mem).trans ((List.subset_cons_self _ _).trans (List.subset_append_right _ _))

theorem mem_intercalate {sep c : Char} {pieces : List (List Char)} (mem : c ∈ [sep].intercalate pieces) :
    c = sep ∨ ∃ piece ∈ pieces, c ∈ piece := by
  induction pieces with
  | nil => cases mem
  | cons first rest ih =>
    rcases rest with _ | ⟨next, rest⟩
    · exact .inr ⟨first, List.mem_singleton_self _, by simpa [List.intercalate] using mem⟩
    rw [Cron.intercalate_cons _ _ (List.cons_ne_nil _ _), List.mem_append, List.mem_cons] at mem
    rcases mem with inFirst | rfl | inRest
    · exact .inr ⟨first, List.mem_cons_self _ _, inFirst⟩
    · exact .inl rfl
    · exact (ih inRest).imp_right fun ⟨piece, mem, inPiece⟩ => ⟨piece, List.mem_cons_of_mem _ mem, inPiece⟩

/-- `strings.Fields` over two texts joined at a white space rune. -/
theorem fields_append_space {c : Char} (space : isSpace c = true) (s t : List Char) :
    fields (s ++ c :: t) = fields s ++ fields t := by
  simp only [fields, List.map_append, List.map_cons, space, if_true, Cron.splitChar_append, List.filter_append]

@[simp] theorem fields_nil : fields [] = [] := rfl

theorem fields_trimSpace (s : List Char) : fields (trimSpace s) = fields s := by
  have front : ∀ s : List Char, fields (s.dropWhile isSpace) = fields s := by
    intro s
    induction s with
    | nil => rfl
    | cons c s ih =>
      by_cases space : isSpace c
      · rw [List.dropWhile_cons_of_pos space, ih]
        simpa using (fields_append_space space [] s).symm
      · rw [List.dropWhile_cons_of_neg space]
  have back : ∀ s : List Char, fields (s.rdropWhile isSpace) = fields s := by
    intro s
    induction s using List.reverseRecOn with
    | nil => rfl
    | append_singleton s c ih =>
      rw [List.rdropWhile_concat]
      split_ifs with space
      · simpa [ih] using (fields_append_space space s []).symm
      · rfl
  show fields (List.rdropWhile isSpace (s.dropWhile isSpace)) = _
  rw [back, front]

theorem fields_joinFields (pieces : List (List Char)) : fields (joinFields pieces) = pieces.flatMap fields := by
  induction pieces with
  | nil => rfl
  | cons first rest ih =>
    rcases rest with _ | ⟨next, rest⟩
    · simp [joinFields, List.intercalate]
    rw [joinFields, Cron.intercalate_cons _ _ (List.cons_ne_nil _ _), fields_append_space (c := ' ') rfl, ← joinFields, ih]
    simp only [List.flatMap_cons]

theorem Word.fields {w : List Char} (word : Word w) : fields w = [w] := by
  have same : w.map (fun c => if isSpace c then ' ' else c) = w :=
    (List.map_congr_left fun c mem => by simp [word.2 c mem]).trans (List.map_id w)
  have unsplit : ' ' ∉ w := fun mem => absurd (word.2 ' ' mem) (by decide)
  simp [Cron.fields, same, Cron.splitChar_of_not_mem unsplit, word.1]

/-- Every field `strings.Fields` returns is one word. -/
theorem word_of_mem_fields {s w : List Char} (mem : w ∈ fields s) : Word w := by
  obtain ⟨piece, nonempty⟩ := List.mem_filter.mp mem
  have within := @subset_of_mem_intercalate ' ' _ _ (splitChar_eq_splitOn _ _ ▸ piece)
  rw [List.intercalate_splitOn] at within
  refine ⟨by simpa using nonempty, fun c inWord => ?_⟩
  obtain ⟨d, -, rfl⟩ := List.mem_map.mp (within inWord)
  by_cases space : isSpace d
  · exact absurd (by simpa [space] using inWord) (not_mem_of_mem_splitChar piece)
  · simp [space]

theorem fields_joinFields_words {words : List (List Char)} (each : ∀ w ∈ words, Word w) :
    fields (joinFields words) = words := by
  rw [fields_joinFields]
  induction words with
  | nil => rfl
  | cons w rest ih =>
    rw [List.flatMap_cons, (each w (List.mem_cons_self _ _)).fields, ih fun v mem => each v (List.mem_cons_of_mem _ mem)]
    rfl

/-! The tag holds no white space, so no occurrence of it runs across a space. -/

theorem contains_cons (c : Char) (s sub : List Char) :
    contains (c :: s) sub = (sub.isPrefixOf (c :: s) || contains s sub) := rfl

theorem isPrefixOf_tag_append_space (X Y : List Char) :
    cronbatTag.isPrefixOf (X ++ ' ' :: Y) = cronbatTag.isPrefixOf X := by
  refine Bool.eq_iff_iff.mpr (List.isPrefixOf_iff_prefix.trans (Iff.trans ?_ List.isPrefixOf_iff_prefix.symm))
  refine ⟨fun ⟨t, split⟩ => ?_, fun starts => starts.trans (List.prefix_append _ _)⟩
  rcases List.append_eq_append_iff.mp split with ⟨a, rfl, -⟩ | ⟨c, tag, rest⟩
  · exact ⟨a, rfl⟩
  · rcases c with _ | ⟨d, c⟩
    · exact ⟨[], by simpa using tag⟩
    · simp only [List.cons_append, List.cons.injEq] at rest
      have spaced : ' ' ∈ cronbatTag := tag ▸ rest.1 ▸ List.mem_append_right X (List.mem_cons_self _ _)
      exact absurd spaced (by decide)

@[simp] theorem contains_tag_append_space (X Y : List Char) :
    contains (X ++ ' ' :: Y) cronbatTag = (contains X cronbatTag || contains Y cronbatTag) := by
  induction X with
  | nil => rfl
  | cons c X ih => rw [List.cons_append, contains_cons, ← List.cons_append, isPrefixOf_tag_append_space, ih,
      contains_cons, Bool.or_assoc]

theorem contains_joinFields_tag (pieces : List (List Char)) :
    contains (joinFields pieces) cronbatTag = pieces.any (contains · cronbatTag) := by
  induction pieces with
  | nil => rfl
  | cons first rest ih =>
    rcases rest with _ | ⟨next, rest⟩
    · simp [joinFields, List.intercalate]
    rw [joinFields, Cron.intercalate_cons _ _ (List.cons_ne_nil _ _), contains_tag_append_space, ← joinFields, ih]
    simp only [List.any_cons]

theorem removeFirst_tag_append_space {X : List Char} (untagged : contains X cronbatTag = false) (Y : List Char) :
    removeFirst cronbatTag (X ++ ' ' :: Y) = X ++ ' ' :: removeFirst cronbatTag Y := by
  induction X with
  | nil => rfl
  | cons c X ih =>
    rw [contains_cons, Bool.or_eq_false_iff] at untagged
    rw [List.cons_append, removeFirst, ← List.cons_append, isPrefixOf_tag_append_space, untagged.1, ih untagged.2]
    rfl

theorem contains_append_of_prefix (X : List Char) {Y sub : List Char} (starts : sub <+: Y) :
    contains (X ++ Y) sub = true := by
  induction X with
  | nil =>
    cases Y <;> simp_all [contains_cons, List.isPrefixOf_iff_prefix, contains]
  | cons c X ih => rw [List.cons_append, contains_cons, ih, Bool.or_true]

/-! ## A job line read back -/

/-- A path `runCronSyncInstall` writes into every job line that reads back as written: one field,
neither flag of the wrap command, and without the tag. -/
def InstallPath (path : List Char) : Prop :=
  Word path ∧ path ≠ "--".toList ∧ path ≠ "--name".toList ∧ contains path cronbatTag = false

instance : DecidablePred InstallPath := fun _ => inferInstanceAs (Decidable (_ ∧ _))

/-- A job whose installed line `cron-sync import` reads back as the job: a schedule of five fields
written with single spaces that does not open a comment, a one-field name, a non-empty command
written with single spaces, and none of the three holding the tag. -/
structure Reimportable (j : Config.Job) : Prop where
  schedule : joinFields (fields j.schedule.toList) = j.schedule.toList
  five : (fields j.schedule.toList).length = 5
  uncommented : j.schedule.toList.head? ≠ some '#'
  name : Word j.name.toList
  command : joinFields (fields j.command.toList) = j.command.toList
  nonempty : j.command.toList ≠ []
  untagged : contains j.schedule.toList cronbatTag = false ∧ contains j.name.toList cronbatTag = false ∧
    contains j.command.toList cronbatTag = false

/-- The fields of the wrap command `runCronSyncInstall` writes after the schedule. -/
def wrapFields (cronbatBin absConfig : List Char) (j : Config.Job) : List (List Char) :=
  cronbatBin :: "wrap".toList :: "--name".toList :: j.name.toList :: "--config".toList :: absConfig :: "--".toList ::
    fields j.command.toList

/-- The job line: its schedule, binary, flags, paths and command joined by single spaces, then
two spaces and the tag. -/
theorem wrapLine_pieces (cronbatBin absConfig : List Char) (j : Config.Job) :
    wrapLine cronbatBin absConfig j = joinFields [j.schedule.toList, cronbatBin, "wrap".toList, "--name".toList,
      j.name.toList, "--config".toList, absConfig, "--".toList, j.command.toList] ++ ' ' :: ' ' :: cronbatTag := by
  simp only [wrapLine, joinFields, List.intercalate, List.intersperse, List.flatten, List.append_assoc, List.cons_append,
    List.nil_append, List.append_nil, List.singleton_append]
  rfl

theorem head?_joinFields {w : List Char} (ne : w ≠ []) (rest : List (List Char)) :
    (joinFields (w :: rest)).head? = w.head? := by
  rcases rest with _ | ⟨next, rest⟩
  · simp [joinFields, List.intercalate]
  · rw [joinFields, Cron.intercalate_cons _ _ (List.cons_ne_nil _ _), List.head?_append_of_ne_nil _ ne]

/-- `strings.TrimSpace` keeps a tagged line whose first rune is not white space. -/
theorem trimSpace_tagged {X : List Char} {c : Char} (front : X.head? = some c) (solid : isSpace c = false) :
    trimSpace (X ++ ' ' :: ' ' :: cronbatTag) = X ++ ' ' :: ' ' :: cronbatTag := by
  obtain ⟨X, rfl⟩ : ∃ X', X = c :: X' := by
    rcases X with _ | ⟨d, X⟩
    · cases front
    · exact ⟨X, by simpa using front⟩
  have shape : c :: X ++ ' ' :: ' ' :: cronbatTag = (c :: X ++ ' ' :: ' ' :: "#cronba".toList) ++ ['t'] := by
    simp only [List.cons_append, List.append_assoc]; rfl
  show List.rdropWhile isSpace (List.dropWhile isSpace _) = _
  rw [List.cons_append, List.dropWhile_cons_of_neg (by simp [solid]), ← List.cons_append, shape,
    List.rdropWhile_concat_neg]
  decide

theorem lineFields_wrapLine {cronbatBin absConfig : List Char} {j : Config.Job} (bin : InstallPath cronbatBin)
    (config : InstallPath absConfig) (job : Reimportable j) :
    lineFields (wrapLine cronbatBin absConfig j) = some (j.schedule.toList, joinFields (wrapFields cronbatBin absConfig j)) := by
  have scheduled : j.schedule.toList ≠ [] := fun none => absurd job.five (by rw [none]; decide)
  obtain ⟨w, ws, split⟩ : ∃ w ws, fields j.schedule.toList = w :: ws :=
    List.exists_cons_of_ne_nil fun none => absurd job.five (by rw [none]; decide)
  have word : Word w := word_of_mem_fields (split ▸ List.mem_cons_self _ _)
  obtain ⟨c, w', rfl⟩ := List.exists_cons_of_ne_nil word.1
  have solid : isSpace c = false := word.2 c (List.mem_cons_self _ _)
  have first : j.schedule.toList.head? = some c := by
    rw [← job.schedule, split, head?_joinFields word.1]
    rfl
  rw [lineFields, wrapLine_pieces]
  set pieces := [j.schedule.toList, cronbatBin, "wrap".toList, "--name".toList, j.name.toList, "--config".toList,
    absConfig, "--".toList, j.command.toList]
  have starts : (joinFields pieces).head? = some c := by rw [head?_joinFields scheduled, first]
  have untagged : contains (joinFields pieces) cronbatTag = false := by
    rw [contains_joinFields_tag]
    simp only [pieces, List.any_cons, List.any_nil, job.untagged.1, job.untagged.2.1, job.untagged.2.2, bin.2.2.2,
      config.2.2.2, Bool.false_or, Bool.or_false]
    decide
  have parts : fields (trimSpace (removeFirst cronbatTag (joinFields pieces ++ ' ' :: ' ' :: cronbatTag))) =
      fields j.schedule.toList ++ wrapFields cronbatBin absConfig j := by
    rw [removeFirst_tag_append_space untagged, fields_trimSpace, show removeFirst cronbatTag (' ' :: cronbatTag) = [' '] from rfl,
      fields_append_space (c := ' ') rfl, fields_joinFields]
    simp only [pieces, wrapFields, List.flatMap_cons, List.flatMap_nil, bin.1.fields, config.1.fields, job.name.fields,
      show fields [' '] = [] from rfl, List.append_nil]
    rfl
  have uncommented : ¬ (joinFields pieces ++ ' ' :: ' ' :: cronbatTag = [] ∨
      (joinFields pieces ++ ' ' :: ' ' :: cronbatTag).head? = some '#') := by
    rw [List.head?_append_of_ne_nil _ (fun none => by simp [none] at starts), starts, ← first]
    simpa using job.uncommented
  have tagged : contains (joinFields pieces ++ ' ' :: ' ' :: cronbatTag) cronbatTag = true := by
    rw [contains_tag_append_space, untagged]
    decide
  have long : ¬ (fields j.schedule.toList ++ wrapFields cronbatBin absConfig j).length < 6 := by
    simp only [List.length_append, wrapFields, List.length_cons, job.five]
    omega
  rw [trimSpace_tagged starts solid, if_neg uncommented, tagged]
  simp only [Bool.not_true, Bool.false_eq_true, if_false, parts, long, List.take_left' job.five,
    List.drop_left' job.five, job.schedule]

theorem parseWrapCommand_wrapFields {cronbatBin absConfig : List Char} {j : Config.Job} (bin : InstallPath cronbatBin)
    (config : InstallPath absConfig) (job : Reimportable j) :
    parseWrapCommand (joinFields (wrapFields cronbatBin absConfig j)) = some (j.command.toList, j.name.toList) := by
  obtain ⟨x, xs, split⟩ : ∃ x xs, fields j.command.toList = x :: xs :=
    List.exists_cons_of_ne_nil fun none => job.nonempty (by rw [← job.command, none]; rfl)
  have words : ∀ w ∈ wrapFields cronbatBin absConfig j, Word w := by
    simp only [wrapFields, List.mem_cons]
    rintro w (rfl | rfl | rfl | rfl | rfl | rfl | rfl | mem)
    any_goals decide
    · exact bin.1
    · exact job.name
    · exact config.1
    · exact word_of_mem_fields mem
  have wrap : contains (joinFields (wrapFields cronbatBin absConfig j)) "wrap".toList = true := by
    rw [wrapFields, joinFields, Cron.intercalate_cons _ _ (List.cons_ne_nil _ _), Cron.intercalate_cons _ _ (List.cons_ne_nil _ _),
      List.append_cons]
    exact contains_append_of_prefix _ (List.prefix_append _ _)
  rw [parseWrapCommand, wrap, fields_joinFields_words words, wrapFields, split]
  simp only [scanWrap, bin.2.1, bin.2.2.1, config.2.1, config.2.2.1, show "wrap".toList ≠ "--name".toList by decide,
    show "wrap".toList ≠ "--".toList by decide, show "--config".toList ≠ "--name".toList by decide,
    show "--config".toList ≠ "--".toList by decide, show "--".toList ≠ "--name".toList by decide, if_false, if_true,
    job.name.1, List.cons_ne_nil, or_self, Bool.not_true, Bool.false_eq_true]
  rw [← split, job.command]

/-- `cron-sync import` reads a job line back as the job, unless an earlier entry took its name. -/
theorem importLine_wrapLine {cronbatBin absConfig : List Char} {j : Config.Job} (bin : InstallPath cronbatBin)
    (config : InstallPath absConfig) (job : Reimportable j) (pfx : List Char) (st : Import) :
    importLine pfx st (wrapLine cronbatBin absConfig j) =
      if j.name.toList ∈ st.seen then st
      else ⟨st.entries ++ [⟨j.name.toList, j.schedule.toList, j.command.toList⟩], j.name.toList :: st.seen⟩ := by
  rw [importLine, lineFields_wrapLine bin config job]
  simp only [parseWrapCommand_wrapFields bin config job]

/-! ## The installed block read back -/

instance : DecidablePred Tagged := fun _ => inferInstanceAs (Decidable (_ ∧ _))

theorem importLine_untagged (pfx : List Char) {line : List Char} (untagged : ¬ Tagged line) (st : Import) :
    importLine pfx st line = st := by
  rw [importLine, Option.not_isSome_iff_eq_none.mp fun some => untagged ((lineFields_isSome line).mp some)]

theorem foldl_importLine_untagged (pfx : List Char) {lines : List (List Char)} (untagged : ∀ line ∈ lines, ¬ Tagged line)
    (st : Import) : lines.foldl (importLine pfx) st = st := by
  induction lines generalizing st with
  | nil => rfl
  | cons line rest ih =>
    rw [List.foldl_cons, importLine_untagged pfx (untagged line (List.mem_cons_self _ _))]
    exact ih (fun l mem => untagged l (List.mem_cons_of_mem _ mem)) st

/-- Reading the job lines of distinct names none of which is seen yet adds one entry per job,
in order. -/
theorem foldl_wrapLines {cronbatBin absConfig : List Char} (bin : InstallPath cronbatBin) (config : InstallPath absConfig)
    (pfx : List Char) {js : List Config.Job} (each : ∀ j ∈ js, Reimportable j) (distinct : (js.map (·.name)).Nodup)
    (st : Import) (fresh : ∀ j ∈ js, j.name.toList ∉ st.seen) :
    ((js.map (wrapLine cronbatBin absConfig)).foldl (importLine pfx) st).entries =
      st.entries ++ js.map fun j => ⟨j.name.toList, j.schedule.toList, j.command.toList⟩ := by
  induction js generalizing st with
  | nil => simp
  | cons j js ih =>
    rw [List.map_cons, List.nodup_cons] at distinct
    rw [List.map_cons, List.foldl_cons, importLine_wrapLine bin config (each j (List.mem_cons_self _ _)),
      if_neg (fresh j (List.mem_cons_self _ _)), ih (fun k mem => each k (List.mem_cons_of_mem _ mem)) distinct.2]
    · simp
    · intro k mem seen
      rcases List.mem_cons.mp seen with same | old
      · exact distinct.1 (List.mem_map.mpr ⟨k, mem, String.ext same⟩)
      · exact fresh k (List.mem_cons_of_mem _ mem) old

theorem newline_not_mem_of_spaced {s : List Char} (spaced : joinFields (fields s) = s) : '\n' ∉ s := fun mem => by
  rw [← spaced] at mem
  rcases mem_intercalate mem with blank | ⟨w, field, inField⟩
  · cases blank
  · exact absurd ((word_of_mem_fields field).2 _ inField) (by decide)

theorem Word.newline_not_mem {w : List Char} (word : Word w) : '\n' ∉ w := fun mem => absurd (word.2 _ mem) (by decide)

/-- The lines of a merged crontab: the lines kept from before the old block, the new block's
lines, then lines that are empty or kept from after the old block. -/
theorem lines_mergeCrontab (existing : List Char) {block : List (List Char)} (single : ∀ line ∈ block, '\n' ∉ line)
    (ne : block ≠ []) :
    ∃ rest, splitChar '\n' (mergeCrontab existing (unlines block)) =
      (linesBefore (splitChar '\n' existing)).rdropWhile List.isEmpty ++ block ++ rest ∧
      ∀ line ∈ rest, line = [] ∨ line ∈ linesAfter (splitChar '\n' existing) := by
  rw [mergeCrontab_parts]
  set kept := (linesBefore (splitChar '\n' existing)).rdropWhile List.isEmpty
  set tail := (linesAfter (splitChar '\n' existing)).dropWhile List.isEmpty
  have keptSingle : ∀ line ∈ kept, '\n' ∉ line := fun line mem => not_mem_of_mem_splitChar
    (((List.rdropWhile_prefix _ _).sublist.trans ((List.filter_sublist _).trans (List.takeWhile_prefix _).sublist)).subset mem)
  have tailSingle : ∀ line ∈ tail, '\n' ∉ line := fun line mem => not_mem_of_mem_splitChar
    (((List.dropWhile_sublist _).trans ((outside_sublist _ _).trans ((List.drop_sublist _ _).trans
      (List.dropWhile_sublist _)))).subset mem)
  have allSingle : ∀ line ∈ kept ++ block, '\n' ∉ line := fun line mem =>
    (List.mem_append.mp mem).elim (keptSingle line) (single line)
  by_cases empty : joinLines tail = []
  · refine ⟨[[]], ?_, by simp⟩
    rw [empty, List.append_nil, ← unlines_append, newlineTerminated_unlines (by simp [ne]), ← List.append_nil (unlines _),
      splitChar_unlines_append allSingle]
    rfl
  · have tailNe : tail ≠ [] := fun none => empty (by rw [none]; rfl)
    refine ⟨splitChar '\n' (newlineTerminated (joinLines tail)), ?_, fun line mem =>
      (mem_lines_newlineTerminated tailSingle tailNe mem).imp_right (List.dropWhile_subset _ ·)⟩
    rw [← unlines_append, newlineTerminated_append _ empty, splitChar_unlines_append allSingle]

/-- Whatever the crontab, so long as the lines a merge keeps from it are no lines
`cron-sync import` takes an entry from, importing the crontab with the install block merged in
gives back every enabled job, in order, with its name, schedule and command, when the binary and
config paths are single fields without the tag, the enabled jobs have distinct names, and each has
a five-field schedule and a command written with single spaces. -/
theorem parseCronbatEntries_merged_installBlock {cronbatBin absConfig existing : List Char} {jobs : List Config.Job}
    (pfx : List Char) (bin : InstallPath cronbatBin) (config : InstallPath absConfig)
    (reimportable : ∀ j ∈ jobs, j.isEnabled → Reimportable j) (distinct : ((jobs.filter (·.isEnabled)).map (·.name)).Nodup)
    (foreign : ∀ line ∈ linesBefore (splitChar '\n' existing) ++ linesAfter (splitChar '\n' existing), ¬ Tagged line) :
    parseCronbatEntries (mergeCrontab existing (installBlock cronbatBin absConfig jobs)) pfx =
      (jobs.filter (·.isEnabled)).map fun j => ⟨j.name.toList, j.schedule.toList, j.command.toList⟩ := by
  have each : ∀ j ∈ jobs.filter (·.isEnabled), Reimportable j := fun j mem =>
    reimportable j (List.mem_filter.mp mem).1 (List.mem_filter.mp mem).2
  have single : ∀ line ∈ cronbatBeginMarker :: (jobs.filter (·.isEnabled)).map (wrapLine cronbatBin absConfig) ++
      [cronbatEndMarker], '\n' ∉ line := by
    simp only [List.cons_append, List.mem_cons, List.mem_append, List.mem_map, List.mem_singleton, List.not_mem_nil,
      or_false]
    rintro line (rfl | ⟨j, mem, rfl⟩ | rfl)
    · decide
    · have job := each j mem
      exact wrapLine_single bin.1.newline_not_mem config.1.newline_not_mem
        ⟨newline_not_mem_of_spaced job.schedule, job.name.newline_not_mem, newline_not_mem_of_spaced job.command⟩
    · decide
  obtain ⟨rest, lines, restLines⟩ := lines_mergeCrontab existing single (List.cons_ne_nil _ _)
  have begin : ¬ Tagged cronbatBeginMarker := fun tagged => tagged.2.1 (by decide)
  have ending : ¬ Tagged cronbatEndMarker := fun tagged => tagged.2.1 (by decide)
  have kept : ∀ line ∈ (linesBefore (splitChar '\n' existing)).rdropWhile List.isEmpty, ¬ Tagged line :=
    fun line mem => foreign line (List.mem_append_left _ ((List.rdropWhile_prefix _ _).subset mem))
  have after : ∀ line ∈ rest, ¬ Tagged line := fun line mem => (restLines line mem).elim
    (fun blank tagged => tagged.1 (by rw [blank]; rfl)) fun mem => foreign line (List.mem_append_right _ mem)
  rw [parseCronbatEntries, installBlock, lines, List.foldl_append, List.foldl_append, foldl_importLine_untagged pfx kept,
    foldl_importLine_untagged pfx after, List.foldl_append, List.foldl_cons, List.foldl_cons, List.foldl_nil,
    importLine_untagged pfx ending, importLine_untagged pfx begin,
    foldl_wrapLines bin config pfx each distinct _ fun _ _ => List.not_mem_nil _]
  rfl

/-- **Install, then import.** Importing the crontab that `cron-sync install` leaves behind gives
back every enabled job, in order, with its name, schedule and command, under the hypotheses of
`parseCronbatEntries_merged_installBlock`; with no jobs at all the install writes nothing, and
the import then reads whatever the crontab already held, an earlier managed block included. -/
theorem install_then_import {cronbatBin absConfig existing : List Char} {jobs : List Config.Job} (pfx : List Char)
    (bin : InstallPath cronbatBin) (config : InstallPath absConfig)
    (reimportable : ∀ j ∈ jobs, j.isEnabled → Reimportable j) (distinct : ((jobs.filter (·.isEnabled)).map (·.name)).Nodup)
    (foreign : ∀ line ∈ linesBefore (splitChar '\n' existing) ++ linesAfter (splitChar '\n' existing), ¬ Tagged line) :
    parseCronbatEntries (runCronSyncInstall cronbatBin absConfig existing jobs) pfx =
      if jobs.isEmpty then parseCronbatEntries existing pfx
      else (jobs.filter (·.isEnabled)).map fun j => ⟨j.name.toList, j.schedule.toList, j.command.toList⟩ := by
  unfold runCronSyncInstall
  split
  · rfl
  · exact parseCronbatEntries_merged_installBlock pfx bin config reimportable distinct foreign

/-- An enabled job and a disabled one installed into a crontab with one line of its own. -/
theorem install_then_import_backup :
    let backup : Config.Job := ⟨"backup", "0 2 * * *", "backup.sh --all", "", "", "", [], none, [], [], none, [], ""⟩
    let paused : Config.Job := ⟨"paused", "@daily", "true", "", "", "", [], some false, [], [], none, [], ""⟩
    parseCronbatEntries (runCronSyncInstall "/usr/local/bin/cronbat".toList "/etc/cronbat.yaml".toList
        "0 1 * * * logrotate /etc/logrotate.conf\n".toList [backup, paused]) "cron-".toList =
      [⟨"backup".toList, "0 2 * * *".toList, "backup.sh --all".toList⟩] :=
  (install_then_import "cron-".toList (by decide) (by decide)
    (by
      intro j mem enabled
      rcases List.mem_pair.mp mem with rfl | rfl
      · exact ⟨by decide, by decide, by decide, by decide, by decide, by decide, by decide⟩
      · cases enabled)
    (by decide) (by decide)).trans (if_neg (by decide))

end Cronbat.CronImport
