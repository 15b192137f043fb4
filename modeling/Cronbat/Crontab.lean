import Cronbat.Job

/-! # The managed crontab block

`cron-sync install` writes the enabled jobs into the user's crontab between two marker lines,
and `mergeCrontab` replaces the block an earlier install left there while keeping every other
line. Text is a list of runes, and its lines are what `strings.Split(s, "\n")` makes of it.

`mergeCrontab_parts` says what a merge keeps: the lines before the first begin marker, trailing
empty lines dropped, then the new block, then the lines that lie outside every marked region,
leading empty lines dropped; the marker lines themselves go. A merge therefore forgets the block
it replaces: merging into a merged crontab gives what merging into the original gives, provided
the block merged first is newline-terminated lines that open with a begin marker, close with an
end marker and hold no other marker, as every block `runCronSyncInstall` writes from single-line
fields is (`installBlock_managed`). -/

namespace Cronbat.Crontab
open Cron (splitChar trimSpace splitChar_eq_splitOn not_mem_of_mem_splitChar)

def cronbatBeginMarker : List Char := "# --- cronbat managed begin ---".toList
def cronbatEndMarker : List Char := "# --- cronbat managed end ---".toList
def cronbatTag : List Char := "#cronbat".toList

/-! ## Lines -/

/-- `strings.Join(lines, "\n")`. -/
def joinLines (lines : List (List Char)) : List Char := ['\n'].intercalate lines

/-- The text made of `lines`, each followed by a newline. -/
def unlines (lines : List (List Char)) : List Char := lines.flatMap (· ++ ['\n'])

/-- `s`, with a newline added unless it already ends with one: `mergeCrontab`'s last step. -/
def newlineTerminated (s : List Char) : List Char := if s.getLast? = some '\n' then s else s ++ ['\n']

/-- `strings.TrimSpace(line) == cronbatBeginMarker`. -/
def isBegin (line : List Char) : Bool := decide (trimSpace line = cronbatBeginMarker)

/-- `strings.TrimSpace(line) == cronbatEndMarker`. -/
def isEnd (line : List Char) : Bool := decide (trimSpace line = cronbatEndMarker)

section Text
variable {lines : List (List Char)}

theorem splitChar_unlines_append (single : ∀ line ∈ lines, '\n' ∉ line) (s : List Char) :
    splitChar '\n' (unlines lines ++ s) = lines ++ splitChar '\n' s := by
  induction lines with
  | nil => rfl
  | cons line rest ih =>
    have first : ∀ c ∈ line, ¬ (c == '\n') = true := fun c mem hit => single line (List.mem_cons_self _ _) (by simpa using beq_iff_eq.mp hit ▸ mem)
    rw [unlines, List.flatMap_cons, ← unlines, List.append_assoc, List.append_assoc, List.singleton_append,
      splitChar_eq_splitOn, List.splitOn, List.splitOnP_first _ _ first _ (beq_self_eq_true _), ← List.splitOn,
      ← splitChar_eq_splitOn, ih fun l mem => single l (List.mem_cons_of_mem _ mem), List.cons_append]

theorem joinLines_cons {rest : List (List Char)} (line : List Char) (more : rest ≠ []) :
    joinLines (line :: rest) = line ++ '\n' :: joinLines rest :=
  Cron.intercalate_cons _ line more

@[simp] theorem joinLines_nil : joinLines [] = [] := rfl

@[simp] theorem joinLines_singleton (line : List Char) : joinLines [line] = line := by
  simp [joinLines, List.intercalate]

@[simp] theorem unlines_append (more : List (List Char)) : unlines (lines ++ more) = unlines lines ++ unlines more :=
  List.flatMap_append _ _ _

/-- Joining lines is writing all but the last with their newlines. -/
theorem joinLines_append_singleton (line : List Char) : joinLines (lines ++ [line]) = unlines lines ++ line :=
  Cron.intercalate_append_singleton _ lines line

/-- `strings.TrimLeft(strings.Join(lines, "\n"), "\n")` drops the leading empty lines. -/
theorem dropWhile_joinLines (single : ∀ line ∈ lines, '\n' ∉ line) :
    (joinLines lines).dropWhile (· == '\n') = joinLines (lines.dropWhile List.isEmpty) := by
  induction lines with
  | nil => rfl
  | cons line rest ih =>
    have ih := ih fun l mem => single l (List.mem_cons_of_mem _ mem)
    cases line with
    | nil =>
      cases rest with
      | nil => rfl
      | cons next rest => simpa [joinLines_cons _ (List.cons_ne_nil next rest)] using ih
    | cons c cs =>
      have first : (c == '\n') = false :=
        beq_eq_false_iff_ne.mpr fun hit => single _ (List.mem_cons_self _ _) (hit ▸ List.mem_cons_self _ _)
      cases rest with
      | nil => exact List.dropWhile_cons_of_neg (by simp [first])
      | cons next rest => simp [first, joinLines_cons _ (List.cons_ne_nil next rest)]

/-- `strings.TrimRight(strings.Join(lines, "\n"), "\n")` drops the trailing empty lines. -/
theorem rdropWhile_joinLines (single : ∀ line ∈ lines, '\n' ∉ line) :
    (joinLines lines).rdropWhile (· == '\n') = joinLines (lines.rdropWhile List.isEmpty) := by
  induction lines using List.reverseRecOn with
  | nil => rfl
  | append_singleton init line ih =>
    rw [joinLines_append_singleton]
    induction line using List.reverseRecOn with
    | nil =>
      rw [List.append_nil, List.rdropWhile_concat_pos List.isEmpty _ [] rfl,
        ← ih fun l mem => single l (List.mem_append_left _ mem)]
      induction init using List.reverseRecOn with
      | nil => rfl
      | append_singleton front final _ =>
        have closed : unlines (front ++ [final]) = joinLines (front ++ [final]) ++ ['\n'] := by
          rw [joinLines_append_singleton]; simp [unlines]
        rw [closed]
        exact List.rdropWhile_concat_pos (· == '\n') _ _ rfl
    | append_singleton body last _ =>
      have kept : ¬ (last == '\n') = true := fun hit =>
        single _ (List.mem_append_right _ (List.mem_singleton_self _)) (beq_iff_eq.mp hit ▸ List.mem_append_right _ (List.mem_singleton_self _))
      rw [List.rdropWhile_concat_neg List.isEmpty _ _ (by simp), joinLines_append_singleton, ← List.append_assoc,
        List.rdropWhile_concat_neg (· == '\n') _ _ kept]

/-- `mergeCrontab` writes the kept lines before the block as `beforeStr + "\n"`, or not at all. -/
theorem unlines_rdropWhile (lines : List (List Char)) :
    (if (joinLines (lines.rdropWhile List.isEmpty)) ≠ [] then joinLines (lines.rdropWhile List.isEmpty) ++ ['\n'] else []) =
      unlines (lines.rdropWhile List.isEmpty) := by
  have last := List.rdropWhile_last_not (p := List.isEmpty) (l := lines)
  generalize lines.rdropWhile List.isEmpty = kept at last ⊢
  induction kept using List.reverseRecOn with
  | nil => rfl
  | append_singleton init line _ =>
    have full : line ≠ [] := by simpa [List.isEmpty_iff] using last (by simp)
    rw [joinLines_append_singleton, if_pos (by simp [full])]
    simp [unlines]

theorem unlines_eq_joinLines (ne : lines ≠ []) : unlines lines = joinLines lines ++ ['\n'] :=
  Cron.flatMap_append_sep _ ne

/-- `strings.Split(strings.Join(lines, "\n"), "\n")` gives the lines back. -/
theorem splitChar_joinLines (single : ∀ line ∈ lines, '\n' ∉ line) (ne : lines ≠ []) :
    splitChar '\n' (joinLines lines) = lines := by
  rw [splitChar_eq_splitOn]
  exact List.splitOn_intercalate _ '\n' single ne

theorem joinLines_splitChar (s : List Char) : joinLines (splitChar '\n' s) = s := by
  rw [splitChar_eq_splitOn]
  exact List.intercalate_splitOn s '\n'

theorem dropWhile_newlineTerminated {s : List Char} (ne : s ≠ []) (starts : s.dropWhile (· == '\n') = s) :
    (newlineTerminated s).dropWhile (· == '\n') = newlineTerminated s := by
  unfold newlineTerminated
  split_ifs
  · exact starts
  · rw [List.dropWhile_append, starts, if_neg (by simpa using ne)]

theorem newlineTerminated_append (s : List Char) {t : List Char} (ne : t ≠ []) :
    newlineTerminated (s ++ t) = s ++ newlineTerminated t := by
  simp [newlineTerminated, List.getLast?_append, List.getLast?_eq_none_iff.not.mpr ne]
  split_ifs <;> simp_all

theorem newlineTerminated_ne_nil (s : List Char) : newlineTerminated s ≠ [] := by
  unfold newlineTerminated
  split_ifs with ends
  · rintro rfl; simp at ends
  · simp

theorem newlineTerminated_unlines (ne : lines ≠ []) : newlineTerminated (unlines lines) = unlines lines := by
  simp [newlineTerminated, unlines_eq_joinLines ne]

@[simp] theorem newlineTerminated_newlineTerminated (s : List Char) :
    newlineTerminated (newlineTerminated s) = newlineTerminated s := by
  unfold newlineTerminated
  split_ifs with ends <;> simp_all
end Text

/-! ## The merge -/

/-- The state of `mergeCrontab`'s loop. -/
structure Merge where
  before : List (List Char)
  after : List (List Char)
  inManaged : Bool
  foundManaged : Bool

/-- One turn of `mergeCrontab`'s loop over the existing crontab's lines. -/
def mergeStep (st : Merge) (line : List Char) : Merge :=
  if isBegin line then { st with inManaged := true, foundManaged := true }
  else if isEnd line then { st with inManaged := false }
  else if st.inManaged then st
  else if !st.foundManaged then { st with before := st.before ++ [line] }
  else { st with after := st.after ++ [line] }

/-- `mergeCrontab`. -/
def mergeCrontab (existing managed : List Char) : List Char :=
  let st := (splitChar '\n' existing).foldl mergeStep ⟨[], [], false, false⟩
  let beforeStr := (joinLines st.before).rdropWhile (· == '\n')
  let result := (if beforeStr ≠ [] then beforeStr ++ ['\n'] else []) ++ managed
  let afterStr := (joinLines st.after).dropWhile (· == '\n')
  let result := if afterStr ≠ [] then result ++ afterStr else result
  newlineTerminated result

/-- The lines before the first begin marker, end markers left out. -/
def linesBefore (lines : List (List Char)) : List (List Char) :=
  (lines.takeWhile (!isBegin ·)).filter (!isEnd ·)

/-- The lines outside every marked region, marker lines left out, when the first of them lies
inside a region iff `inside`. A region runs from a begin marker to the next end marker, or to
the end. -/
def outside (inside : Bool) : List (List Char) → List (List Char)
  | [] => []
  | line :: rest =>
    if isBegin line then outside true rest
    else if isEnd line then outside false rest
    else if inside then outside true rest
    else line :: outside false rest

/-- The lines after the first begin marker that lie outside every marked region. -/
def linesAfter (lines : List (List Char)) : List (List Char) :=
  outside true ((lines.dropWhile (!isBegin ·)).drop 1)

theorem outside_sublist (inside : Bool) (lines : List (List Char)) : (outside inside lines).Sublist lines := by
  induction lines generalizing inside with
  | nil => exact List.Sublist.slnil
  | cons line rest ih =>
    unfold outside
    split_ifs
    · exact (ih _).cons _
    · exact (ih _).cons _
    · exact (ih _).cons _
    · exact (ih _).cons₂ _

/-- Once the first begin marker has been seen, the loop adds to `after` exactly the lines outside
every region. -/
theorem foldl_mergeStep_found (lines : List (List Char)) (before after : List (List Char)) (inManaged : Bool) :
    (lines.foldl mergeStep ⟨before, after, inManaged, true⟩).before = before ∧
      (lines.foldl mergeStep ⟨before, after, inManaged, true⟩).after = after ++ outside inManaged lines := by
  induction lines generalizing after inManaged with
  | nil => simp [outside]
  | cons line rest ih =>
    rw [List.foldl_cons, outside]
    by_cases opens : isBegin line
    · simpa [mergeStep, opens] using ih after true
    · by_cases closes : isEnd line
      · simpa [mergeStep, opens, closes] using ih after false
      · cases inManaged
        · simpa [mergeStep, opens, closes] using ih (after ++ [line]) false
        · simpa [mergeStep, opens, closes] using ih after true

/-- The whole loop: `before` and `after` are `linesBefore` and `linesAfter` of the lines. -/
theorem foldl_mergeStep (lines : List (List Char)) (before : List (List Char)) :
    (lines.foldl mergeStep ⟨before, [], false, false⟩).before = before ++ linesBefore lines ∧
      (lines.foldl mergeStep ⟨before, [], false, false⟩).after = linesAfter lines := by
  induction lines generalizing before with
  | nil => simp [linesBefore, linesAfter, outside]
  | cons line rest ih =>
    rw [List.foldl_cons]
    by_cases opens : isBegin line
    · have := foldl_mergeStep_found rest before [] true
      simp only [mergeStep, opens, if_true] at this ⊢
      simpa [linesBefore, linesAfter, opens] using this
    · by_cases closes : isEnd line
      · simpa [mergeStep, linesBefore, linesAfter, opens, closes] using ih before
      · simpa [mergeStep, linesBefore, linesAfter, opens, closes] using ih (before ++ [line])

/-- What `mergeCrontab` keeps: the lines before the first begin marker, end markers removed and
trailing empty lines dropped, each with its newline; then the new block; then the lines outside
every marked region, markers removed and leading empty lines dropped; and a final newline when
that text does not end with one. -/
theorem mergeCrontab_parts (existing managed : List Char) :
    mergeCrontab existing managed =
      newlineTerminated (unlines ((linesBefore (splitChar '\n' existing)).rdropWhile List.isEmpty) ++ managed ++
        joinLines ((linesAfter (splitChar '\n' existing)).dropWhile List.isEmpty)) := by
  obtain ⟨before, after⟩ := foldl_mergeStep (splitChar '\n' existing) []
  have single : ∀ sub : List (List Char), sub.Sublist (splitChar '\n' existing) → ∀ line ∈ sub, '\n' ∉ line :=
    fun sub sub' line mem => not_mem_of_mem_splitChar (sub'.subset mem)
  have singleBefore : ∀ line ∈ linesBefore (splitChar '\n' existing), '\n' ∉ line :=
    single _ ((List.filter_sublist _).trans (List.takeWhile_prefix _).sublist)
  have singleAfter : ∀ line ∈ linesAfter (splitChar '\n' existing), '\n' ∉ line :=
    single _ ((outside_sublist _ _).trans ((List.drop_sublist _ _).trans (List.dropWhile_sublist _)))
  rw [mergeCrontab, before, List.nil_append, rdropWhile_joinLines singleBefore, unlines_rdropWhile, after,
    dropWhile_joinLines singleAfter]
  split_ifs with kept
  · rfl
  · simp only [not_not] at kept
    simp [kept]

/-! ## Merging again -/

/-- A line that is neither marker. -/
def Unmarked (line : List Char) : Prop := isBegin line = false ∧ isEnd line = false

instance : DecidablePred Unmarked := fun _ => inferInstanceAs (Decidable (_ ∧ _))

/-- A block as `runCronSyncInstall` writes one: newline-terminated lines, the first a begin
marker, the last an end marker, and no marker between. -/
def ManagedBlock (block : List Char) : Prop :=
  ∃ first body last, splitChar '\n' block = first :: body ++ [last, []] ∧ isBegin first ∧ isEnd last ∧
    ∀ line ∈ body, Unmarked line

theorem outside_of_unmarked (inside : Bool) {lines : List (List Char)} (unmarked : ∀ line ∈ lines, Unmarked line) :
    outside inside lines = if inside then [] else lines := by
  induction lines with
  | nil => cases inside <;> rfl
  | cons line rest ih =>
    obtain ⟨opens, closes⟩ := unmarked line (List.mem_cons_self _ _)
    cases inside <;> simp [outside, opens, closes, ih fun l mem => unmarked l (List.mem_cons_of_mem _ mem)]

theorem unmarked_of_mem_outside {inside : Bool} {lines : List (List Char)} {line : List Char}
    (mem : line ∈ outside inside lines) : Unmarked line := by
  induction lines generalizing inside with
  | nil => simp [outside] at mem
  | cons first rest ih =>
    unfold outside at mem
    split_ifs at mem with opens closes
    · exact ih mem
    · exact ih mem
    · exact ih mem
    · rcases List.mem_cons.mp mem with rfl | mem
      · exact ⟨by simpa using opens, by simpa using closes⟩
      · exact ih mem

theorem isBegin_of_isEnd {line : List Char} (closes : isEnd line) : isBegin line = false := by
  simp only [isEnd, isBegin, decide_eq_true_eq, decide_eq_false_iff_not] at closes ⊢
  rw [closes]
  decide

/-- The lines of a merged crontab: the kept lines before the block, the block's lines, and the
lines of what follows it. -/
theorem linesBefore_linesAfter_block {kept body rest : List (List Char)} {first last : List Char}
    (unmarkedKept : ∀ line ∈ kept, Unmarked line) (opens : isBegin first) (closes : isEnd last)
    (unmarkedBody : ∀ line ∈ body, Unmarked line) :
    linesBefore (kept ++ first :: body ++ last :: rest) = kept ∧
      linesAfter (kept ++ first :: body ++ last :: rest) = outside false rest := by
  have notBegin : ∀ line ∈ kept, (!isBegin line) = true := fun line mem => by simp [(unmarkedKept line mem).1]
  constructor
  · rw [linesBefore, List.append_assoc, List.takeWhile_append_of_pos notBegin, List.cons_append,
      List.takeWhile_cons_of_neg (by simpa using opens), List.append_nil, List.filter_eq_self.mpr]
    exact fun line mem => by simp [(unmarkedKept line mem).2]
  · rw [linesAfter, List.append_assoc, List.dropWhile_append_of_pos notBegin, List.cons_append,
      List.dropWhile_cons_of_neg (by simpa using opens), List.drop_one, List.tail_cons]
    clear notBegin unmarkedKept
    induction body with
    | nil => simp [outside, isBegin_of_isEnd closes, closes]
    | cons line body ih =>
      obtain ⟨opens', closes'⟩ := unmarkedBody line (List.mem_cons_self _ _)
      simpa [outside, opens', closes'] using ih fun l mem => unmarkedBody l (List.mem_cons_of_mem _ mem)

/-- The text after a merged block, once `mergeCrontab` has terminated it, splits into lines that
are empty or lines of what it came from. -/
theorem mem_lines_newlineTerminated {lines : List (List Char)} (single : ∀ line ∈ lines, '\n' ∉ line)
    (ne : lines ≠ []) {line : List Char} (mem : line ∈ splitChar '\n' (newlineTerminated (joinLines lines))) :
    line = [] ∨ line ∈ lines := by
  unfold newlineTerminated at mem
  split_ifs at mem
  · exact .inr (splitChar_joinLines single ne ▸ mem)
  · have single' : ∀ l ∈ lines ++ [[]], '\n' ∉ l := fun l mem => by
      rcases List.mem_append.mp mem with mem | mem
      · exact single l mem
      · simp [List.mem_singleton.mp mem]
    rw [← unlines_eq_joinLines ne, ← List.append_nil (unlines lines), ← joinLines_append_singleton,
      splitChar_joinLines single' (by simp)] at mem
    simpa [or_comm] using mem

/-- Merging into a crontab that a merge wrote forgets the block that merge put in: whatever the
second block, the result is what merging it into the original crontab gives. -/
theorem mergeCrontab_remerge (existing block managed : List Char) (shaped : ManagedBlock block) :
    mergeCrontab (mergeCrontab existing block) managed = mergeCrontab existing managed := by
  obtain ⟨first, body, last, blockLines, opens, closes, unmarkedBody⟩ := shaped
  have singleBlock : ∀ line ∈ first :: body ++ [last], '\n' ∉ line := fun line mem =>
    not_mem_of_mem_splitChar (s := block) (by
      rw [blockLines]; simp only [List.mem_cons, List.mem_append, List.mem_singleton] at mem ⊢; tauto)
  have blockText : block = unlines (first :: body ++ [last]) := by
    rw [← joinLines_splitChar block, blockLines, show first :: body ++ [last, []] = (first :: body ++ [last]) ++ [[]] by simp,
      joinLines_append_singleton, List.append_nil]
  subst blockText
  rw [mergeCrontab_parts existing, mergeCrontab_parts existing managed, ← unlines_append]
  set kept := (linesBefore (splitChar '\n' existing)).rdropWhile List.isEmpty
  set tail := (linesAfter (splitChar '\n' existing)).dropWhile List.isEmpty
  have keptTrimmed : kept.rdropWhile List.isEmpty = kept := List.rdropWhile_idempotent _ _
  have tailTrimmed : tail.dropWhile List.isEmpty = tail := List.dropWhile_idempotent _ _
  have keptLines : ∀ line ∈ kept, Unmarked line ∧ '\n' ∉ line := fun line mem => by
    have mem := (List.rdropWhile_prefix _ _).subset mem
    obtain ⟨taken, unended⟩ := List.mem_filter.mp mem
    have taken' := List.mem_takeWhile_imp taken
    exact ⟨⟨by simpa using taken', by simpa using unended⟩,
      not_mem_of_mem_splitChar ((List.takeWhile_prefix _).subset taken)⟩
  have tailLines : ∀ line ∈ tail, Unmarked line ∧ '\n' ∉ line := fun line mem => by
    have mem := List.dropWhile_subset _ mem
    exact ⟨unmarked_of_mem_outside mem,
      not_mem_of_mem_splitChar (((outside_sublist _ _).trans ((List.drop_sublist _ _).trans (List.dropWhile_sublist _))).subset mem)⟩
  have merged : ∀ rest, splitChar '\n' (unlines (kept ++ (first :: body ++ [last])) ++ rest) =
      kept ++ first :: body ++ last :: splitChar '\n' rest := fun rest => by
    rw [splitChar_unlines_append (fun line mem => by
      rcases List.mem_append.mp mem with mem | mem
      · exact (keptLines line mem).2
      · exact singleBlock line mem)]
    simp
  have blockParts := fun rest => @linesBefore_linesAfter_block kept body rest first last
    (fun line mem => (keptLines line mem).1) opens closes unmarkedBody
  by_cases empty : joinLines tail = []
  · rw [empty, List.append_nil, newlineTerminated_unlines (by simp), mergeCrontab_parts _ managed,
      ← List.append_nil (unlines (kept ++ (first :: body ++ [last]))), merged, (blockParts _).1, (blockParts _).2]
    simp [outside, keptTrimmed, isBegin, isEnd, cronbatBeginMarker, cronbatEndMarker, Cron.trimSpace]
  · have tailNe : tail ≠ [] := fun none => empty (by rw [none]; rfl)
    have singleTail : ∀ line ∈ tail, '\n' ∉ line := fun line mem => (tailLines line mem).2
    have starts : (joinLines tail).dropWhile (· == '\n') = joinLines tail := by
      rw [dropWhile_joinLines singleTail, tailTrimmed]
    have unmarkedRest : ∀ line ∈ splitChar '\n' (newlineTerminated (joinLines tail)), Unmarked line := fun line mem =>
      (mem_lines_newlineTerminated singleTail tailNe mem).elim (fun blank => blank ▸ by decide) fun mem => (tailLines line mem).1
    rw [newlineTerminated_append _ empty, mergeCrontab_parts _ managed, merged, (blockParts _).1, (blockParts _).2,
      outside_of_unmarked false unmarkedRest, if_neg Bool.false_ne_true, ← dropWhile_joinLines fun _ => not_mem_of_mem_splitChar,
      joinLines_splitChar, dropWhile_newlineTerminated empty starts, keptTrimmed,
      newlineTerminated_append _ (newlineTerminated_ne_nil _), newlineTerminated_newlineTerminated, ← newlineTerminated_append _ empty,
      List.append_assoc]

/-- What a merge keeps, and that a merge forgets the block it put in: merging again into its
result, whatever the second block, is merging into the original crontab, and merging the same
block twice is merging it once, for every crontab and every block of newline-terminated lines
that opens with a begin marker, closes with an end marker and has no marker between. -/
theorem mergeCrontab_keeps_foreign_lines :
    (∀ existing managed, mergeCrontab existing managed =
      newlineTerminated (unlines ((linesBefore (splitChar '\n' existing)).rdropWhile List.isEmpty) ++ managed ++
        joinLines ((linesAfter (splitChar '\n' existing)).dropWhile List.isEmpty))) ∧
    (∀ existing block managed, ManagedBlock block →
      mergeCrontab (mergeCrontab existing block) managed = mergeCrontab existing managed) ∧
    (∀ existing block, ManagedBlock block → mergeCrontab (mergeCrontab existing block) block = mergeCrontab existing block) :=
  ⟨mergeCrontab_parts, mergeCrontab_remerge, fun existing block => mergeCrontab_remerge existing block block⟩

/-- Re-merging a crontab with the block installed before, for the block of one job line. -/
theorem mergeCrontab_keeps_foreign_lines_once :
    let block := unlines [cronbatBeginMarker, "@daily cronbat wrap --name backup -- backup.sh  #cronbat".toList, cronbatEndMarker]
    let existing := unlines ["MAILTO=ops".toList, cronbatBeginMarker, cronbatEndMarker, "0 1 * * * true".toList]
    ManagedBlock block ∧ mergeCrontab (mergeCrontab existing block) block = mergeCrontab existing block :=
  ⟨⟨_, [_], _, rfl, by decide, by decide, by decide⟩, mergeCrontab_keeps_foreign_lines.2.2 _ _ ⟨_, [_], _, rfl, by decide, by decide, by decide⟩⟩

/-- A block whose end marker has no newline after it loses the next foreign line: in a crontab
that holds an empty block and then the line `z`, merging the block `begin\nend` glues `z` onto its
end marker, and merging it again drops `z`. -/
theorem mergeCrontab_unterminated_block :
    let block := cronbatBeginMarker ++ '\n' :: cronbatEndMarker
    let existing := unlines [cronbatBeginMarker, cronbatEndMarker, ['z']]
    mergeCrontab existing block = unlines [cronbatBeginMarker, cronbatEndMarker ++ ['z']] ∧
      mergeCrontab (mergeCrontab existing block) block = unlines [cronbatBeginMarker, cronbatEndMarker] := by
  decide

/-! ## The installed block -/

/-- The crontab line `runCronSyncInstall` writes for an enabled job:
`fmt.Sprintf("%s %s wrap --name %s --config %s -- %s  %s", j.Schedule, cronbatBin, j.Name,
absConfig, j.Command, cronbatTag)`. -/
def wrapLine (cronbatBin absConfig : List Char) (j : Config.Job) : List Char :=
  j.schedule.toList ++ ' ' :: cronbatBin ++ " wrap --name ".toList ++ j.name.toList ++ " --config ".toList ++ absConfig ++
    " -- ".toList ++ j.command.toList ++ "  ".toList ++ cronbatTag

/-- The block `runCronSyncInstall` merges into the crontab: the begin marker, a line per enabled
job, and the end marker, each with its newline. -/
def installBlock (cronbatBin absConfig : List Char) (jobs : List Config.Job) : List Char :=
  unlines (cronbatBeginMarker :: (jobs.filter (·.isEnabled)).map (wrapLine cronbatBin absConfig) ++ [cronbatEndMarker])

/-- The crontab `runCronSyncInstall` leaves behind, from the loaded jobs and the crontab
`crontab -l` gives: with no jobs it prints "no jobs to install" and returns before the crontab is
read or written; otherwise it writes the block merged into the crontab. -/
def runCronSyncInstall (cronbatBin absConfig existing : List Char) (jobs : List Config.Job) : List Char :=
  if jobs.isEmpty then existing else mergeCrontab existing (installBlock cronbatBin absConfig jobs)

/-- `strings.TrimSpace` keeps a last rune that is not a space. -/
theorem getLast?_trimSpace (s : List Char) {c : Char} (kept : Cron.isSpace c = false) :
    (trimSpace (s ++ [c])).getLast? = some c := by
  obtain ⟨d, dropped⟩ : ∃ d, (s ++ [c]).dropWhile Cron.isSpace = d ++ [c] := by
    rw [List.dropWhile_append]
    split_ifs
    · exact ⟨[], List.dropWhile_cons_of_neg (by simp [kept])⟩
    · exact ⟨_, rfl⟩
  simp [trimSpace, dropped, kept]

/-- A job line ends with the tag, so it trims to neither marker. -/
theorem wrapLine_unmarked (cronbatBin absConfig : List Char) (j : Config.Job) : Unmarked (wrapLine cronbatBin absConfig j) := by
  have tagged : (trimSpace (wrapLine cronbatBin absConfig j)).getLast? = some 't' := by
    rw [wrapLine, show cronbatTag = "#cronba".toList ++ ['t'] from rfl, ← List.append_assoc]
    exact getLast?_trimSpace _ rfl
  constructor <;>
  · refine decide_eq_false fun marker => ?_
    rw [marker] at tagged
    exact absurd tagged (by decide)

theorem wrapLine_single {cronbatBin absConfig : List Char} {j : Config.Job} (bin : '\n' ∉ cronbatBin)
    (config : '\n' ∉ absConfig) (fields : '\n' ∉ j.schedule.toList ∧ '\n' ∉ j.name.toList ∧ '\n' ∉ j.command.toList) :
    '\n' ∉ wrapLine cronbatBin absConfig j := by
  simp only [wrapLine, List.mem_append, List.mem_cons, not_or]
  exact ⟨⟨⟨⟨⟨⟨⟨⟨⟨fields.1, by decide, bin⟩, by decide⟩, fields.2.1⟩, by decide⟩, config⟩, by decide⟩, fields.2.2⟩, by decide⟩, by decide⟩

/-- The block `runCronSyncInstall` writes is a managed block when the binary and config paths
and every job's schedule, name and command are single lines, so re-installing forgets it. -/
theorem installBlock_managed {cronbatBin absConfig : List Char} {jobs : List Config.Job} (bin : '\n' ∉ cronbatBin)
    (config : '\n' ∉ absConfig)
    (fields : ∀ j ∈ jobs, '\n' ∉ j.schedule.toList ∧ '\n' ∉ j.name.toList ∧ '\n' ∉ j.command.toList) :
    ManagedBlock (installBlock cronbatBin absConfig jobs) := by
  refine ⟨cronbatBeginMarker, (jobs.filter (·.isEnabled)).map (wrapLine cronbatBin absConfig), cronbatEndMarker, ?_,
    by decide, by decide, fun line mem => ?_⟩
  · rw [installBlock, ← List.append_nil (unlines _), splitChar_unlines_append]
    · simp [splitChar]
    · intro line mem
      simp only [List.mem_cons, List.mem_append, List.mem_map, List.mem_filter, List.mem_singleton,
        List.not_mem_nil, or_false] at mem
      rcases mem with (rfl | ⟨j, ⟨mem, -⟩, rfl⟩) | rfl
      · decide
      · exact wrapLine_single bin config (fields j mem)
      · decide
  · obtain ⟨j, -, rfl⟩ := List.mem_map.mp mem
    exact wrapLine_unmarked _ _ _

end Cronbat.Crontab
