import Cronbat.Time

/-! The cron library behind `scheduler.ParseSchedule` and `scheduler.NextTime`
(`github.com/robfig/cron/v3`, outside this repository): the parser configured with
`Minute | Hour | Dom | Month | Dow | Descriptor`, the two schedules it returns, and their `Next`.
`SpecSchedule.Next` is the library's field-by-field search, which gives up and returns the zero
time once it passes five years beyond its start. The host is taken to have no zoneinfo
database, so `TZ=` prefixes resolve only `UTC` and `Local`, and every schedule runs in UTC. -/
namespace Cronbat.Cron
open Cronbat

/-- `bounds`: a field's range and the names it accepts. -/
structure Bounds where
  min : Nat
  max : Nat
  names : List (String × Nat)

def seconds : Bounds := ⟨0, 59, []⟩
def minutes : Bounds := ⟨0, 59, []⟩
def hours : Bounds := ⟨0, 23, []⟩
def dom : Bounds := ⟨1, 31, []⟩
def months : Bounds := ⟨1, 12, [("jan", 1), ("feb", 2), ("mar", 3), ("apr", 4), ("may", 5),
  ("jun", 6), ("jul", 7), ("aug", 8), ("sep", 9), ("oct", 10), ("nov", 11), ("dec", 12)]⟩
def dow : Bounds := ⟨0, 6, [("sun", 0), ("mon", 1), ("tue", 2), ("wed", 3), ("thu", 4),
  ("fri", 5), ("sat", 6)]⟩

/-- `starBit`: set when a field was written with `*` or `?`. -/
def starBit : Nat := 2 ^ 63

/-- `SpecSchedule`: one bit set per admitted value of each field. -/
structure SpecSchedule where
  second : Nat
  minute : Nat
  hour : Nat
  dom : Nat
  month : Nat
  dow : Nat
  deriving DecidableEq, Repr

/-- `cron.Schedule` as the parser builds it: a `*SpecSchedule`, or the
`ConstantDelaySchedule` of `@every` with its delay in nanoseconds. -/
inductive Schedule where
  | spec (s : SpecSchedule)
  | constantDelay (delay : Int)
  deriving DecidableEq, Repr

/-! ## Parsing -/

/-- Go's `unicode.IsSpace`. -/
def isSpace (c : Char) : Bool :=
  c = ' ' || c = '\t' || c = '\n' || c = '\x0b' || c = '\x0c' || c = '\r' || c = '\x85' ||
    c = '\xa0' || c = '\u1680' || ('\u2000' ≤ c && c ≤ '\u200a') || c = '\u2028' ||
    c = '\u2029' || c = '\u202f' || c = '\u205f' || c = '\u3000'

/-- `strings.Split` at a one-character separator: `n` separators give `n + 1` pieces. -/
def splitChar (sep : Char) : List Char → List (List Char)
  | [] => [[]]
  | c :: rest =>
    if c = sep then [] :: splitChar sep rest
    else match splitChar sep rest with
      | piece :: pieces => (c :: piece) :: pieces
      | [] => [[c]]

/-- `strings.Split` at a rune is `List.splitOn`. -/
theorem splitChar_eq_splitOn (sep : Char) (cs : List Char) : splitChar sep cs = cs.splitOn sep := by
  induction cs with
  | nil => rfl
  | cons c rest ih =>
    have pieces : splitChar sep rest ≠ [] := ih ▸ List.splitOnP_ne_nil _ _
    rw [splitChar, List.splitOn, List.splitOnP_cons, ← List.splitOn, ← ih]
    by_cases hit : c = sep
    · simp [hit]
    · obtain ⟨piece, pieces, split⟩ := List.exists_cons_of_ne_nil pieces
      simp [hit, split]

theorem splitChar_of_not_mem {sep : Char} {cs : List Char} (absent : sep ∉ cs) : splitChar sep cs = [cs] := by
  rw [splitChar_eq_splitOn]
  exact List.splitOnP_eq_single _ _ fun c mem same => absent (by simpa using beq_iff_eq.mp same ▸ mem)

/-- Splitting two texts joined at a separator splits each. -/
theorem splitChar_append (sep : Char) (s t : List Char) :
    splitChar sep (s ++ sep :: t) = splitChar sep s ++ splitChar sep t := by
  induction s with
  | nil => simp [splitChar]
  | cons c rest ih =>
    have pieces : splitChar sep rest ≠ [] := by rw [splitChar_eq_splitOn]; exact List.splitOnP_ne_nil _ _
    obtain ⟨piece, pieces, split⟩ := List.exists_cons_of_ne_nil pieces
    rw [List.cons_append, splitChar, ih, split]
    by_cases hit : c = sep <;> simp [splitChar, hit, split]

/-- No piece of `strings.Split` holds the separator. -/
theorem not_mem_of_mem_splitChar {sep : Char} {s piece : List Char} (mem : piece ∈ splitChar sep s) : sep ∉ piece := by
  induction s generalizing piece with
  | nil => simp_all [splitChar]
  | cons c rest ih =>
    rw [splitChar] at mem
    by_cases hit : c = sep
    · rw [if_pos hit, List.mem_cons] at mem
      rcases mem with rfl | mem
      · simp
      · exact ih mem
    · rw [if_neg hit] at mem
      split at mem
      · rename_i piece pieces split
        rw [List.mem_cons] at mem
        rcases mem with rfl | mem
        · simpa [Ne.symm hit] using ih (split ▸ List.mem_cons_self piece pieces)
        · exact ih (split ▸ List.mem_cons_of_mem piece mem)
      · rw [List.mem_singleton] at mem
        simpa [mem] using Ne.symm hit

section Join
variable {α : Type} (sep : α)

/-- `strings.Join` of more than one piece puts the separator after the first. -/
theorem intercalate_cons {rest : List (List α)} (piece : List α) (more : rest ≠ []) :
    [sep].intercalate (piece :: rest) = piece ++ sep :: [sep].intercalate rest := by
  obtain ⟨next, rest, rfl⟩ := List.exists_cons_of_ne_nil more
  simp [List.intercalate]

/-- `strings.Join` writes every piece but the last with a separator after it. -/
theorem intercalate_append_singleton (pieces : List (List α)) (piece : List α) :
    [sep].intercalate (pieces ++ [piece]) = pieces.flatMap (· ++ [sep]) ++ piece := by
  induction pieces with
  | nil => simp [List.intercalate]
  | cons first rest ih =>
    rw [List.cons_append, intercalate_cons _ _ (by simp), ih]
    simp

/-- With at least one piece, writing each with a separator after it is joining them and adding
one separator. -/
theorem flatMap_append_sep {pieces : List (List α)} (ne : pieces ≠ []) :
    pieces.flatMap (· ++ [sep]) = [sep].intercalate pieces ++ [sep] := by
  induction pieces using List.reverseRecOn with
  | nil => contradiction
  | append_singleton init piece _ => simp [intercalate_append_singleton]
end Join

/-- `strings.Fields`: the maximal runs of non-space characters. -/
def fields (cs : List Char) : List (List Char) :=
  ((cs.map fun c => if isSpace c then ' ' else c) |> splitChar ' ').filter (· ≠ [])

/-- `strings.TrimSpace`. -/
def trimSpace (cs : List Char) : List Char :=
  ((cs.dropWhile isSpace).reverse.dropWhile isSpace).reverse

theorem trimSpace_trimSpace (cs : List Char) : trimSpace (trimSpace cs) = trimSpace cs := by
  show List.rdropWhile isSpace ((List.rdropWhile isSpace (cs.dropWhile isSpace)).dropWhile isSpace) =
    List.rdropWhile isSpace (cs.dropWhile isSpace)
  generalize hd : cs.dropWhile isSpace = d
  have first : d.dropWhile isSpace = d := hd ▸ List.dropWhile_idempotent _ _
  have lead : (List.rdropWhile isSpace d).dropWhile isSpace = List.rdropWhile isSpace d := by
    have leading := List.rdropWhile_prefix (p := isSpace) (l := d)
    generalize List.rdropWhile isSpace d = r at leading ⊢
    obtain ⟨t, rfl⟩ := leading
    rw [List.dropWhile_eq_self_iff]
    intro hl
    have := List.dropWhile_eq_self_iff.mp first (by rw [List.length_append]; omega)
    simpa [List.getElem_append_left hl] using this
  rw [lead, List.rdropWhile_idempotent]

/-- `strconv.IsPrint` on Latin-1; its tables beyond U+00FF are not modelled, and every rune past
it counts as printable. -/
def isPrint (c : Char) : Bool :=
  if c.toNat ≤ 0xFF then (0x20 ≤ c.toNat ∧ c.toNat ≤ 0x7E) ∨ (0xA1 ≤ c.toNat ∧ c.toNat ≠ 0xAD) else true

/-- `n` in `width` lower-case hexadecimal digits. -/
def hexDigits (width n : Nat) : String :=
  String.mk ((List.range width).reverse.map fun i => Nat.digitChar (n / 16 ^ i % 16))

/-- `strconv.Quote`: the text in double quotes, a quote and a backslash escaped, and a rune that
is not printable written as its C escape, `\xhh` below a space and for DEL, or `\uhhhh`. -/
def strconvQuote (s : String) : String :=
  "\"" ++ String.join (s.toList.map fun c =>
    if c = '"' ∨ c = '\\' then String.mk ['\\', c]
    else if isPrint c then c.toString
    else match c with
      | '\x07' => "\\a"
      | '\x08' => "\\b"
      | '\x0c' => "\\f"
      | '\n' => "\\n"
      | '\r' => "\\r"
      | '\t' => "\\t"
      | '\x0b' => "\\v"
      | _ => if c.toNat < 0x20 ∨ c.toNat = 0x7F then "\\x" ++ hexDigits 2 c.toNat else "\\u" ++ hexDigits 4 c.toNat) ++ "\""

/-- The digit loop of `strconv.ParseUint` in base 10: a byte that is not a digit is a syntax
error, and a digit that takes the value past `2^64 - 1` a range error. -/
def scanDigits : List Char → Nat → Except String Nat
  | [], n => .ok n
  | c :: rest, n =>
    if c.isDigit then
      let n := n * 10 + (c.toNat - '0'.toNat)
      if 2 ^ 64 - 1 < n then .error "value out of range" else scanDigits rest n
    else .error "invalid syntax"

/-- `strconv.Atoi` on a 64-bit host: an optional sign and decimal digits. A text of 1 to 18 bytes
takes the fast path, where anything else is a syntax error; a longer one goes through `ParseInt`,
whose digit loop stops at the first error and whose value must fit in `int64`. -/
def atoi (s : List Char) : Except String Int :=
  let numError := fun (e : String) => Except.error ("strconv.Atoi: parsing " ++ strconvQuote (String.mk s) ++ ": " ++ e)
  let (neg, digits) := match s with
    | '-' :: rest => (true, rest)
    | '+' :: rest => (false, rest)
    | cs => (false, cs)
  if 0 < (String.mk s).utf8ByteSize ∧ (String.mk s).utf8ByteSize < 19 then
    if digits = [] then numError "invalid syntax" else
    match scanDigits digits 0 with
    | .error _ => numError "invalid syntax"
    | .ok n => .ok (if neg then -n else n)
  else if digits = [] then numError "invalid syntax"
  else match scanDigits digits 0 with
    | .error e => numError e
    | .ok n =>
      if neg then (if 2 ^ 63 < n then numError "value out of range" else .ok (-n))
      else if 2 ^ 63 ≤ n then numError "value out of range" else .ok n

/-- `mustParseInt`: `Atoi`, refusing negative numbers. -/
def mustParseInt (s : List Char) : Except String Nat :=
  match atoi s with
  | .error e => .error s!"failed to parse int from {String.mk s}: {e}"
  | .ok v => if v < 0 then .error s!"negative number ({v}) not allowed: {String.mk s}" else .ok v.toNat

example : mustParseInt "x".toList = .error "failed to parse int from x: strconv.Atoi: parsing \"x\": invalid syntax" := rfl
example : mustParseInt "99999999999999999999x".toList =
    .error "failed to parse int from 99999999999999999999x: strconv.Atoi: parsing \"99999999999999999999x\": value out of range" :=
  rfl

/-- `parseIntOrName`: a name is matched after `strings.ToLower`. -/
def parseIntOrName (s : List Char) (names : List (String × Nat)) : Except String Nat :=
  match names.lookup (String.mk (s.map Char.toLower)) with
  | some v => .ok v
  | none => mustParseInt s

/-- `getBits`: every `step`-th value from `lo` up to `hi`. -/
def getBits (lo hi step : Nat) : Nat :=
  ((List.range (hi + 1)).filter fun i => lo ≤ i ∧ (i - lo) % step = 0).foldl (fun b i => b ||| 2 ^ i) 0

/-- `all`: the whole range, with the star bit. -/
def all (r : Bounds) : Nat := getBits r.min r.max 1 ||| starBit

/-- `getRange`: `number | number "-" number [ "/" number ]`, or `*`/`?` for the whole range. -/
def getRange (expr : List Char) (r : Bounds) : Except String Nat := do
  let rangeAndStep := splitChar '/' expr
  let lowAndHigh := splitChar '-' (rangeAndStep.headD [])
  let singleDigit := lowAndHigh.length = 1
  let low := lowAndHigh.headD []
  let (start, stop, extra) ← if low = ['*'] ∨ low = ['?'] then pure (r.min, r.max, starBit) else do
    let start ← parseIntOrName low r.names
    match lowAndHigh with
    | [_] => pure (start, start, 0)
    | [_, high] => pure (start, ← parseIntOrName high r.names, 0)
    | _ => throw s!"too many hyphens: {String.mk expr}"
  let (stop, step, extra) ← match rangeAndStep with
    | [_] => pure (stop, 1, extra)
    | [_, stepText] => do
      let step ← mustParseInt stepText
      pure (if singleDigit then r.max else stop, step, if 1 < step then 0 else extra)
    | _ => throw s!"too many slashes: {String.mk expr}"
  if start < r.min then throw s!"beginning of range ({start}) below minimum ({r.min}): {String.mk expr}"
  if r.max < stop then throw s!"end of range ({stop}) above maximum ({r.max}): {String.mk expr}"
  if stop < start then
    throw s!"beginning of range ({start}) beyond end of range ({stop}): {String.mk expr}"
  if step = 0 then throw s!"step of range should be a positive number: {String.mk expr}"
  pure (getBits start stop step ||| extra)

/-- `getField`: the union over the comma-separated ranges (`strings.FieldsFunc` drops empty
pieces). -/
def getField (field : List Char) (r : Bounds) : Except String Nat :=
  ((splitChar ',' field).filter (· ≠ [])).foldlM (fun bits expr => (bits ||| ·) <$> getRange expr r) 0

/-- `SpecSchedule` of a descriptor: second, minute and hour at their minimum. -/
def descriptorSpec (dom month dow hour : Nat) : SpecSchedule :=
  ⟨2 ^ seconds.min, 2 ^ minutes.min, hour, dom, month, dow⟩

/-- `Every`: delays under a second become a second, and sub-second parts are dropped. -/
def every (duration : Int) : Schedule :=
  let duration := if duration < Time.second then Time.second else duration
  .constantDelay (duration - duration % Time.second)

/-- `parseDescriptor`. -/
def parseDescriptor (descriptor : List Char) : Except String Schedule :=
  match String.mk descriptor with
  | "@yearly" | "@annually" =>
    .ok (.spec (descriptorSpec (2 ^ dom.min) (2 ^ months.min) (all dow) (2 ^ hours.min)))
  | "@monthly" => .ok (.spec (descriptorSpec (2 ^ dom.min) (all months) (all dow) (2 ^ hours.min)))
  | "@weekly" => .ok (.spec (descriptorSpec (all dom) (all months) (2 ^ dow.min) (2 ^ hours.min)))
  | "@daily" | "@midnight" =>
    .ok (.spec (descriptorSpec (all dom) (all months) (all dow) (2 ^ hours.min)))
  | "@hourly" => .ok (.spec (descriptorSpec (all dom) (all months) (all dow) (all hours)))
  | _ =>
    if "@every ".toList.isPrefixOf descriptor then
      match Time.parseDuration (String.mk (descriptor.drop 7)) with
      | .ok d => .ok (every d)
      | .error e => .error s!"failed to parse duration {String.mk descriptor}: {e}"
    else .error s!"unrecognized descriptor: {String.mk descriptor}"

/-- `time.LoadLocation` on a host without a zoneinfo database. -/
def loadLocation (name : List Char) : Bool := name = [] ∨ name = "UTC".toList ∨ name = "Local".toList

/-- The `TZ=`/`CRON_TZ=` prefix: the rest of the spec after the zone, when the zone loads.
Go slices `spec[eq+1:i]` with `i = -1` when there is no space and panics; the model reports
that as a failure too. -/
def stripLocation (cs : List Char) : Except String (List Char) :=
  if "TZ=".toList.isPrefixOf cs ∨ "CRON_TZ=".toList.isPrefixOf cs then
    match cs.indexOf? ' ', cs.indexOf? '=' with
    | some i, some eq =>
      let name := (cs.drop (eq + 1)).take (i - (eq + 1))
      if loadLocation name then .ok (trimSpace (cs.drop i))
      else .error s!"provided bad location {String.mk name}"
    | _, _ => .error "slice bounds out of range"
  else .ok cs

/-- `cronParser.Parse` for `Minute | Hour | Dom | Month | Dow | Descriptor`: exactly five
fields, with the seconds field defaulted to `0`. -/
def parse (spec : String) : Except String Schedule := do
  if spec = "" then throw "empty spec string"
  let cs ← stripLocation spec.toList
  if "@".toList.isPrefixOf cs then parseDescriptor cs else
  match fields cs with
  | [mi, h, dm, mo, dw] =>
    let second ← getField ['0'] seconds
    let minute ← getField mi minutes
    let hour ← getField h hours
    let dayofmonth ← getField dm dom
    let month ← getField mo months
    let dayofweek ← getField dw dow
    pure (.spec ⟨second, minute, hour, dayofmonth, month, dayofweek⟩)
  | fs =>
    let shown := " ".intercalate (fs.map String.mk)
    throw s!"expected exactly 5 fields, found {fs.length}: [{shown}]"

/-! ## Next activation -/

/-- `dayMatches`: both day restrictions when either was written with a star, else either. -/
def dayMatches (s : SpecSchedule) (t : Time) : Bool :=
  let domMatch := s.dom.testBit t.day.toNat
  let dowMatch := s.dow.testBit t.weekday.toNat
  if s.dom.testBit 63 || s.dow.testBit 63 then domMatch && dowMatch else domMatch || dowMatch

/-- Where `SpecSchedule.Next` stands: at its `WRAP` label, or in the loop of one field. -/
inductive Phase where
  | wrap | month | day | hour | minute | second
  deriving DecidableEq, Repr

/-- The outcome of one step of the search. -/
inductive Search where
  | found (t : Time)
  | continue (phase : Phase) (t : Time) (added : Bool)

/-- One step of `SpecSchedule.Next` from `phase`: a field that matches passes to the next
field; one that does not first resets the finer fields (once, tracked by `added`), then adds a
unit and returns to `WRAP` when the field has wrapped around. -/
def searchStep (s : SpecSchedule) (yearLimit : Int) (phase : Phase) (t : Time) (added : Bool) :
    Search :=
  match phase with
  | .wrap => if yearLimit < t.year then .found Time.zero else .continue .month t added
  | .month =>
    if s.month.testBit t.month.toNat then .continue .day t added else
    let t := if added then t else Time.date t.year t.month 1 0 0 0 0
    let t := t.addDate 0 1 0
    .continue (if t.month = 1 then .wrap else .month) t true
  | .day =>
    if dayMatches s t then .continue .hour t added else
    let t := if added then t else Time.date t.year t.month t.day 0 0 0 0
    let t := t.addDate 0 0 1
    let t := if t.hour = 0 then t
      else if 12 < t.hour then t.add ((24 - t.hour) * 3600 * Time.second)
      else t.add (-t.hour * 3600 * Time.second)
    .continue (if t.day = 1 then .wrap else .day) t true
  | .hour =>
    if s.hour.testBit t.hour.toNat then .continue .minute t added else
    let t := if added then t else Time.date t.year t.month t.day t.hour 0 0 0
    let t := t.add (3600 * Time.second)
    .continue (if t.hour = 0 then .wrap else .hour) t true
  | .minute =>
    if s.minute.testBit t.minute.toNat then .continue .second t added else
    let t := if added then t else t.truncate (60 * Time.second)
    let t := t.add (60 * Time.second)
    .continue (if t.minute = 0 then .wrap else .minute) t true
  | .second =>
    if s.second.testBit t.sec.toNat then .found t else
    let t := if added then t else t.truncate Time.second
    let t := t.add Time.second
    .continue (if t.sec = 0 then .wrap else .second) t true

/-- The search loop. Every turn adds at least a second or moves to a later phase, and `WRAP`
stops the search after five years, so the loop ends long before the fuel it is given. -/
def search (s : SpecSchedule) (yearLimit : Int) : Nat → Phase → Time → Bool → Time
  | 0, _, _, _ => Time.zero
  | fuel + 1, phase, t, added =>
    match searchStep s yearLimit phase t added with
    | .found t => t
    | .continue phase t added => search s yearLimit fuel phase t added

/-- `SpecSchedule.Next`: the first activation strictly after `t`, starting from the next whole
second, or the zero time when none falls within five years. -/
def SpecSchedule.next (s : SpecSchedule) (t : Time) : Time :=
  let t := t.add (Time.second - t.nanosecond)
  search s (t.year + 5) 1000000000000 .wrap t false

/-- `Schedule.Next`; `ConstantDelaySchedule.Next` rounds to the whole second. -/
def Schedule.next : Schedule → Time → Time
  | .spec s, t => s.next t
  | .constantDelay delay, t => t.add (delay - t.nanosecond)

end Cronbat.Cron
