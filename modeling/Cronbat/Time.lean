import Mathlib

/-! Go's `time.Time` as the daemon uses it: instants at nanosecond resolution, the proleptic
Gregorian calendar they are read in, and the two layouts the code formats them with
(`time.RFC3339Nano` in the run store, `20060102T150405Z` in archive names). Only the UTC zone
is modelled: the store formats `t.UTC()`, and the daemon's local zone, in which the scheduler
computes fire times, is taken to be UTC. -/
namespace Cronbat

/-- A `time.Time` read in UTC: nanoseconds since 1970-01-01T00:00:00Z. -/
structure Time where
  unixNano : Int
  deriving DecidableEq, Repr

namespace Time

instance : LT Time := ⟨fun a b => a.unixNano < b.unixNano⟩
instance : LE Time := ⟨fun a b => a.unixNano ≤ b.unixNano⟩
instance (a b : Time) : Decidable (a < b) := inferInstanceAs (Decidable (a.unixNano < b.unixNano))
instance (a b : Time) : Decidable (a ≤ b) := inferInstanceAs (Decidable (a.unixNano ≤ b.unixNano))

@[simp] theorem lt_def {a b : Time} : a < b ↔ a.unixNano < b.unixNano := Iff.rfl
@[simp] theorem le_def {a b : Time} : a ≤ b ↔ a.unixNano ≤ b.unixNano := Iff.rfl

/-- `time.Second`, in nanoseconds. -/
def second : Int := 1000000000

/-- `t.Before(u)`. -/
def before (t u : Time) : Bool := decide (t < u)

/-- `t.After(u)`. -/
def after (t u : Time) : Bool := decide (u < t)

/-- `t.Add(d)` for a `time.Duration` of `d` nanoseconds. -/
def add (t : Time) (d : Int) : Time := ⟨t.unixNano + d⟩

/-- `time.Time{}`: January 1, year 1, 00:00:00 UTC. -/
def zero : Time := ⟨-62135596800 * second⟩

/-- `t.IsZero()`. -/
def isZero (t : Time) : Bool := t == zero

/-- `t.Nanosecond()`. -/
def nanosecond (t : Time) : Int := t.unixNano % second

/-- `t.Truncate(d)` for `d > 0`: rounded down to a multiple of `d` since the zero time. -/
def truncate (t : Time) (d : Int) : Time := ⟨t.unixNano - (t.unixNano - zero.unixNano) % d⟩

@[simp] theorem before_eq {t u : Time} : t.before u = decide (t < u) := rfl
@[simp] theorem after_eq {t u : Time} : t.after u = decide (u < t) := rfl
@[simp] theorem add_unixNano (t : Time) (d : Int) : (t.add d).unixNano = t.unixNano + d := rfl

/-! ## The proleptic Gregorian calendar -/

/-- Days since 1970-01-01 of year `y`, month `m`, day `d`, with a month or day outside its
range carried into the next larger unit as `time.Date` does. -/
def daysFromCivil (y m d : Int) : Int :=
  let y := y + (m - 1) / 12
  let m := (m - 1) % 12 + 1
  let y := if m ≤ 2 then y - 1 else y
  let era := y / 400
  let yoe := y - era * 400
  let doy := (153 * (if 2 < m then m - 3 else m + 9) + 2) / 5 + d - 1
  era * 146097 + (yoe * 365 + yoe / 4 - yoe / 100 + doy) - 719468

/-- The year, month (1 to 12) and day (1 to 31) of the day `z` days after 1970-01-01. -/
def civilFromDays (z : Int) : Int × Int × Int :=
  let z := z + 719468
  let era := z / 146097
  let doe := z - era * 146097
  let yoe := (doe - doe / 1460 + doe / 36524 - doe / 146096) / 365
  let doy := doe - (365 * yoe + yoe / 4 - yoe / 100)
  let mp := (5 * doy + 2) / 153
  let m := if mp < 10 then mp + 3 else mp - 9
  (yoe + era * 400 + (if m ≤ 2 then 1 else 0), m, doy - (153 * mp + 2) / 5 + 1)

/-- Whole seconds since the epoch, rounded down. -/
def unix (t : Time) : Int := t.unixNano / second

/-- Days since the epoch. -/
def days (t : Time) : Int := t.unix / 86400

/-- Seconds since midnight. -/
def clock (t : Time) : Int := t.unix % 86400

def year (t : Time) : Int := (civilFromDays t.days).1
def month (t : Time) : Int := (civilFromDays t.days).2.1
def day (t : Time) : Int := (civilFromDays t.days).2.2
def hour (t : Time) : Int := t.clock / 3600
def minute (t : Time) : Int := t.clock % 3600 / 60
def sec (t : Time) : Int := t.clock % 60

/-- `t.Weekday()`, Sunday being 0: 1970-01-01 was a Thursday. -/
def weekday (t : Time) : Int := (t.days + 4) % 7

/-- `time.Date(y, m, d, hh, mm, ss, ns, time.UTC)`, every field normalised. -/
def date (y m d hh mm ss ns : Int) : Time :=
  ⟨((daysFromCivil y m d * 86400 + hh * 3600 + mm * 60 + ss) * second + ns)⟩

/-- `t.AddDate(years, months, days)`. -/
def addDate (t : Time) (years months days : Int) : Time :=
  date (t.year + years) (t.month + months) (t.day + days) t.hour t.minute t.sec t.nanosecond

/-! ## Formatting -/

/-- `appendInt(b, x, width)` of Go's time formatter: a sign when negative, then the digits
padded with zeros to `width`. -/
def appendInt (x : Int) (width : Nat) : String :=
  let digits := toString x.natAbs
  (if x < 0 then "-" else "") ++ "".pushn '0' (width - digits.length) ++ digits

/-- The `.999999999` element: the nanoseconds with trailing zeros removed, and nothing at all
for a whole second. -/
def fracSecond9 (ns : Int) : String :=
  if ns = 0 then ""
  else "." ++ String.mk ((appendInt ns 9).toList.reverse.dropWhile (· = '0')).reverse

/-- `t.UTC().Format(time.RFC3339Nano)`, layout `2006-01-02T15:04:05.999999999Z07:00`. -/
def formatRFC3339Nano (t : Time) : String :=
  appendInt t.year 4 ++ "-" ++ appendInt t.month 2 ++ "-" ++ appendInt t.day 2 ++ "T" ++
    appendInt t.hour 2 ++ ":" ++ appendInt t.minute 2 ++ ":" ++ appendInt t.sec 2 ++
    fracSecond9 t.nanosecond ++ "Z"

/-- `t.UTC().Format("20060102T150405Z")`, the stamp of an archived job file. -/
def formatCompact (t : Time) : String :=
  appendInt t.year 4 ++ appendInt t.month 2 ++ appendInt t.day 2 ++ "T" ++
    appendInt t.hour 2 ++ appendInt t.minute 2 ++ appendInt t.sec 2 ++ "Z"

/-! ## Durations -/

/-- `unitMap` of `time.ParseDuration`, in nanoseconds. -/
def unitNanos : String → Option Nat
  | "ns" => some 1
  | "us" => some 1000
  | "µs" => some 1000
  | "μs" => some 1000
  | "ms" => some 1000000
  | "s" => some 1000000000
  | "m" => some 60000000000
  | "h" => some 3600000000000
  | _ => none

/-- `leadingInt`: the leading digits, failing once the value passes `1<<63`. -/
def leadingInt : List Char → Nat → Option (Nat × List Char)
  | c :: rest, x =>
    if c.isDigit then
      if x > 2 ^ 63 / 10 then none
      else
        let x := x * 10 + (c.toNat - '0'.toNat)
        if x > 2 ^ 63 then none else leadingInt rest x
    else some (x, c :: rest)
  | [], x => some (x, [])

/-- `leadingFraction`: the leading digits as a numerator and the power of ten below them;
digits past the precision of the numerator are consumed and ignored. -/
def leadingFraction : List Char → Nat → Nat → Bool → Nat × Nat × List Char
  | c :: rest, x, scale, overflow =>
    if c.isDigit then
      if overflow || x > (2 ^ 63 - 1) / 10 then leadingFraction rest x scale true
      else
        let y := x * 10 + (c.toNat - '0'.toNat)
        if y > 2 ^ 63 then leadingFraction rest x scale true else leadingFraction rest y (scale * 10) false
    else (x, scale, c :: rest)
  | [], x, scale, _ => (x, scale, [])

/-- `quote` of package `time`, which its errors use: the text in double quotes, with a quote and
a backslash escaped and every byte of a rune outside printable ASCII written as `\xhh`. -/
def quote (s : String) : String :=
  "\"" ++ String.join (s.toList.map fun c =>
    if 0x80 ≤ c.toNat ∨ c.toNat < 0x20 then
      String.join ((String.utf8EncodeChar c).map fun b =>
        String.mk ['\\', 'x', Nat.digitChar (b.toNat / 16), Nat.digitChar (b.toNat % 16)])
    else if c = '"' ∨ c = '\\' then String.mk ['\\', c]
    else c.toString) ++ "\""

example : quote "5 \"é\"" = "\"5 \\\"\\xc3\\xa9\\\"\"" := by decide

/-- The `for s != ""` loop of `time.ParseDuration` over what is left of `orig`: one
`[0-9]*(\.[0-9]*)?[a-z]+` element per turn, added to `d`. Go scales the fraction in `float64`;
the model takes the exact quotient. -/
def durationElements (orig : String) : Nat → List Char → Nat → Except String Nat
  | 0, _, _ => .error ("time: invalid duration " ++ quote orig)
  | _ + 1, [], d => .ok d
  | fuel + 1, s@(c :: _), d =>
    let invalid : Except String Nat := .error ("time: invalid duration " ++ quote orig)
    if !(c = '.' || c.isDigit) then invalid else
    match leadingInt s 0 with
    | none => invalid
    | some (v, rest) =>
      let pre := rest.length != s.length
      let (f, scale, rest, post) := match rest with
        | '.' :: more =>
          let (f, scale, after) := leadingFraction more 0 1 false
          (f, scale, after, after.length != more.length)
        | _ => (0, 1, rest, false)
      if !pre && !post then invalid else
      let unit := rest.takeWhile fun c => !(c = '.' || c.isDigit)
      if unit = [] then .error ("time: missing unit in duration " ++ quote orig) else
      match unitNanos (String.mk unit) with
      | none => .error ("time: unknown unit " ++ quote (String.mk unit) ++ " in duration " ++ quote orig)
      | some u =>
        if v > 2 ^ 63 / u then invalid else
        let v := v * u + (if f > 0 then f * u / scale else 0)
        if v > 2 ^ 63 then invalid else
        let d := d + v
        if d > 2 ^ 63 then invalid else durationElements orig fuel (rest.drop unit.length) d

/-- `time.ParseDuration`: a duration in nanoseconds, or the text of Go's error. -/
def parseDuration (s : String) : Except String Int :=
  let (neg, body) := match s.toList with
    | '-' :: rest => (true, rest)
    | '+' :: rest => (false, rest)
    | cs => (false, cs)
  if body = ['0'] then .ok 0
  else if body = [] then .error ("time: invalid duration " ++ quote s)
  else match durationElements s (body.length + 1) body 0 with
    | .error e => .error e
    | .ok d =>
      if neg then .ok (-(d : Int)) else if d > 2 ^ 63 - 1 then .error ("time: invalid duration " ++ quote s) else .ok d

example : parseDuration "1h30m" = .ok (5400 * second) := rfl
example : parseDuration "100ms" = .ok 100000000 := rfl
example : parseDuration "1.5s" = .ok 1500000000 := rfl
example : parseDuration "10" = .error "time: missing unit in duration \"10\"" := rfl
example : parseDuration "5d" = .error "time: unknown unit \"d\" in duration \"5d\"" := rfl

example : formatRFC3339Nano zero = "0001-01-01T00:00:00Z" := by decide
example : formatRFC3339Nano ⟨1709210096 * second + 120000000⟩ = "2024-02-29T12:34:56.12Z" := by
  decide

end Time

end Cronbat
