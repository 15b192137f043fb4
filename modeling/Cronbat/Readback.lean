import Cronbat.Store

/-! Reading a run back from the store. `RecordRun` writes times as `time.RFC3339Nano` text in
UTC and empty strings and zero token counts as NULL; `scanRun` parses and defaults them back.
This module proves that the two invert each other on every field, for every instant whose year
has four digits: the proleptic Gregorian calendar of `Time` is inverted by `daysFromCivil`, the
zero-padded fields of the layout read back through `parseTime`'s range checks, and the
nanosecond fraction survives the removal of its trailing zeros. Over the upsert this gives what
`GetRun` returns after one write and after a second write under the same id. -/
namespace Cronbat.Time
open Cronbat.Store

/-- The years `time.RFC3339Nano` writes with four digits, the only ones `parseTime` accepts. -/
def FourDigitYear (t : Time) : Prop := 0 ≤ t.year ∧ t.year ≤ 9999

instance : DecidablePred FourDigitYear := fun t => inferInstanceAs (Decidable (0 ≤ t.year ∧ t.year ≤ 9999))

/-! ## The calendar

`civilFromDays` reads the year of a 400-year era off the day of the era `doe` with Hinnant's
formula. Its properties on `0 ≤ doe ≤ 146096` are linear facts about the floors it takes, and
they give the inverse `daysFromCivil` and the ranges `parseTime` checks. -/

section YearOfEra
variable {doe yoe : Int} (lo : 0 ≤ doe) (hi : doe ≤ 146096)
  (year : yoe = (doe - doe / 1460 + doe / 36524 - doe / 146096) / 365)
include lo hi year

theorem yearOfEra_century : yoe / 100 = doe / 36524 - doe / 146096 := by
  have last : doe / 146096 = 0 ∨ doe = 146096 := by omega
  rcases last with last | rfl <;> omega

theorem yearOfEra_quadrennium : yoe / 4 ≤ doe / 1460 ∧ doe / 1460 ≤ yoe / 4 + 1 := by
  omega

/-- The day of the year is in range, and it is the 366th only in a leap year (of the year after
`yoe`, the one its January and February belong to). -/
theorem dayOfYear_bounds :
    0 ≤ yoe ∧ yoe ≤ 399 ∧ 0 ≤ doe - (365 * yoe + yoe / 4 - yoe / 100) ∧
      doe - (365 * yoe + yoe / 4 - yoe / 100) ≤ 365 ∧
      (doe - (365 * yoe + yoe / 4 - yoe / 100) = 365 → yoe % 4 = 3 ∧ (yoe % 100 ≠ 99 ∨ yoe = 399)) := by
  have century := yearOfEra_century lo hi year
  have quadrennium := yearOfEra_quadrennium lo hi year
  refine ⟨by omega, by omega, by omega, by omega, fun last => ⟨?_, by omega⟩⟩
  have leap : doe / 1460 = yoe / 4 + 1 := by omega
  omega
end YearOfEra

/-- What `civilFromDays` computes, in the terms of its own `let`s: the era, the year of the era,
the day of that year counted from March 1, and the month counted from March (`mp`), whose
January and February belong to the next civil year. -/
theorem civilFromDays_parts (z : Int) : ∃ era yoe doy mp : Int,
    z = era * 146097 + (365 * yoe + yoe / 4 - yoe / 100 + doy) - 719468 ∧
    0 ≤ yoe ∧ yoe ≤ 399 ∧ 0 ≤ doy ∧ doy ≤ 365 ∧ (doy = 365 → yoe % 4 = 3 ∧ (yoe % 100 ≠ 99 ∨ yoe = 399)) ∧
    153 * mp ≤ 5 * doy + 2 ∧ 5 * doy + 2 < 153 * mp + 153 ∧
    civilFromDays z = (yoe + era * 400 + (if mp < 10 then 0 else 1), if mp < 10 then mp + 3 else mp - 9,
      doy - (153 * mp + 2) / 5 + 1) := by
  obtain ⟨era, doe, rfl, lo, hi⟩ : ∃ era doe, z = era * 146097 + doe - 719468 ∧ 0 ≤ doe ∧ doe ≤ 146096 :=
    ⟨(z + 719468) / 146097, (z + 719468) % 146097, by omega, by omega, by omega⟩
  have eraOf : (era * 146097 + doe - 719468 + 719468) / 146097 = era := by omega
  obtain ⟨yoeLo, yoeHi, doyLo, doyHi, last⟩ := dayOfYear_bounds lo hi rfl
  refine ⟨era, _, _, _, by omega, yoeLo, yoeHi, doyLo, doyHi, last, Int.mul_ediv_self_le (by decide),
    Int.lt_mul_ediv_self_add (by decide), ?_⟩
  unfold civilFromDays
  simp only [eraOf, show era * 146097 + doe - 719468 + 719468 - era * 146097 = doe by ring]
  split_ifs <;> first | rfl | omega

/-- `daysFromCivil` of a date given by its era, its year of the era and its month counted from
March. -/
theorem daysFromCivil_march (era yoe mp d : Int) (yoeLo : 0 ≤ yoe) (yoeHi : yoe ≤ 399) (mpLo : 0 ≤ mp)
    (mpHi : mp ≤ 11) :
    daysFromCivil (yoe + era * 400 + (if mp < 10 then 0 else 1)) (if mp < 10 then mp + 3 else mp - 9) d =
      era * 146097 + (yoe * 365 + yoe / 4 - yoe / 100 + ((153 * mp + 2) / 5 + d - 1)) - 719468 := by
  have eraOf : (yoe + era * 400) / 400 = era := by
    rw [Int.add_mul_ediv_right _ _ (by decide), Int.ediv_eq_zero_of_lt yoeLo (by omega), zero_add]
  unfold daysFromCivil
  by_cases early : mp < 10
  · simp only [if_pos early, add_zero, show (mp + 3 - 1) / 12 = 0 by omega, show (mp + 3 - 1) % 12 + 1 = mp + 3 by omega,
      if_neg (show ¬mp + 3 ≤ 2 by omega), if_pos (show 2 < mp + 3 by omega), eraOf, add_sub_cancel_right]
  · simp only [if_neg early, add_zero, show (mp - 9 - 1) / 12 = 0 by omega, show (mp - 9 - 1) % 12 + 1 = mp - 9 by omega,
      if_pos (show mp - 9 ≤ 2 by omega), if_neg (show ¬2 < mp - 9 by omega), add_sub_cancel_right, eraOf, sub_add_cancel]

/-- `daysFromCivil` inverts `civilFromDays`. -/
theorem civilFromDays_inverse (z : Int) :
    daysFromCivil (civilFromDays z).1 (civilFromDays z).2.1 (civilFromDays z).2.2 = z := by
  obtain ⟨era, yoe, doy, mp, days, yoeLo, yoeHi, doyLo, doyHi, -, mpLo, mpHi, civil⟩ := civilFromDays_parts z
  rw [civil, daysFromCivil_march era yoe mp _ yoeLo yoeHi (by omega) (by omega), days]
  ring

theorem civilFromDays_month (z : Int) : 1 ≤ (civilFromDays z).2.1 ∧ (civilFromDays z).2.1 ≤ 12 := by
  obtain ⟨era, yoe, doy, mp, -, -, -, doyLo, doyHi, -, mpLo, mpHi, civil⟩ := civilFromDays_parts z
  rw [civil]
  dsimp only
  split_ifs <;> omega

/-- Months counted from March take 153 days in every five, rounded down at each month's start:
that is the length `daysIn` gives every month but February. -/
theorem daysIn_march : ∀ k : Nat, k < 11 →
    ((153 * ((k : Int) + 1) + 2) / 5 - (153 * k + 2) / 5).toNat = daysIn (if k < 10 then k + 3 else k - 9) 0 := by
  decide

theorem daysIn_other {month : Nat} (year : Nat) (other : month ≠ 2) : daysIn month year = daysIn month 0 := by
  simp [daysIn, other]

theorem civilFromDays_day (z : Int) :
    1 ≤ (civilFromDays z).2.2 ∧
      (civilFromDays z).2.2.toNat ≤ daysIn (civilFromDays z).2.1.toNat (civilFromDays z).1.toNat := by
  obtain ⟨era, yoe, doy, mp, -, yoeLo, yoeHi, doyLo, doyHi, last, mpLo, mpHi, civil⟩ := civilFromDays_parts z
  rw [civil]
  dsimp only
  refine ⟨by omega, ?_⟩
  by_cases february : mp = 11
  · subst february
    rw [if_neg (by decide), if_neg (by decide), show ((11 : Int) - 9).toNat = 2 by decide, daysIn, if_pos rfl]
    split_ifs <;> omega
  · obtain ⟨k, rfl⟩ : ∃ k : Nat, mp = k := ⟨mp.toNat, by omega⟩
    have month : (if (k : Int) < 10 then (k : Int) + 3 else k - 9).toNat = if k < 10 then k + 3 else k - 9 := by
      split_ifs <;> omega
    have day : doy - (153 * (k : Int) + 2) / 5 + 1 ≤ (153 * ((k : Int) + 1) + 2) / 5 - (153 * k + 2) / 5 := by
      omega
    rw [month, daysIn_other _ (by split_ifs <;> omega), ← daysIn_march k (by omega)]
    exact Int.toNat_le_toNat day

/-- An instant is the date of its own calendar fields. -/
theorem date_fields (t : Time) : date t.year t.month t.day t.hour t.minute t.sec t.nanosecond = t := by
  rw [date, year, month, day, civilFromDays_inverse]
  simp only [hour, minute, sec, nanosecond, clock, days, unix, second]
  congr 1
  omega
end Cronbat.Time

namespace Cronbat.Store
open Cronbat

/-! ## Decimal fields -/

/-- `digitsValue` continued from a value already read. -/
def digitsFrom (acc : Option Nat) (s : List Char) : Option Nat :=
  s.foldl (fun acc c => acc.bind fun x => if c.isDigit then some (x * 10 + (c.toNat - '0'.toNat)) else none) acc

theorem digitsValue_eq (s : List Char) : digitsValue s = digitsFrom (some 0) s := rfl

theorem digitsFrom_append (acc : Option Nat) (s t : List Char) :
    digitsFrom acc (s ++ t) = digitsFrom (digitsFrom acc s) t :=
  List.foldl_append _ _ _ _

theorem digitsFrom_cons {c : Char} (digit : c.isDigit) (x : Nat) (s : List Char) :
    digitsFrom (some x) (c :: s) = digitsFrom (some (x * 10 + (c.toNat - '0'.toNat))) s := by
  simp [digitsFrom, digit]

theorem digitsFrom_none (s : List Char) : digitsFrom none s = none := by
  induction s with
  | nil => rfl
  | cons c s ih => exact ih

theorem digitsFrom_zeros (x k : Nat) : digitsFrom (some x) (List.replicate k '0') = some (x * 10 ^ k) := by
  induction k generalizing x with
  | zero => simp [digitsFrom]
  | succ k ih =>
    rw [List.replicate_succ, digitsFrom_cons (by decide), Nat.sub_self, add_zero, ih, pow_succ']
    congr 1
    ring

/-- Text that reads as a value is all digits. -/
theorem digitsFrom_digits {x v : Nat} {s : List Char} (read : digitsFrom (some x) s = some v) :
    ∀ c ∈ s, c.isDigit := by
  induction s generalizing x with
  | nil => simp
  | cons c s ih =>
    by_cases digit : c.isDigit
    · rw [digitsFrom_cons digit] at read
      simpa [digit] using ih read
    · have stop : digitsFrom (some x) (c :: s) = none := by
        simp only [digitsFrom, List.foldl_cons, Option.some_bind, digit]
        exact digitsFrom_none s
      rw [stop] at read
      cases read

/-- `Nat.digitChar` on a decimal digit is the ASCII digit of that value. -/
theorem digitChar_digit : ∀ k < 10, (Nat.digitChar k).isDigit ∧ (Nat.digitChar k).toNat - '0'.toNat = k := by
  decide

/-- `Nat.toDigitsCore` with enough fuel puts the decimal digits of `n` in front of `ds`. -/
theorem toDigitsCore_decimal (fuel n : Nat) (ds : List Char) (enough : n < fuel) :
    ∃ digits, Nat.toDigitsCore 10 fuel n ds = digits ++ ds ∧
      ∀ x, digitsFrom (some x) digits = some (x * 10 ^ digits.length + n) := by
  induction fuel generalizing n ds with
  | zero => omega
  | succ fuel ih =>
    obtain ⟨digit, value⟩ := digitChar_digit (n % 10) (Nat.mod_lt _ (by decide))
    by_cases last : n / 10 = 0
    · refine ⟨[Nat.digitChar (n % 10)], by simp [Nat.toDigitsCore, last], fun x => ?_⟩
      rw [digitsFrom_cons digit, value]
      simp only [digitsFrom, List.foldl_nil, List.length_singleton, pow_one, Option.some.injEq]
      omega
    · obtain ⟨digits, core, read⟩ := ih (n / 10) (Nat.digitChar (n % 10) :: ds) (by omega)
      refine ⟨digits ++ [Nat.digitChar (n % 10)], by simp [Nat.toDigitsCore, last, core], fun x => ?_⟩
      rw [digitsFrom_append, read, digitsFrom_cons digit, value, List.length_append, List.length_singleton]
      simp only [digitsFrom, List.foldl_nil, Option.some.injEq]
      calc (x * 10 ^ digits.length + n / 10) * 10 + n % 10
          = x * 10 ^ (digits.length + 1) + (10 * (n / 10) + n % 10) := by ring
        _ = x * 10 ^ (digits.length + 1) + n := by rw [Nat.div_add_mod]

theorem pushn_data (s : String) (c : Char) (k : Nat) : (s.pushn c k).data = s.data ++ List.replicate k c := by
  induction k with
  | zero => simp [String.pushn, Nat.repeat]
  | succ k ih =>
    show ((s.pushn c k).push c).data = _
    rw [String.data_push, ih, List.replicate_succ', List.append_assoc]

/-- A fixed-width field of the layout: `width` characters that read as `value`. -/
def Reads (digits : List Char) (width value : Nat) : Prop :=
  digits.length = width ∧ digitsValue digits = some value

/-- `appendInt` of a value that fits its width writes exactly `width` digits, zero-padded. -/
theorem appendInt_reads {x : Int} {width : Nat} (wide : 0 < width) (nonneg : 0 ≤ x) (fits : x < 10 ^ width) :
    Reads (Time.appendInt x width).toList width x.toNat := by
  obtain ⟨n, rfl⟩ := Int.eq_ofNat_of_zero_le nonneg
  obtain ⟨digits, core, read⟩ := toDigitsCore_decimal (n + 1) n [] (by omega)
  rw [List.append_nil] at core
  have short : digits.length ≤ width := by
    simpa [Nat.repr, Nat.toDigits, core] using Nat.repr_length n width wide (by exact_mod_cast fits)
  have shown : toString n = String.mk digits := by rw [← core]; rfl
  have text : (Time.appendInt n width).toList = List.replicate (width - digits.length) '0' ++ digits := by
    rw [Time.appendInt, if_neg (by omega)]
    simp [shown, pushn_data]
  refine ⟨by rw [text, List.length_append, List.length_replicate]; omega, ?_⟩
  rw [text, digitsValue_eq, digitsFrom_append, digitsFrom_zeros, read]
  simp

theorem reads_four {Y : List Char} {v : Nat} (y : Reads Y 4 v) : ∃ a b c d, Y = [a, b, c, d] := by
  rcases y with ⟨length, -⟩
  match Y, length with
  | [a, b, c, d], _ => exact ⟨a, b, c, d, rfl⟩

theorem reads_two {Y : List Char} {v : Nat} (y : Reads Y 2 v) : ∃ a b, Y = [a, b] :=
  List.length_eq_two.mp y.1

/-! ## The nanosecond fraction -/

/-- The fraction element of the layout reads as `nsec` nanoseconds: nothing for a whole second,
else a period and the digits `fracNanos` scales. -/
def ReadsFraction (frac : List Char) (nsec : Nat) : Prop :=
  frac = [] ∧ nsec = 0 ∨
    ∃ digits, frac = '.' :: digits ∧ digits ≠ [] ∧ (∀ c ∈ digits, c.isDigit) ∧ fracNanos digits = nsec

/-- Dropping the trailing zeros of the nine digits loses nothing `fracNanos` does not scale back. -/
theorem fracSecond9_reads {ns : Int} (nonneg : 0 ≤ ns) (fits : ns < 10 ^ 9) :
    ReadsFraction (Time.fracSecond9 ns).toList ns.toNat := by
  by_cases whole : ns = 0
  · exact .inl ⟨by simp [Time.fracSecond9, whole], by simp [whole]⟩
  obtain ⟨width, read⟩ := appendInt_reads (by decide) nonneg fits
  set padded := (Time.appendInt ns 9).toList
  set kept := (padded.reverse.dropWhile (· = '0')).reverse
  set zeros := (padded.reverse.takeWhile (· = '0')).reverse
  have split : padded = kept ++ zeros := by
    rw [← List.reverse_append, List.takeWhile_append_dropWhile, List.reverse_reverse]
  have zero : zeros = List.replicate zeros.length '0' :=
    List.eq_replicate_iff.mpr ⟨rfl, fun c held => by
      simpa using List.mem_takeWhile_imp (List.mem_reverse.mp held)⟩
  cases keptRead : digitsValue kept with
  | none =>
    rw [split, digitsValue_eq, digitsFrom_append, ← digitsValue_eq, keptRead, digitsFrom_none] at read
    cases read
  | some v =>
    rw [split, digitsValue_eq, digitsFrom_append, ← digitsValue_eq, keptRead, zero, digitsFrom_zeros] at read
    have lengths : kept.length + zeros.length = 9 := by rw [← width, split, List.length_append]
    refine .inr ⟨kept, by simp [Time.fracSecond9, whole]; rfl, fun empty => ?_, digitsFrom_digits keptRead, ?_⟩
    · rw [empty] at keptRead
      cases keptRead
      simp at read
      omega
    · rw [fracNanos, List.take_of_length_le (by omega), keptRead]
      simp only [Option.getD_some]
      rw [show 9 - kept.length = zeros.length by omega]
      simpa using read

/-! ## Reading the layout -/

theorem daysIn_le (month year : Nat) : daysIn month year ≤ 31 := by
  unfold daysIn
  split_ifs <;> omega

/-- `parseTime` reads the `RFC3339Nano` layout back: fixed-width fields in range, then the
fraction, then `Z`. -/
theorem parseTime_layout {year month day hour min sec nsec : Nat} {Y M D H N S F : List Char}
    (y : Reads Y 4 year) (m : Reads M 2 month) (d : Reads D 2 day) (h : Reads H 2 hour)
    (n : Reads N 2 min) (s : Reads S 2 sec) (frac : ReadsFraction F nsec)
    (years : year ≤ 9999) (months : 1 ≤ month ∧ month ≤ 12) (days : 1 ≤ day ∧ day ≤ daysIn month year)
    (hours : hour ≤ 23) (mins : min ≤ 59) (secs : sec ≤ 59) :
    parseTime ⟨Y ++ '-' :: M ++ '-' :: D ++ 'T' :: H ++ ':' :: N ++ ':' :: S ++ F ++ ['Z']⟩ =
      some (Time.date year month day hour min sec nsec) := by
  obtain ⟨y0, y1, y2, y3, rfl⟩ := reads_four y
  obtain ⟨m0, m1, rfl⟩ := reads_two m
  obtain ⟨d0, d1, rfl⟩ := reads_two d
  obtain ⟨h0, h1, rfl⟩ := reads_two h
  obtain ⟨n0, n1, rfl⟩ := reads_two n
  obtain ⟨s0, s1, rfl⟩ := reads_two s
  simp only [List.cons_append, List.singleton_append, List.nil_append]
  rcases frac with ⟨rfl, rfl⟩ | ⟨digits, rfl, nonempty, digit, rfl⟩
  · simp [parseTime, y.2, m.2, d.2, h.2, n.2, s.2, years, months, days, hours, mins, secs]
  · obtain ⟨t0, more, rfl⟩ := List.exists_cons_of_ne_nil nonempty
    have taken : (more ++ ['Z']).takeWhile Char.isDigit = more := by
      rw [List.takeWhile_append_of_pos fun c held => digit c (List.mem_cons_of_mem t0 held),
        show List.takeWhile Char.isDigit ['Z'] = [] by decide, List.append_nil]
    simp [parseTime, y.2, m.2, d.2, h.2, n.2, s.2, years, months, days, hours, mins, secs, digit t0, taken]

/-- `parseTime` inverts `formatTime` on every instant whose year has four digits. -/
theorem parseTime_formatTime {t : Time} (years : t.FourDigitYear) : parseTime (formatTime t) = some t := by
  obtain ⟨yearLo, yearHi⟩ := years
  have months : 1 ≤ t.month ∧ t.month ≤ 12 := Time.civilFromDays_month t.days
  have days : 1 ≤ t.day ∧ t.day.toNat ≤ daysIn t.month.toNat t.year.toNat := Time.civilFromDays_day t.days
  have clock : 0 ≤ t.clock ∧ t.clock < 86400 := by unfold Time.clock; omega
  have nanos : 0 ≤ t.nanosecond ∧ t.nanosecond < 10 ^ 9 := by unfold Time.nanosecond Time.second; omega
  have layout : formatTime t = ⟨(Time.appendInt t.year 4).toList ++ '-' :: (Time.appendInt t.month 2).toList ++
      '-' :: (Time.appendInt t.day 2).toList ++ 'T' :: (Time.appendInt t.hour 2).toList ++
      ':' :: (Time.appendInt t.minute 2).toList ++ ':' :: (Time.appendInt t.sec 2).toList ++
      (Time.fracSecond9 t.nanosecond).toList ++ ['Z']⟩ := by
    apply String.ext
    simp [formatTime, Time.formatRFC3339Nano]
  have hour : t.hour < 24 := by unfold Time.hour; omega
  have minute : t.minute < 60 := by unfold Time.minute; omega
  have sec : t.sec < 60 := by unfold Time.sec; omega
  rw [layout, parseTime_layout (appendInt_reads (by decide) yearLo (by omega))
    (appendInt_reads (by decide) (by omega) (by omega))
    (appendInt_reads (by decide) (by omega) (by have := daysIn_le t.month.toNat t.year.toNat; omega))
    (appendInt_reads (by decide) (by unfold Time.hour; omega) (by omega))
    (appendInt_reads (by decide) (by unfold Time.minute; omega) (by omega))
    (appendInt_reads (by decide) (by unfold Time.sec; omega) (by omega))
    (fracSecond9_reads nanos.1 nanos.2) (by omega) (by omega) ⟨by omega, days.2⟩ (by omega) (by omega) (by omega)]
  rw [Int.toNat_of_nonneg yearLo, Int.toNat_of_nonneg (by omega : 0 ≤ t.month), Int.toNat_of_nonneg (by omega : 0 ≤ t.day),
    Int.toNat_of_nonneg (by unfold Time.hour; omega : 0 ≤ t.hour), Int.toNat_of_nonneg (by unfold Time.minute; omega : 0 ≤ t.minute),
    Int.toNat_of_nonneg (by unfold Time.sec; omega : 0 ≤ t.sec), Int.toNat_of_nonneg nanos.1, Time.date_fields]

/-! ## Rows and runs -/

@[simp] theorem nullString_getD (s : String) : (nullString s).getD "" = s := by
  unfold nullString
  split_ifs with empty <;> simp [empty]

@[simp] theorem nullInt64_getD (v : Int) : (nullInt64 v).getD 0 = v := by
  unfold nullInt64
  split_ifs with zero <;> simp [zero]

/-- `scanRun` inverts the row `RecordRun` inserts, on every field, for a run whose times have
four-digit years. -/
theorem scanRun_insertRow {run : Run} (started : run.startedAt.FourDigitYear) (created : run.createdAt.FourDigitYear)
    (finished : ∀ t ∈ run.finishedAt, t.FourDigitYear) : scanRun (insertRow run) = some run := by
  rcases run with ⟨_, _, _, _, startedAt, _ | finishedAt, _, _, _, _, _, _, _, createdAt⟩
  · simp [scanRun, insertRow, formatTimePtr, parseTime_formatTime started, parseTime_formatTime created]
  · have ended : parseTime finishedAt.formatRFC3339Nano = some finishedAt := parseTime_formatTime (finished _ rfl)
    simp [scanRun, insertRow, formatTimePtr, parseTime_formatTime started, parseTime_formatTime created, ended]

/-- `GetRun` of the id of the last row, which no other row has, reads that row. -/
theorem getRun_last {table : Table} {row : Row} {run : Run} (fresh : ∀ old ∈ table, old.id ≠ row.id)
    (read : scanRun row = some run) : getRun (table ++ [row]) row.id = .ok (some run) := by
  have missing : table.find? (·.id = row.id) = none := List.find?_eq_none.mpr fun old held => by simpa using fresh old held
  simp [getRun, List.find?_append, missing, read]

/-- `RecordRun` of a run under a new id, then of a second run under the same id, then `GetRun`:
after the first write the run comes back as written, with the `CreatedAt` it was given; after
the second, the write-once columns are the first run's and the rest the second's. -/
theorem recordRun_upsert_getRun (now₁ now₂ : Time) (id₁ id₂ : String) (table : Table) {r1 r2 : Run}
    (named : r1.id ≠ "") (same : r2.id = r1.id) (fresh : ∀ row ∈ table, row.id ≠ r1.id)
    (started : r1.startedAt.FourDigitYear) (created : r1.createdAt.FourDigitYear)
    (clock : r1.createdAt.isZero → now₁.FourDigitYear)
    (finished₁ : ∀ t ∈ r1.finishedAt, t.FourDigitYear) (finished₂ : ∀ t ∈ r2.finishedAt, t.FourDigitYear) :
    let createdAt := if r1.createdAt.isZero then now₁ else r1.createdAt
    let once := (recordRun now₁ id₁ false r1 table).2.2
    getRun once r1.id = .ok (some { r1 with createdAt }) ∧
      getRun (recordRun now₂ id₂ false r2 once).2.2 r1.id =
        .ok (some { r2 with
          id := r1.id, jobName := r1.jobName, startedAt := r1.startedAt, trigger := r1.trigger, createdAt }) := by
  intro createdAt once
  have filled : createdAt.FourDigitYear := by
    by_cases zero : r1.createdAt.isZero
    · simpa [createdAt, zero] using clock zero
    · simpa [createdAt, zero] using created
  obtain ⟨run₁, table₁⟩ := recordRun_named now₁ id₁ false table named
  obtain ⟨run₂, table₂⟩ := recordRun_named now₂ id₂ false once (same ▸ named)
  have written : once = table ++ [insertRow { r1 with createdAt }] := by
    rw [show once = _ from table₁, if_neg Bool.false_ne_true, run₁, upsert_fresh fresh]
  refine ⟨?_, ?_⟩
  · rw [written]
    exact getRun_last fresh (scanRun_insertRow started filled finished₁)
  · let merged : Run := { r2 with
      id := r1.id, jobName := r1.jobName, startedAt := r1.startedAt, trigger := r1.trigger, createdAt }
    have update : conflictUpdate (insertRow { r1 with createdAt })
        (insertRow { r2 with createdAt := if r2.createdAt.isZero then now₂ else r2.createdAt }) = insertRow merged :=
      rfl
    rw [table₂, if_neg Bool.false_ne_true, run₂, written, upsert_last fresh same, update]
    exact getRun_last fresh (scanRun_insertRow started filled finished₂)

/-- A run recorded as started and then as finished under the same id reads back finished, with
the `CreatedAt` of its first write. -/
theorem recordRun_upsert_getRun_backup :
    let start : Time := ⟨1704067200 * Time.second⟩
    let r1 : Run := ⟨"r1", "backup", "running", 0, start, none, 0, "", "", "", "schedule", "", 0, Time.zero⟩
    let r2 : Run := { r1 with status := "success", finishedAt := some (start.add (5 * Time.second)), durationMs := 5000 }
    start.FourDigitYear ∧ (start.add (5 * Time.second)).FourDigitYear ∧
      getRun (recordRun start "" false r2 (recordRun start "" false r1 []).2.2).2.2 "r1" =
        .ok (some { r2 with createdAt := start }) := by
  intro start r1 r2
  have started : start.FourDigitYear := by decide
  have finished : (start.add (5 * Time.second)).FourDigitYear := by decide
  exact ⟨started, finished, (@recordRun_upsert_getRun start start "" "" [] r1 r2 (by decide) rfl (fun _ held => nomatch held)
    started (by decide) (fun _ => started) (fun _ held => nomatch held) (fun _ held => by cases held; exact finished)).2⟩

/-- A second write under the same id whose `FinishedAt` lies in year 10000: the row takes the
five-digit year, `parseTime` rejects it, and `GetRun` fails. -/
theorem getRun_rejects_finished_year_10000 :
    let r1 : Run := ⟨"r1", "backup", "running", 0, Time.zero, none, 0, "", "", "", "schedule", "", 0, Time.zero⟩
    let finished : Time := ⟨253402300800 * Time.second⟩
    let r2 : Run := { r1 with status := "success", finishedAt := some finished }
    finished.year = 10000 ∧
      getRun (recordRun Time.zero "" false r2 (recordRun Time.zero "" false r1 []).2.2).2.2 "r1" = .error "parse" :=
  ⟨by decide, rfl⟩
end Cronbat.Store
