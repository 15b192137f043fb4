import Cronbat.Readback
import Cronbat.Cron

/-! What `SpecSchedule.Next` returns. The search of the cron library walks the fields from the
month down to the second; a field that does not match resets the finer fields once (`added`)
and adds one unit, and a field that wraps around sends the search back to `WRAP`. Its
invariant, `Searching`, has three parts: the instant is a whole second after the start; the
fields before the current one match (`Matched`); and once the finer fields were reset, the
instant stands at the start of every unit whose field does not match (`Aligned`), so that
adding a unit never skips past a matching value nor leaves a stale finer field behind.

Each turn keeps `Searching` and advances (`searchStep_sound`): it stays at its instant and passes
to a later phase, or it moves to a later whole second, in the same year unless it goes back to
`WRAP`. The turns left before the year limit (`turnsLeft`) therefore fall at every turn, and five
years take far fewer than the fuel `Next` is given, so the search ends either at `WRAP` past the
limit, with the zero time and no activation skipped up to it, or at the first activation
(`search_total`). The calendar facts this needs are the converse of `civilFromDays_parts`: the
first of a month reads back as day 1, the day after a day that is not the last of its month is
in the same month and year, the first of the next month is later, and every day lies between
January 1 of its year and of the next. -/
namespace Cronbat.Time

/-- Hinnant's year of the era, read back from a day of the era built from it. -/
theorem yearOfEra_of_dayOfYear {yoe doy : Int} (lo : 0 ≤ yoe) (hi : yoe ≤ 399) (dlo : 0 ≤ doy) (dhi : doy ≤ 365)
    (last : doy = 365 → yoe % 4 = 3 ∧ (yoe % 100 ≠ 99 ∨ yoe = 399)) :
    (365 * yoe + yoe / 4 - yoe / 100 + doy - (365 * yoe + yoe / 4 - yoe / 100 + doy) / 1460 +
        (365 * yoe + yoe / 4 - yoe / 100 + doy) / 36524 - (365 * yoe + yoe / 4 - yoe / 100 + doy) / 146096) / 365 = yoe := by
  generalize e : 365 * yoe + yoe / 4 - yoe / 100 + doy = doe
  have era : doe / 146096 = 0 ∨ doe = 146096 := by omega
  have quad : doe / 1460 = yoe / 4 ∨ doe / 1460 = yoe / 4 + 1 := by omega
  have cent : doe / 36524 = yoe / 100 ∨ doe / 36524 = yoe / 100 + 1 := by omega
  rcases era with era | rfl
  · rcases quad with q | q <;> rcases cent with c | c <;> omega
  · omega

/-- `civilFromDays` of a day given by its era, year of the era, day of the year from March 1 and
month from March: the converse of `civilFromDays_parts`. -/
theorem civilFromDays_of_parts {era yoe doy : Int} (mp : Int) (yoeLo : 0 ≤ yoe) (yoeHi : yoe ≤ 399) (doyLo : 0 ≤ doy)
    (doyHi : doy ≤ 365) (last : doy = 365 → yoe % 4 = 3 ∧ (yoe % 100 ≠ 99 ∨ yoe = 399))
    (mpLo : 153 * mp ≤ 5 * doy + 2) (mpHi : 5 * doy + 2 < 153 * mp + 153) :
    civilFromDays (era * 146097 + (365 * yoe + yoe / 4 - yoe / 100 + doy) - 719468) =
      (yoe + era * 400 + (if mp < 10 then 0 else 1), if mp < 10 then mp + 3 else mp - 9,
        doy - (153 * mp + 2) / 5 + 1) := by
  have doe : 365 * yoe + yoe / 4 - yoe / 100 + doy ≤ 146096 := by omega
  have eraOf : (era * 146097 + (365 * yoe + yoe / 4 - yoe / 100 + doy) - 719468 + 719468) / 146097 = era := by
    omega
  have mpOf : (5 * doy + 2) / 153 = mp := by omega
  unfold civilFromDays
  simp only [eraOf, show era * 146097 + (365 * yoe + yoe / 4 - yoe / 100 + doy) - 719468 + 719468 - era * 146097 =
    365 * yoe + yoe / 4 - yoe / 100 + doy by ring, yearOfEra_of_dayOfYear yoeLo yoeHi doyLo doyHi last,
    show 365 * yoe + yoe / 4 - yoe / 100 + doy - (365 * yoe + yoe / 4 - yoe / 100) = doy by ring, mpOf]
  split_ifs <;> first | rfl | omega

/-- The first of a month, with the month carried into the year as `time.Date` does, reads back
as the first of that month. -/
theorem civilFromDays_monthStart (y m : Int) :
    civilFromDays (daysFromCivil y m 1) = (y + (m - 1) / 12, (m - 1) % 12 + 1, 1) := by
  unfold daysFromCivil
  dsimp only
  generalize hM : (m - 1) % 12 + 1 = M
  have mLo : 1 ≤ M := by omega
  have mHi : M ≤ 12 := by omega
  generalize hY : (if M ≤ 2 then y + (m - 1) / 12 - 1 else y + (m - 1) / 12) = Y
  generalize hmp : (if 2 < M then M - 3 else M + 9) = mp
  have mpLo : 0 ≤ mp := by split_ifs at hmp <;> omega
  have mpHi : mp ≤ 11 := by split_ifs at hmp <;> omega
  have yoeLo : 0 ≤ Y - Y / 400 * 400 := by omega
  have yoeHi : Y - Y / 400 * 400 ≤ 399 := by omega
  rw [show Y / 400 * 146097 + ((Y - Y / 400 * 400) * 365 + (Y - Y / 400 * 400) / 4 - (Y - Y / 400 * 400) / 100 +
      ((153 * mp + 2) / 5 + 1 - 1)) - 719468 = Y / 400 * 146097 + (365 * (Y - Y / 400 * 400) +
      (Y - Y / 400 * 400) / 4 - (Y - Y / 400 * 400) / 100 + (153 * mp + 2) / 5) - 719468 by ring,
    civilFromDays_of_parts mp yoeLo yoeHi (by omega) (by omega) (by omega) (by omega) (by omega)]
  simp only [Prod.mk.injEq]
  split_ifs at hY hmp ⊢ <;> omega

/-- The day after `z`: one day later in the same month, or the first of the next month. -/
theorem civilFromDays_succ_cases (z : Int) :
    civilFromDays (z + 1) = ((civilFromDays z).1, (civilFromDays z).2.1, (civilFromDays z).2.2 + 1) ∨
      civilFromDays (z + 1) = ((civilFromDays z).1 + (civilFromDays z).2.1 / 12, (civilFromDays z).2.1 % 12 + 1, 1) := by
  obtain ⟨era, yoe, doy, mp, rfl, yoeLo, yoeHi, doyLo, doyHi, last, mpLo, mpHi, civil⟩ := civilFromDays_parts z
  rw [civil]
  by_cases sameMonth : 5 * (doy + 1) + 2 < 153 * mp + 153
  · by_cases sameYear : doy + 1 ≤ 365 ∧ (doy + 1 = 365 → yoe % 4 = 3 ∧ (yoe % 100 ≠ 99 ∨ yoe = 399))
    · left
      rw [show era * 146097 + (365 * yoe + yoe / 4 - yoe / 100 + doy) - 719468 + 1 =
          era * 146097 + (365 * yoe + yoe / 4 - yoe / 100 + (doy + 1)) - 719468 by ring,
        civilFromDays_of_parts mp yoeLo yoeHi (by omega) sameYear.1 sameYear.2 (by omega) sameMonth]
      simp only [Prod.mk.injEq, true_and]
      ring
    · right
      have february : mp = 11 := by omega
      subst february
      rcases (show yoe < 399 ∨ yoe = 399 by omega) with within | rfl
      · rw [show era * 146097 + (365 * yoe + yoe / 4 - yoe / 100 + doy) - 719468 + 1 =
            era * 146097 + (365 * (yoe + 1) + (yoe + 1) / 4 - (yoe + 1) / 100 + 0) - 719468 by omega,
          civilFromDays_of_parts 0 (by omega) (by omega) le_rfl (by omega) (by omega) (by omega) (by omega)]
        simp only [Prod.mk.injEq]
        omega
      · rw [show era * 146097 + (365 * 399 + 399 / 4 - 399 / 100 + doy) - 719468 + 1 =
            (era + 1) * 146097 + (365 * 0 + 0 / 4 - 0 / 100 + 0) - 719468 by omega,
          civilFromDays_of_parts 0 le_rfl (by omega) le_rfl (by omega) (by omega) (by omega) (by omega)]
        simp only [Prod.mk.injEq]
        omega
  · right
    rw [show era * 146097 + (365 * yoe + yoe / 4 - yoe / 100 + doy) - 719468 + 1 =
        era * 146097 + (365 * yoe + yoe / 4 - yoe / 100 + (doy + 1)) - 719468 by ring,
      civilFromDays_of_parts (mp + 1) yoeLo yoeHi (by omega) (by omega) (by omega) (by omega) (by omega)]
    simp only [Prod.mk.injEq]
    split_ifs <;> omega

/-- The first of the next month comes after every day of a month. -/
theorem lt_daysFromCivil_nextMonth (z : Int) :
    z < daysFromCivil (civilFromDays z).1 ((civilFromDays z).2.1 + 1) 1 := by
  obtain ⟨era, yoe, doy, mp, rfl, yoeLo, yoeHi, doyLo, doyHi, last, mpLo, mpHi, civil⟩ := civilFromDays_parts z
  have lo : 0 ≤ mp := by omega
  have hi : mp ≤ 11 := by omega
  rw [civil]
  simp only [daysFromCivil]
  interval_cases mp <;>
    simp only [Int.reduceLT, Int.reduceLE, ite_true, ite_false, Int.reduceAdd, Int.reduceSub, Int.reduceDiv,
      Int.reduceMod, Int.reduceMul] <;>
    omega

/-- `daysFromCivil` carries a thirteenth month into the next year, as `time.Date` does. -/
theorem daysFromCivil_carry (y m d : Int) : daysFromCivil (y + m / 12) (m % 12 + 1) d = daysFromCivil y (m + 1) d := by
  simp only [daysFromCivil]
  rw [show (m % 12 + 1 - 1) / 12 = 0 by omega, show (m % 12 + 1 - 1) % 12 + 1 = m % 12 + 1 by omega,
    show (m + 1 - 1) % 12 + 1 = m % 12 + 1 by omega, show y + m / 12 + 0 = y + (m + 1 - 1) / 12 by omega]

/-- Every day from `z` up to the first of the next month is in `z`'s month. -/
theorem civilFromDays_month_const (z : Int) :
    ∀ k : Nat, z + k < daysFromCivil (civilFromDays z).1 ((civilFromDays z).2.1 + 1) 1 →
      (civilFromDays (z + k)).1 = (civilFromDays z).1 ∧ (civilFromDays (z + k)).2.1 = (civilFromDays z).2.1
  | 0, _ => by simp
  | k + 1, before => by
    obtain ⟨year, month⟩ := civilFromDays_month_const z k (by omega)
    have shift : z + ↑(k + 1) = z + k + 1 := by push_cast; ring
    rw [shift] at before ⊢
    rcases civilFromDays_succ_cases (z + k) with same | first
    · rw [same]
      exact ⟨year, month⟩
    · have := civilFromDays_inverse (z + k + 1)
      simp only [first] at this
      rw [daysFromCivil_carry, year, month] at this
      omega

/-! ## Days and clock -/

theorem daysFromCivil_succ (y m d : Int) : daysFromCivil y m (d + 1) = daysFromCivil y m d + 1 := by
  simp only [daysFromCivil]
  ring

theorem days_clock_eq {t : Time} {D c : Int} (unixNano : t.unixNano = (D * 86400 + c) * second) (lo : 0 ≤ c)
    (hi : c < 86400) : t.days = D ∧ t.clock = c := by
  simp only [days, clock, unix, unixNano, second]
  omega

theorem unixNano_whole {t : Time} (whole : t.nanosecond = 0) : t.unixNano = (t.days * 86400 + t.clock) * second := by
  simp only [nanosecond, days, clock, unix, second] at whole ⊢
  omega

theorem clock_bounds (t : Time) : 0 ≤ t.clock ∧ t.clock < 86400 := by
  simp only [clock]
  omega

/-- `time.Date` at midnight. -/
theorem date_midnight (y m d : Int) :
    (date y m d 0 0 0 0).days = daysFromCivil y m d ∧ (date y m d 0 0 0 0).clock = 0 :=
  days_clock_eq (by simp [date]) le_rfl (by decide)

/-- The year and month of the day after `t`'s, unless that day is the first of a month, are `t`'s. -/
theorem year_month_of_next_day {t t' : Time} (next : t'.days = t.days + 1) (notFirst : t'.day ≠ 1) :
    t'.year = t.year ∧ t'.month = t.month := by
  simp only [day, year, month, next] at notFirst ⊢
  rcases civilFromDays_succ_cases t.days with same | first
  · rw [same]
    exact ⟨rfl, rfl⟩
  · rw [first] at notFirst
    exact absurd rfl notFirst

/-! ## Years -/

/-- January 1 of year `y`: 306 days after March 1 of the year before, in Hinnant's count. -/
theorem daysFromCivil_newYear (y : Int) : daysFromCivil y 1 1 =
    (y - 1) / 400 * 146097 + (365 * ((y - 1) % 400) + (y - 1) % 400 / 4 - (y - 1) % 400 / 100 + 306) - 719468 := by
  simp only [daysFromCivil, Int.reduceSub, Int.reduceDiv, Int.reduceMod, Int.reduceAdd, Int.reduceMul, Int.reduceLE,
    Int.reduceLT, ite_true, ite_false, add_zero, le_refl]
  omega

/-- Every day lies from January 1 of its year to January 1 of the next. -/
theorem newYear_le_days (z : Int) :
    daysFromCivil (civilFromDays z).1 1 1 ≤ z ∧ z < daysFromCivil ((civilFromDays z).1 + 1) 1 1 := by
  obtain ⟨era, yoe, doy, mp, rfl, yoeLo, yoeHi, doyLo, doyHi, last, mpLo, mpHi, civil⟩ := civilFromDays_parts z
  rw [civil, daysFromCivil_newYear, daysFromCivil_newYear]
  dsimp only
  split_ifs <;> omega

theorem newYear_mono {y y' : Int} (le : y ≤ y') : daysFromCivil y 1 1 ≤ daysFromCivil y' 1 1 := by
  rw [daysFromCivil_newYear, daysFromCivil_newYear]
  omega

/-- Six years hold at most six leap days. -/
theorem newYear_add_six (y : Int) : daysFromCivil (y + 6) 1 1 ≤ daysFromCivil y 1 1 + 6 * 366 := by
  rw [daysFromCivil_newYear, daysFromCivil_newYear]
  omega

/-- An instant in year `L` or before lies before January 1 of year `L + 1`. -/
theorem days_lt_newYear {t : Time} {L : Int} (inYear : t.year ≤ L) : t.days < daysFromCivil (L + 1) 1 1 :=
  lt_of_lt_of_le (newYear_le_days t.days).2 (newYear_mono (Int.add_le_add_right inYear 1))

/-- An instant of an earlier year is earlier. -/
theorem lt_of_year_lt {t u : Time} (years : u.year < t.year) : u < t := by
  have before := days_lt_newYear (le_refl u.year)
  have after : daysFromCivil (u.year + 1) 1 1 ≤ t.days := le_trans (newYear_mono years) (newYear_le_days t.days).1
  simp only [days, unix, second, Time.lt_def] at before after ⊢
  omega

end Cronbat.Time

namespace Cronbat.Cron
open Cronbat Cronbat.Time

/-- `t` is an activation of `s`: each of its fields is admitted by the schedule, the day of the
month and of the week by `dayMatches`. -/
def Activates (s : SpecSchedule) (t : Time) : Prop :=
  s.month.testBit t.month.toNat ∧ dayMatches s t ∧ s.hour.testBit t.hour.toNat ∧
    s.minute.testBit t.minute.toNat ∧ s.second.testBit t.sec.toNat

instance (s : SpecSchedule) : DecidablePred (Activates s) := fun _ =>
  inferInstanceAs (Decidable (_ ∧ _ ∧ _ ∧ _ ∧ _))

/-- No whole second strictly between `start` and `t` is an activation. -/
def Skipped (s : SpecSchedule) (start t : Time) : Prop :=
  ∀ u : Time, u.nanosecond = 0 → start < u → u < t → ¬Activates s u

/-- The fields the search has matched on its way to `phase`, in the order `Next` takes them. -/
def Matched (s : SpecSchedule) (t : Time) : Phase → Prop
  | .wrap | .month => True
  | .day => s.month.testBit t.month.toNat
  | .hour => s.month.testBit t.month.toNat ∧ dayMatches s t
  | .minute => s.month.testBit t.month.toNat ∧ dayMatches s t ∧ s.hour.testBit t.hour.toNat
  | .second => s.month.testBit t.month.toNat ∧ dayMatches s t ∧ s.hour.testBit t.hour.toNat ∧
      s.minute.testBit t.minute.toNat

/-- Once the search has reset the finer fields, it stands at the start of every unit whose
field does not match: the first of the month at midnight, midnight, the hour, the minute. -/
structure Aligned (s : SpecSchedule) (t : Time) : Prop where
  month : t.day ≠ 1 ∨ t.clock ≠ 0 → s.month.testBit t.month.toNat
  day : t.clock ≠ 0 → dayMatches s t
  hour : t.clock % 3600 ≠ 0 → s.hour.testBit t.hour.toNat
  minute : t.clock % 60 ≠ 0 → s.minute.testBit t.minute.toNat

/-- What holds at each turn of a search started after `start`. -/
structure Searching (s : SpecSchedule) (start : Time) (phase : Phase) (t : Time) (added : Bool) : Prop where
  whole : t.nanosecond = 0
  later : start < t
  skipped : Skipped s start t
  matched : Matched s t phase
  aligned : added → Aligned s t

/-- How many phases the search still passes through at one instant before a field must move it. -/
def Phase.remaining : Phase → Nat
  | .wrap => 5
  | .month => 4
  | .day => 3
  | .hour => 2
  | .minute => 1
  | .second => 0

theorem Phase.remaining_le (phase : Phase) : phase.remaining ≤ 5 ∧ (phase ≠ .wrap → phase.remaining ≤ 4) := by
  cases phase <;> decide

/-- The search enters every phase but `WRAP` only within the year limit. -/
def Within (yearLimit : Int) (phase : Phase) (t : Time) : Prop :=
  phase ≠ .wrap → t.year ≤ yearLimit

/-- A turn from `phase` at `t` that goes on to `phase'` at `t'` makes progress: it stays at `t`,
within the year limit, and passes to a later phase, or a field that does not match moves it to a
later instant, in the same year unless it goes back to `WRAP`. -/
def Advances (yearLimit : Int) (phase : Phase) (t : Time) (phase' : Phase) (t' : Time) : Prop :=
  (t' = t ∧ (phase ≠ .wrap ∨ t.year ≤ yearLimit) ∧ phase'.remaining < phase.remaining) ∨
    (phase ≠ .wrap ∧ t < t' ∧ (phase' ≠ .wrap → t'.year = t.year))

/-- What a turn of the search from `phase` at `t` gives: the zero time at `WRAP` past the year
limit, `t` itself when the second field matches, and otherwise a state where `Searching` holds and
the search has advanced. -/
def Search.Sound (s : SpecSchedule) (start : Time) (yearLimit : Int) (phase : Phase) (t : Time) : Search → Prop
  | .found t' => (phase = .wrap ∧ yearLimit < t.year ∧ t' = Time.zero) ∨ (phase = .second ∧ t' = t ∧ Activates s t)
  | .continue phase' t' added => Searching s start phase' t' added ∧ Advances yearLimit phase t phase' t'

/-- The turns a search from `phase` at `t` has left before the year limit: six for every second
up to the year after the limit, and one for every phase left. -/
def turnsLeft (yearLimit : Int) (phase : Phase) (t : Time) : Nat :=
  ((daysFromCivil (yearLimit + 1) 1 1 * 86400 - t.unix) * 6 + phase.remaining).toNat

variable {s : SpecSchedule} {start t t₁ : Time}

theorem month_eq_of_days (same : t₁.days = t.days) : t₁.month = t.month := by
  simp only [Time.month, same]

theorem year_eq_of_days (same : t₁.days = t.days) : t₁.year = t.year := by
  simp only [Time.year, same]

theorem dayMatches_eq_of_days (same : t₁.days = t.days) : dayMatches s t₁ = dayMatches s t := by
  simp only [dayMatches, Time.day, Time.weekday, same]

/-- Moving within a day whose month and day match, or to the next midnight from a day whose
month matches, keeps what `Aligned` asks of the month and the day. -/
theorem aligned_coarse (month : s.month.testBit t.month.toNat)
    (moved : (t₁.days = t.days ∧ dayMatches s t) ∨ (t₁.days = t.days + 1 ∧ t₁.clock = 0)) :
    (t₁.day ≠ 1 ∨ t₁.clock ≠ 0 → s.month.testBit t₁.month.toNat) ∧ (t₁.clock ≠ 0 → dayMatches s t₁) := by
  rcases moved with ⟨same, day⟩ | ⟨next, midnight⟩
  · exact ⟨fun _ => month_eq_of_days same ▸ month, fun _ => dayMatches_eq_of_days same ▸ day⟩
  · refine ⟨fun notStart => ?_, fun notMidnight => absurd midnight notMidnight⟩
    rw [(year_month_of_next_day next (notStart.resolve_right (by simp [midnight]))).2]
    exact month

/-- A whole second on a later day, at midnight, is later. -/
theorem later_of_days (whole : t.nanosecond = 0) (whole₁ : t₁.nanosecond = 0) (days : t.days < t₁.days)
    (midnight : t₁.clock = 0) : t < t₁ := by
  have bounds := clock_bounds t
  rw [Time.lt_def, unixNano_whole whole, unixNano_whole whole₁, midnight, second]
  omega

/-- A turn that moves a whole second `t` forward to reading `c` of its day, the next midnight when
`c` is 86400: it lands on a later whole second, on the same day at `c` or on the next day at
midnight, and every whole second it passes lies in `t`'s day between the two readings. -/
theorem advance_spec {c : Int} (whole : t.nanosecond = 0) (unixNano : t₁.unixNano = (t.days * 86400 + c) * second)
    (ahead : t.clock < c) (within : c ≤ 86400) :
    t₁.nanosecond = 0 ∧ t < t₁ ∧
      ((c < 86400 ∧ t₁.days = t.days ∧ t₁.clock = c) ∨ (c = 86400 ∧ t₁.days = t.days + 1 ∧ t₁.clock = 0)) ∧
      ∀ u : Time, u.nanosecond = 0 → t ≤ u → u < t₁ → u.days = t.days ∧ t.clock ≤ u.clock ∧ u.clock < c := by
  have bt := clock_bounds t
  refine ⟨by simp only [Time.nanosecond, unixNano, Int.mul_emod_left], ?_, ?_, fun u wholeU after before => ?_⟩
  · rw [Time.lt_def, unixNano, unixNano_whole whole, second]
    omega
  · rcases (show c < 86400 ∨ c = 86400 by omega) with inDay | rfl
    · exact .inl ⟨inDay, days_clock_eq unixNano (by omega) inDay⟩
    · exact .inr ⟨rfl, days_clock_eq (by rw [unixNano]; ring) le_rfl (by decide)⟩
  · have bu := clock_bounds u
    rw [Time.le_def, unixNano_whole whole, unixNano_whole wholeU] at after
    rw [Time.lt_def, unixNano_whole wholeU, unixNano] at before
    simp only [second] at after before
    omega

theorem Searching.later_of_lt {phase : Phase} {added : Bool} (inv : Searching s start phase t added) (later : t < t₁) :
    start < t₁ :=
  Int.lt_trans inv.later later

/-- A turn that moves from `t` to `t₁` skips nothing when no whole second from `t` on and before
`t₁` is an activation. -/
theorem Skipped.extend (skipped : Skipped s start t)
    (passed : ∀ u : Time, u.nanosecond = 0 → t ≤ u → u < t₁ → ¬Activates s u) : Skipped s start t₁ :=
  fun u whole after before =>
    if early : u < t then skipped u whole after early
    else passed u whole (Time.le_def.mpr (Int.not_lt.mp early)) before

/-- A turn of a field that does not match, from `t` to the later `t₁` past no activation: it goes
on after a reset, to `WRAP` when the field has wrapped, and otherwise in the same year. -/
theorem searching_wrapOr {c : Prop} [Decidable c] {yearLimit : Int} {phase₀ phase : Phase} {added : Bool}
    (inv : Searching s start phase₀ t added) (notWrap : phase₀ ≠ .wrap) (whole₁ : t₁.nanosecond = 0) (later : t < t₁)
    (passed : ∀ u : Time, u.nanosecond = 0 → t ≤ u → u < t₁ → ¬Activates s u) (aligned : Aligned s t₁)
    (goesOn : ¬c → Matched s t₁ phase ∧ t₁.year = t.year) :
    (Search.continue (if c then .wrap else phase) t₁ true).Sound s start yearLimit phase₀ t := by
  by_cases wrapped : c
  · simp only [if_pos wrapped]
    exact ⟨⟨whole₁, inv.later_of_lt later, inv.skipped.extend passed, trivial, fun _ => aligned⟩,
      .inr ⟨notWrap, later, fun back => absurd rfl back⟩⟩
  · simp only [if_neg wrapped]
    exact ⟨⟨whole₁, inv.later_of_lt later, inv.skipped.extend passed, (goesOn wrapped).1, fun _ => aligned⟩,
      .inr ⟨notWrap, later, fun _ => (goesOn wrapped).2⟩⟩

/-! ## One turn of the search -/

theorem sound_wrap {yearLimit : Int} {added : Bool} (inv : Searching s start .wrap t added) :
    (searchStep s yearLimit .wrap t added).Sound s start yearLimit .wrap t := by
  simp only [searchStep]
  split_ifs with beyond
  · exact .inl ⟨rfl, beyond, rfl⟩
  · exact ⟨⟨inv.whole, inv.later, inv.skipped, trivial, inv.aligned⟩, .inl ⟨rfl, .inr (not_lt.mp beyond), by decide⟩⟩

/-- A month that does not match: the search goes to the first of the next month at midnight, and
every day it passes is in the same month. -/
theorem sound_month {yearLimit : Int} {added : Bool} (inv : Searching s start .month t added) :
    (searchStep s yearLimit .month t added).Sound s start yearLimit .month t := by
  by_cases monthOk : s.month.testBit t.month.toNat
  · simp only [searchStep, monthOk, if_true]
    exact ⟨⟨inv.whole, inv.later, inv.skipped, monthOk, inv.aligned⟩, .inl ⟨rfl, .inl (by decide), by decide⟩⟩
  simp only [searchStep, monthOk, Bool.false_eq_true, if_false]
  have base : ∀ t₀ : Time, t₀ = (if added then t else date t.year t.month 1 0 0 0 0) →
      t₀.year = t.year ∧ t₀.month = t.month ∧ t₀.day = 1 ∧ t₀.clock = 0 ∧ t₀.nanosecond = 0 := by
    rintro t₀ rfl
    cases added
    · have midnight := date_midnight t.year t.month 1
      have month := civilFromDays_month t.days
      have civil : civilFromDays (date t.year t.month 1 0 0 0 0).days = (t.year, t.month, 1) := by
        rw [midnight.1, civilFromDays_monthStart, Prod.mk.injEq, Prod.mk.injEq]
        simp only [Time.month, and_true] at month ⊢
        omega
      simp only [Bool.false_eq_true, if_false]
      exact ⟨congrArg (·.1) civil, congrArg (·.2.1) civil, congrArg (·.2.2) civil, midnight.2,
        by simp [date, Time.nanosecond]⟩
    · have aligned := inv.aligned rfl
      show t.year = t.year ∧ t.month = t.month ∧ t.day = 1 ∧ t.clock = 0 ∧ t.nanosecond = 0
      refine ⟨rfl, rfl, ?_, ?_, inv.whole⟩ <;> by_contra other <;> exact monthOk (aligned.month (by simp [other]))
  obtain ⟨year, month, first, midnight, whole⟩ := base _ rfl
  generalize (if added then t else date t.year t.month 1 0 0 0 0) = t₀ at year month first midnight whole
  have next : t₀.addDate 0 1 0 = date t.year (t.month + 1) 1 0 0 0 0 := by
    simp only [addDate, year, month, first, Time.hour, Time.minute, Time.sec, midnight, whole, add_zero]
    rfl
  have reached := date_midnight t.year (t.month + 1) 1
  have whole₁ : (date t.year (t.month + 1) 1 0 0 0 0).nanosecond = 0 := by simp [date, Time.nanosecond]
  have later : t < date t.year (t.month + 1) 1 0 0 0 0 :=
    later_of_days inv.whole whole₁ (reached.1 ▸ lt_daysFromCivil_nextMonth t.days) reached.2
  have passed : ∀ u : Time, u.nanosecond = 0 → t ≤ u → u < date t.year (t.month + 1) 1 0 0 0 0 →
      ¬Activates s u := fun u wholeU after before activates => by
    have bu := clock_bounds u
    have bt := clock_bounds t
    rw [Time.lt_def, unixNano_whole wholeU, unixNano_whole whole₁, reached.2, reached.1, second] at before
    rw [Time.le_def, unixNano_whole wholeU, unixNano_whole inv.whole, second] at after
    have same := civilFromDays_month_const t.days (u.days - t.days).toNat (by
      show _ < daysFromCivil t.year (t.month + 1) 1
      omega)
    rw [show t.days + ((u.days - t.days).toNat : Int) = u.days by omega] at same
    have sameMonth : u.month = t.month := same.2
    exact monthOk (sameMonth ▸ activates.1)
  have civil : civilFromDays (date t.year (t.month + 1) 1 0 0 0 0).days = (t.year + t.month / 12, t.month % 12 + 1, 1) := by
    rw [reached.1, civilFromDays_monthStart, add_sub_cancel_right]
  rw [next]
  refine searching_wrapOr inv (by decide) whole₁ later passed ⟨fun notStart => ?_, fun other => absurd reached.2 other,
      fun other => by simp [reached.2] at other, fun other => by simp [reached.2] at other⟩ (fun notJanuary => ⟨trivial, ?_⟩)
  · rw [Time.day, civil] at notStart
    simp [reached.2] at notStart
  · -- the first of a month other than January is in the year of the month before
    have month := civilFromDays_month t.days
    rw [Time.month, civil] at notJanuary
    show (civilFromDays _).1 = t.year
    rw [civil]
    simp only [Time.month] at month notJanuary ⊢
    omega

/-- A day that does not match: the search goes to the next midnight. -/
theorem sound_day {yearLimit : Int} {added : Bool} (inv : Searching s start .day t added) :
    (searchStep s yearLimit .day t added).Sound s start yearLimit .day t := by
  by_cases dayOk : dayMatches s t
  · simp only [searchStep, dayOk, if_true]
    exact ⟨⟨inv.whole, inv.later, inv.skipped, ⟨inv.matched, dayOk⟩, inv.aligned⟩, .inl ⟨rfl, .inl (by decide), by decide⟩⟩
  simp only [searchStep, dayOk, Bool.false_eq_true, if_false]
  have base : ∀ t₀ : Time, t₀ = (if added then t else date t.year t.month t.day 0 0 0 0) →
      t₀.days = t.days ∧ t₀.clock = 0 ∧ t₀.nanosecond = 0 := by
    rintro t₀ rfl
    cases added
    · have midnight := date_midnight t.year t.month t.day
      simp only [Bool.false_eq_true, if_false]
      refine ⟨?_, midnight.2, by simp [date, Time.nanosecond]⟩
      rw [midnight.1]
      exact civilFromDays_inverse t.days
    · show t.days = t.days ∧ t.clock = 0 ∧ t.nanosecond = 0
      exact ⟨rfl, by by_contra other; exact dayOk ((inv.aligned rfl).day other), inv.whole⟩
  obtain ⟨same, midnight, whole⟩ := base _ rfl
  generalize (if added then t else date t.year t.month t.day 0 0 0 0) = t₀ at same midnight whole
  have next : t₀.addDate 0 0 1 = date t₀.year t₀.month (t₀.day + 1) 0 0 0 0 := by
    simp only [addDate, Time.hour, Time.minute, Time.sec, midnight, whole, add_zero]
    rfl
  have reached := date_midnight t₀.year t₀.month (t₀.day + 1)
  have days : (date t₀.year t₀.month (t₀.day + 1) 0 0 0 0).days = t.days + 1 := by
    rw [reached.1, daysFromCivil_succ, ← same]
    exact congrArg (· + 1) (civilFromDays_inverse t₀.days)
  have unix₁ : (date t₀.year t₀.month (t₀.day + 1) 0 0 0 0).unixNano = (t.days * 86400 + 86400) * second := by
    rw [unixNano_whole (by simp [date, Time.nanosecond]), days, reached.2]
    ring
  obtain ⟨whole₁, later, -, inDay⟩ := advance_spec inv.whole unix₁ (clock_bounds t).2 le_rfl
  have coarse := aligned_coarse inv.matched (.inr ⟨days, reached.2⟩)
  have hour : (date t₀.year t₀.month (t₀.day + 1) 0 0 0 0).hour = 0 := by simp [Time.hour, reached.2]
  rw [next, if_pos hour]
  refine searching_wrapOr inv (by decide) whole₁ later
    (fun u wholeU after before activates => dayOk (dayMatches_eq_of_days (inDay u wholeU after before).1 ▸ activates.2.1))
    ⟨coarse.1, coarse.2, fun other => ?_, fun other => ?_⟩
    (fun notFirst => have same := year_month_of_next_day days notFirst
      ⟨show s.month.testBit _ from same.2 ▸ inv.matched, same.1⟩) <;>
    simp [reached.2] at other

/-- An hour that does not match: the search goes to the start of the next hour. -/
theorem sound_hour {yearLimit : Int} {added : Bool} (inv : Searching s start .hour t added) :
    (searchStep s yearLimit .hour t added).Sound s start yearLimit .hour t := by
  obtain ⟨month, day⟩ := inv.matched
  by_cases hourOk : s.hour.testBit t.hour.toNat
  · simp only [searchStep, hourOk, if_true]
    exact ⟨⟨inv.whole, inv.later, inv.skipped, ⟨month, day, hourOk⟩, inv.aligned⟩, .inl ⟨rfl, .inl (by decide), by decide⟩⟩
  simp only [searchStep, hourOk, Bool.false_eq_true, if_false]
  have bounds := clock_bounds t
  have whole := unixNano_whole inv.whole
  have base : (if added then t else date t.year t.month t.day t.hour 0 0 0).unixNano =
      (t.days * 86400 + t.hour * 3600) * second := by
    cases added
    · simp only [Bool.false_eq_true, if_false, date, Time.year, Time.month, Time.day, civilFromDays_inverse]
      ring
    · have onHour : t.clock % 3600 = 0 := by
        by_contra other
        exact hourOk ((inv.aligned rfl).hour other)
      simp only [if_true, whole, Time.hour]
      congr 1
      omega
  generalize (if added then t else date t.year t.month t.day t.hour 0 0 0) = t₀ at base
  have unix₁ : (t₀.add (3600 * second)).unixNano = (t.days * 86400 + (t.hour + 1) * 3600) * second := by
    rw [add_unixNano, base]
    ring
  generalize t₀.add (3600 * second) = t₁ at unix₁ ⊢
  obtain ⟨whole₁, later, landing, inDay⟩ :=
    advance_spec inv.whole unix₁ (by simp only [Time.hour]; omega) (by simp only [Time.hour]; omega)
  have passed : ∀ u : Time, u.nanosecond = 0 → t ≤ u → u < t₁ → ¬Activates s u :=
    fun u wholeU after before activates => by
      obtain ⟨-, lo, hi⟩ := inDay u wholeU after before
      have sameHour : u.hour = t.hour := by simp only [Time.hour] at hi ⊢; omega
      exact hourOk (sameHour ▸ activates.2.2.1)
  rcases landing with ⟨-, same, clock₁⟩ | ⟨-, next, midnight⟩
  · have coarse := aligned_coarse month (.inl ⟨same, day⟩)
    refine searching_wrapOr inv (by decide) whole₁ later passed
      ⟨coarse.1, coarse.2, fun other => ?_, fun other => ?_⟩
      (fun _ => ⟨⟨month_eq_of_days same ▸ month, dayMatches_eq_of_days same ▸ day⟩, year_eq_of_days same⟩) <;>
      rw [clock₁] at other <;> omega
  · have coarse := aligned_coarse month (.inr ⟨next, midnight⟩)
    refine searching_wrapOr inv (by decide) whole₁ later passed
      ⟨coarse.1, coarse.2, fun other => ?_, fun other => ?_⟩
      (fun notWrapped => absurd (by simp [Time.hour, midnight]) notWrapped) <;> simp [midnight] at other

/-- A minute that does not match: the search goes to the start of the next minute. -/
theorem sound_minute {yearLimit : Int} {added : Bool} (inv : Searching s start .minute t added) :
    (searchStep s yearLimit .minute t added).Sound s start yearLimit .minute t := by
  obtain ⟨month, day, hour⟩ := inv.matched
  by_cases minuteOk : s.minute.testBit t.minute.toNat
  · simp only [searchStep, minuteOk, if_true]
    exact ⟨⟨inv.whole, inv.later, inv.skipped, ⟨month, day, hour, minuteOk⟩, inv.aligned⟩, .inl ⟨rfl, .inl (by decide), by decide⟩⟩
  simp only [searchStep, minuteOk, Bool.false_eq_true, if_false]
  have bounds := clock_bounds t
  have whole := unixNano_whole inv.whole
  have base : (if added then t else t.truncate (60 * second)).unixNano =
      (t.days * 86400 + t.clock / 60 * 60) * second := by
    cases added
    · simp only [Bool.false_eq_true, if_false, truncate, zero, second] at whole ⊢
      omega
    · have onMinute : t.clock % 60 = 0 := by
        by_contra other
        exact minuteOk ((inv.aligned rfl).minute other)
      simp only [if_true, whole]
      congr 1
      omega
  generalize (if added then t else t.truncate (60 * second)) = t₀ at base
  have unix₁ : (t₀.add (60 * second)).unixNano = (t.days * 86400 + (t.clock / 60 + 1) * 60) * second := by
    rw [add_unixNano, base]
    ring
  generalize t₀.add (60 * second) = t₁ at unix₁ ⊢
  obtain ⟨whole₁, later, landing, inDay⟩ := advance_spec inv.whole unix₁ (by omega) (by omega)
  have passed : ∀ u : Time, u.nanosecond = 0 → t ≤ u → u < t₁ → ¬Activates s u :=
    fun u wholeU after before activates => by
      obtain ⟨-, lo, hi⟩ := inDay u wholeU after before
      have sameMinute : u.minute = t.minute := by simp only [Time.minute]; omega
      exact minuteOk (sameMinute ▸ activates.2.2.2.1)
  rcases landing with ⟨-, same, clock₁⟩ | ⟨-, next, midnight⟩
  · have coarse := aligned_coarse month (.inl ⟨same, day⟩)
    have sameHour : t₁.clock % 3600 ≠ 0 → t₁.hour = t.hour := fun other => by
      simp only [Time.hour, clock₁] at other ⊢
      omega
    refine searching_wrapOr inv (by decide) whole₁ later passed
      ⟨coarse.1, coarse.2, fun other => sameHour other ▸ hour, fun other => by rw [clock₁] at other; omega⟩
      (fun notWrapped => ⟨⟨month_eq_of_days same ▸ month, dayMatches_eq_of_days same ▸ day,
        sameHour (fun other => notWrapped ?_) ▸ hour⟩, year_eq_of_days same⟩)
    simp only [Time.minute, clock₁] at other ⊢
    omega
  · have coarse := aligned_coarse month (.inr ⟨next, midnight⟩)
    refine searching_wrapOr inv (by decide) whole₁ later passed
      ⟨coarse.1, coarse.2, fun other => ?_, fun other => ?_⟩
      (fun notWrapped => absurd (by simp [Time.minute, midnight]) notWrapped) <;> simp [midnight] at other

/-- A second that does not match: the search goes to the next second; one that matches ends the
search with an activation. -/
theorem sound_second {yearLimit : Int} {added : Bool} (inv : Searching s start .second t added) :
    (searchStep s yearLimit .second t added).Sound s start yearLimit .second t := by
  obtain ⟨month, day, hour, minute⟩ := inv.matched
  by_cases secondOk : s.second.testBit t.sec.toNat
  · simp only [searchStep, secondOk, if_true]
    exact .inr ⟨rfl, rfl, month, day, hour, minute, secondOk⟩
  simp only [searchStep, secondOk, Bool.false_eq_true, if_false]
  have bounds := clock_bounds t
  have whole := unixNano_whole inv.whole
  have base : (if added then t else t.truncate second).unixNano = (t.days * 86400 + t.clock) * second := by
    cases added
    · simp only [Bool.false_eq_true, if_false, truncate, zero, second] at whole ⊢
      omega
    · exact whole
  generalize (if added then t else t.truncate second) = t₀ at base
  have unix₁ : (t₀.add second).unixNano = (t.days * 86400 + (t.clock + 1)) * second := by
    rw [add_unixNano, base]
    ring
  generalize t₀.add second = t₁ at unix₁ ⊢
  obtain ⟨whole₁, later, landing, inDay⟩ := advance_spec inv.whole unix₁ (by omega) (by omega)
  have passed : ∀ u : Time, u.nanosecond = 0 → t ≤ u → u < t₁ → ¬Activates s u :=
    fun u wholeU after before activates => by
      obtain ⟨-, lo, hi⟩ := inDay u wholeU after before
      have sameSecond : u.sec = t.sec := by simp only [Time.sec]; omega
      exact secondOk (sameSecond ▸ activates.2.2.2.2)
  rcases landing with ⟨-, same, clock₁⟩ | ⟨-, next, midnight⟩
  · have coarse := aligned_coarse month (.inl ⟨same, day⟩)
    have sameHour : t₁.clock % 3600 ≠ 0 → t₁.hour = t.hour := fun other => by
      simp only [Time.hour, clock₁] at other ⊢
      omega
    have sameMinute : t₁.clock % 60 ≠ 0 → t₁.minute = t.minute := fun other => by
      simp only [Time.minute, clock₁] at other ⊢
      omega
    have inHour : t₁.clock % 60 ≠ 0 → t₁.clock % 3600 ≠ 0 := fun other => by omega
    refine searching_wrapOr inv (by decide) whole₁ later passed ⟨coarse.1, coarse.2,
      fun other => sameHour other ▸ hour, fun other => sameMinute other ▸ minute⟩ (fun notWrapped => ?_)
    have other : t₁.clock % 60 ≠ 0 := by simpa [Time.sec] using notWrapped
    exact ⟨⟨month_eq_of_days same ▸ month, dayMatches_eq_of_days same ▸ day, sameHour (inHour other) ▸ hour,
      sameMinute other ▸ minute⟩, year_eq_of_days same⟩
  · have coarse := aligned_coarse month (.inr ⟨next, midnight⟩)
    refine searching_wrapOr inv (by decide) whole₁ later passed
      ⟨coarse.1, coarse.2, fun other => ?_, fun other => ?_⟩
      (fun notWrapped => absurd (by simp [Time.sec, midnight]) notWrapped) <;> simp [midnight] at other

/-! ## The whole search -/

/-- One turn of the search keeps `Searching` and advances, and stops only at `WRAP` past the year
limit or at an activation. -/
theorem searchStep_sound {yearLimit : Int} {phase : Phase} {added : Bool} (inv : Searching s start phase t added) :
    (searchStep s yearLimit phase t added).Sound s start yearLimit phase t := by
  cases phase with
  | wrap => exact sound_wrap inv
  | month => exact sound_month inv
  | day => exact sound_day inv
  | hour => exact sound_hour inv
  | minute => exact sound_minute inv
  | second => exact sound_second inv

/-- A turn that advances from a state within the year limit leads to one within it, with fewer
turns left. -/
theorem Advances.descends {yearLimit : Int} {phase phase' : Phase} (advances : Advances yearLimit phase t phase' t₁)
    (whole : t.nanosecond = 0) (whole₁ : t₁.nanosecond = 0) (within : Within yearLimit phase t) :
    Within yearLimit phase' t₁ ∧ turnsLeft yearLimit phase' t₁ < turnsLeft yearLimit phase t := by
  have ranks := phase'.remaining_le
  rcases advances with ⟨rfl, inYear, fewer⟩ | ⟨notWrap, later, sameYear⟩
  · have inYear := inYear.elim within id
    have before := days_lt_newYear inYear
    refine ⟨fun _ => inYear, ?_⟩
    simp only [turnsLeft, Time.days] at before ⊢
    omega
  · have inYear := within notWrap
    have before := days_lt_newYear inYear
    have ranks₀ := (phase.remaining_le).2 notWrap
    refine ⟨fun notWrap₁ => (sameYear notWrap₁).trans_le inYear, ?_⟩
    simp only [turnsLeft, Time.days, Time.unix, Time.nanosecond, Time.lt_def, second] at before whole whole₁ later ⊢
    omega

/-- What the search may end with, from `start` and with year limit `yearLimit`: the zero time,
when no whole second after `start` in a year up to the limit is an activation, or the first
activation after `start`, within the limit. -/
def Outcome (s : SpecSchedule) (start : Time) (yearLimit : Int) (r : Time) : Prop :=
  (r = Time.zero ∧ ∀ u : Time, u.nanosecond = 0 → start < u → u.year ≤ yearLimit → ¬Activates s u) ∨
    (Activates s r ∧ r.nanosecond = 0 ∧ start < r ∧ Skipped s start r ∧ r.year ≤ yearLimit)

/-- Given more fuel than it has turns left, the search ends at `WRAP` past the year limit, with
no activation skipped up to the limit, or at the first activation. -/
theorem search_total {yearLimit : Int} :
    ∀ {fuel phase t added}, Searching s start phase t added → Within yearLimit phase t →
      turnsLeft yearLimit phase t < fuel → Outcome s start yearLimit (search s yearLimit fuel phase t added)
  | 0, _, _, _, _, _, enough => absurd enough (Nat.not_lt_zero _)
  | fuel + 1, phase, t, added, inv, within, enough => by
    have step : (searchStep s yearLimit phase t added).Sound s start yearLimit phase t := searchStep_sound inv
    simp only [search]
    split
    · rename_i found
      rw [found] at step
      rcases step with ⟨-, beyond, rfl⟩ | ⟨rfl, rfl, activates⟩
      · exact Or.inl ⟨rfl, fun u whole after inYear =>
          inv.skipped u whole after (lt_of_year_lt (lt_of_le_of_lt inYear beyond))⟩
      · exact Or.inr ⟨activates, inv.whole, inv.later, inv.skipped, within (by decide)⟩
    · rename_i found
      rw [found] at step
      obtain ⟨inv₁, advances⟩ := step
      obtain ⟨within₁, fewer⟩ := advances.descends inv.whole inv₁.whole within
      exact search_total inv₁ within₁ (by omega)

/-- `Next` starts its search at the next whole second, at `WRAP`, with nothing reset: no whole
second lies strictly between the start and it. -/
theorem searching_start (t : Time) : Searching s t .wrap (t.add (second - t.nanosecond)) false :=
  ⟨by simp only [Time.nanosecond, add_unixNano, second]; omega,
    by simp only [Time.lt_def, add_unixNano, Time.nanosecond, second]; omega,
    fun u whole after before => absurd before (by
      simp only [Time.lt_def, add_unixNano, Time.nanosecond, second] at whole after ⊢
      omega),
    trivial, fun added => absurd added (by decide)⟩

/-- Five years of search from `WRAP` take fewer turns than the fuel `Next` gives. -/
theorem turnsLeft_start (t : Time) :
    turnsLeft ((t.add (second - t.nanosecond)).year + 5) .wrap (t.add (second - t.nanosecond)) < 1000000000000 := by
  generalize t.add (second - t.nanosecond) = t₀
  have first : daysFromCivil t₀.year 1 1 ≤ t₀.days := (newYear_le_days t₀.days).1
  have sixYears := newYear_add_six t₀.year
  simp only [turnsLeft, Phase.remaining, Time.days, Time.unix] at first ⊢
  rw [show t₀.year + 5 + 1 = t₀.year + 6 by ring]
  omega

/-- `Next` returns the zero time or the first activation after `t`. -/
theorem next_zero_or_first (s : SpecSchedule) (t : Time) :
    s.next t = Time.zero ∨
      (Activates s (s.next t) ∧ (s.next t).nanosecond = 0 ∧ t < s.next t ∧ Skipped s t (s.next t)) :=
  (search_total (searching_start t) (fun notWrap => absurd rfl notWrap) (turnsLeft_start t)).imp And.left
    fun found => ⟨found.1, found.2.1, found.2.2.1, found.2.2.2.1⟩

/-- **`Next` returns the first activation, or the zero time only after five years.** For every
schedule and every instant `t`, `SpecSchedule.Next` returns the zero time, and then no whole
second after `t` up to the end of the fifth year after the year of its search's start is an
activation, or a whole second strictly after `t`, in those years, whose month, day, hour, minute
and second the schedule admits, with no such whole second between `t` and it. The search never
runs out of its fuel. -/
theorem next_activates (s : SpecSchedule) (t : Time) :
    (s.next t = Time.zero ∧
        ∀ u : Time, u.nanosecond = 0 → t < u → u.year ≤ (t.add (second - t.nanosecond)).year + 5 → ¬Activates s u) ∨
      (Activates s (s.next t) ∧ (s.next t).nanosecond = 0 ∧ t < s.next t ∧ Skipped s t (s.next t) ∧
        (s.next t).year ≤ (t.add (second - t.nanosecond)).year + 5) :=
  search_total (searching_start t) (fun notWrap => absurd rfl notWrap) (turnsLeft_start t)

end Cronbat.Cron
