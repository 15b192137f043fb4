import Cronbat.Activation
import Cronbat.Scheduler

/-! What `ParseSchedule` accepts, and what `NextTime` then gives for it. The parser builds each
field of a spec as the union of `getBits` ranges, and `getRange` checks every range against the
field's bounds before it returns; so every bit of an accepted field is a value of the field or the
star bit, and the seconds field of a five-field expression or a descriptor is exactly `{0}`.
`@every` gives a delay of a whole number of seconds, at least one (`WellFormed`).

From that and the search's invariant (`Cronbat.Activation`), `NextTime` of an accepted schedule
is, for a spec, the zero time or the first activation after its argument, at second 0 of a
minute; and for `@every d`, a whole second after its argument and at most `d` later. A field can
still be empty: `strings.FieldsFunc` drops the pieces between commas, so a field `,` admits no
value, and such a schedule never activates. -/
namespace Cronbat.Cron
open Cronbat Cronbat.Time

/-- The bits a field of `r` may hold: the values of its range, and the star bit. -/
def InRange (r : Bounds) (bits : Nat) : Prop :=
  ∀ i, bits.testBit i → i = 63 ∨ r.min ≤ i ∧ i ≤ r.max

/-- A schedule as the parser returns it: a spec whose seconds field is exactly `0` and whose other
fields hold only values of their ranges, or a constant delay of a whole number of seconds, at
least one. -/
inductive WellFormed : Schedule → Prop
  | spec {s : SpecSchedule} (second : s.second = 1) (minute : InRange minutes s.minute)
      (hour : InRange hours s.hour) (day : InRange dom s.dom) (month : InRange months s.month)
      (weekday : InRange dow s.dow) : WellFormed (.spec s)
  | constantDelay {delay : Int} (atLeast : Time.second ≤ delay) (whole : delay % Time.second = 0) :
      WellFormed (.constantDelay delay)

/-! ## Bits -/

theorem testBit_foldl_or (l : List Nat) (b j : Nat) :
    (l.foldl (fun b i => b ||| 2 ^ i) b).testBit j = (b.testBit j || decide (j ∈ l)) := by
  induction l generalizing b with
  | nil => simp
  | cons i rest ih =>
    rw [List.foldl_cons, ih, Nat.testBit_or, Nat.testBit_two_pow]
    simp only [List.mem_cons, Bool.decide_or, Bool.or_assoc, @eq_comm _ i j]

/-- The bits of `getBits lo hi step`: the values from `lo` up to `hi` a whole number of steps
past `lo`. -/
theorem testBit_getBits (lo hi step j : Nat) :
    (getBits lo hi step).testBit j = decide (j ≤ hi ∧ lo ≤ j ∧ (j - lo) % step = 0) := by
  simp only [getBits, testBit_foldl_or, Nat.zero_testBit, Bool.false_or, List.mem_filter, List.mem_range,
    Nat.lt_succ_iff, decide_eq_decide]
  simp

theorem InRange.or {r : Bounds} {a b : Nat} (ha : InRange r a) (hb : InRange r b) : InRange r (a ||| b) := by
  intro i set
  rw [Nat.testBit_or, Bool.or_eq_true] at set
  exact set.elim (ha i) (hb i)

theorem inRange_zero (r : Bounds) : InRange r 0 := fun i set => by simp at set

theorem inRange_two_pow {r : Bounds} {i : Nat} (lo : r.min ≤ i) (hi : i ≤ r.max) : InRange r (2 ^ i) :=
  fun j set => by
    rw [Nat.testBit_two_pow] at set
    obtain rfl := of_decide_eq_true set
    exact .inr ⟨lo, hi⟩

theorem inRange_starBit (r : Bounds) : InRange r starBit := fun i set => by
  rw [starBit, Nat.testBit_two_pow] at set
  exact .inl (of_decide_eq_true set).symm

theorem inRange_getBits {r : Bounds} {lo hi : Nat} (step : Nat) (lo_ok : r.min ≤ lo) (hi_ok : hi ≤ r.max) :
    InRange r (getBits lo hi step) := fun i set => by
  have := of_decide_eq_true ((testBit_getBits lo hi step i).symm.trans set)
  exact .inr ⟨by omega, by omega⟩

theorem inRange_all (r : Bounds) : InRange r (all r) := (inRange_getBits 1 le_rfl le_rfl).or (inRange_starBit r)

/-! ## Parsing -/

theorem bind_eq_ok {ε α β : Type} {x : Except ε α} {f : α → Except ε β} {b : β} :
    x >>= f = .ok b ↔ ∃ a, x = .ok a ∧ f a = .ok b := by
  cases x <;> simp [bind, Except.bind]

theorem splitChar_ne_nil (sep : Char) (cs : List Char) : splitChar sep cs ≠ [] := by
  rw [splitChar_eq_splitOn]
  exact List.splitOnP_ne_nil _ _

/-- The checks that end `getRange`: a range that passes them lies within the field. -/
theorem checks_inRange {r : Bounds} {start stop step extra bits : Nat} {e₁ e₂ e₃ e₄ : String}
    (extraOk : InRange r extra)
    (ok : (if start < r.min then Except.error e₁ else if r.max < stop then Except.error e₂ else
      if stop < start then Except.error e₃ else if step = 0 then Except.error e₄ else
      Except.ok (getBits start stop step ||| extra)) = .ok bits) : InRange r bits := by
  split_ifs at ok with below above
  cases ok
  exact (inRange_getBits step (Nat.not_lt.mp below) (Nat.not_lt.mp above)).or extraOk

/-- Every range `getRange` accepts lies within the field. The split on `/` and on `-`, the star
test and the numbers read fix the path; each path ends in an error or in the checks. -/
theorem getRange_inRange {expr : List Char} {r : Bounds} {bits : Nat} (ok : getRange expr r = .ok bits) :
    InRange r bits := by
  unfold getRange at ok
  rcases slash : splitChar '/' expr with _ | ⟨part, _ | ⟨stepText, _ | ⟨_, _⟩⟩⟩
  · exact absurd slash (splitChar_ne_nil _ _)
  all_goals simp only [slash, bind, Except.bind, pure, Except.pure, List.headD_cons] at ok
  all_goals rcases hyphen : splitChar '-' part with _ | ⟨low, _ | ⟨high, _ | ⟨_, _⟩⟩⟩
  all_goals try exact absurd hyphen (splitChar_ne_nil _ _)
  all_goals simp only [hyphen, List.headD_cons, List.length_cons, List.length_nil] at ok
  all_goals by_cases star : low = ['*'] ∨ low = ['?']
  all_goals first | rw [if_pos star] at ok | rw [if_neg star] at ok
  all_goals try (cases parsed : parseIntOrName low r.names <;> simp only [parsed] at ok)
  all_goals try (cases parsed : parseIntOrName high r.names <;> simp only [parsed] at ok)
  all_goals try (cases parsed : mustParseInt stepText <;> simp only [parsed] at ok)
  all_goals first
    | exact checks_inRange (by first | exact inRange_zero r | exact inRange_starBit r |
        (split <;> first | exact inRange_zero r | exact inRange_starBit r)) ok
    | cases ok

theorem foldlM_getRange_inRange {r : Bounds} :
    ∀ (exprs : List (List Char)) {acc bits : Nat}, InRange r acc →
      exprs.foldlM (fun bits expr => (bits ||| ·) <$> getRange expr r) acc = .ok bits → InRange r bits
  | [], _, _, accOk, ok => by
    cases ok
    exact accOk
  | expr :: rest, acc, _, accOk, ok => by
    rw [List.foldlM_cons] at ok
    cases ranged : getRange expr r with
    | error _ =>
      rw [ranged] at ok
      cases ok
    | ok b =>
      rw [ranged] at ok
      exact foldlM_getRange_inRange rest (accOk.or (getRange_inRange ranged)) ok

theorem getField_inRange {field : List Char} {r : Bounds} {bits : Nat} (ok : getField field r = .ok bits) :
    InRange r bits :=
  foldlM_getRange_inRange _ (inRange_zero r) ok

theorem getField_zero : getField ['0'] seconds = .ok 1 := rfl

theorem descriptorSpec_wellFormed {day month weekday hour : Nat} (dayOk : InRange dom day)
    (monthOk : InRange months month) (weekdayOk : InRange dow weekday) (hourOk : InRange hours hour) :
    WellFormed (.spec (descriptorSpec day month weekday hour)) :=
  .spec rfl (inRange_two_pow le_rfl (by decide)) hourOk dayOk monthOk weekdayOk

theorem every_wellFormed (duration : Int) : WellFormed (every duration) := by
  unfold every
  constructor <;> split_ifs <;> simp only [Time.second] at * <;> omega

theorem parseDescriptor_wellFormed {descriptor : List Char} {sched : Schedule}
    (ok : parseDescriptor descriptor = .ok sched) : WellFormed sched := by
  have least {r : Bounds} (bounded : r.min ≤ r.max) : InRange r (2 ^ r.min) := inRange_two_pow le_rfl bounded
  unfold parseDescriptor at ok
  split at ok
  case h_1 | h_2 =>
    cases ok
    exact descriptorSpec_wellFormed (least (by decide)) (least (by decide)) (inRange_all dow) (least (by decide))
  case h_3 =>
    cases ok
    exact descriptorSpec_wellFormed (least (by decide)) (inRange_all months) (inRange_all dow) (least (by decide))
  case h_4 =>
    cases ok
    exact descriptorSpec_wellFormed (inRange_all dom) (inRange_all months) (least (by decide)) (least (by decide))
  case h_5 | h_6 =>
    cases ok
    exact descriptorSpec_wellFormed (inRange_all dom) (inRange_all months) (inRange_all dow) (least (by decide))
  case h_7 =>
    cases ok
    exact descriptorSpec_wellFormed (inRange_all dom) (inRange_all months) (inRange_all dow) (inRange_all hours)
  case h_8 =>
    split at ok
    · split at ok
      · cases ok
        exact every_wellFormed _
      · cases ok
    · cases ok

theorem parse_wellFormed {spec : String} {sched : Schedule} (ok : parse spec = .ok sched) : WellFormed sched := by
  rw [parse] at ok
  split_ifs at ok
  · cases ok
  simp only [bind_eq_ok] at ok
  obtain ⟨-, -, cs, -, ok⟩ := ok
  split_ifs at ok
  · exact parseDescriptor_wellFormed ok
  split at ok
  · simp only [bind_eq_ok] at ok
    obtain ⟨second, zero, minute, mi, hour, h, day, dm, month, mo, weekday, dw, ok⟩ := ok
    cases ok
    exact .spec (Except.ok.inj (getField_zero.symm.trans zero)).symm (getField_inRange mi) (getField_inRange h)
      (getField_inRange dm) (getField_inRange mo) (getField_inRange dw)
  · cases ok

/-- **What the parser accepts is well formed.** Every schedule `ParseSchedule` returns is a spec
whose seconds field is exactly `{0}` and whose other fields hold only values of their ranges (or
the star bit), or an `@every` delay of a whole number of seconds, at least one. -/
theorem parseSchedule_wellFormed {expr : String} {sched : Schedule}
    (accepted : Scheduler.parseSchedule expr = .ok sched) : WellFormed sched :=
  parse_wellFormed accepted

theorem parseSchedule_wellFormed_weekdays :
    ∃ sched, Scheduler.parseSchedule "30 9 * * mon-fri" = .ok sched ∧ WellFormed sched :=
  ⟨_, rfl, @parseSchedule_wellFormed "30 9 * * mon-fri" _ rfl⟩

/-! ## Fire times -/

theorem sec_of_second_one {s : SpecSchedule} {t : Time} (second : s.second = 1) (activates : Activates s t) :
    t.sec = 0 := by
  have matched := activates.2.2.2.2
  rw [second, show (1 : Nat) = 2 ^ 0 from rfl, Nat.testBit_two_pow] at matched
  have nonneg : 0 ≤ t.sec := Int.emod_nonneg _ (by decide)
  have := of_decide_eq_true matched
  omega

/-- `NextTime` of a well-formed schedule: for a spec, the zero time or the first activation after
`t`, at second 0; for a delay, a whole second after `t` and at most the delay later. -/
theorem WellFormed.nextTime {sched : Schedule} (wf : WellFormed sched) (t : Time) :
    (∀ s, sched = .spec s → Scheduler.nextTime sched t = Time.zero ∨
      (Activates s (Scheduler.nextTime sched t) ∧ (Scheduler.nextTime sched t).sec = 0 ∧
        (Scheduler.nextTime sched t).nanosecond = 0 ∧ t < Scheduler.nextTime sched t ∧
        Skipped s t (Scheduler.nextTime sched t))) ∧
    (∀ delay, sched = .constantDelay delay → Time.second ≤ delay ∧
      (Scheduler.nextTime sched t).nanosecond = 0 ∧ t < Scheduler.nextTime sched t ∧
      (Scheduler.nextTime sched t).unixNano ≤ t.unixNano + delay) := by
  cases wf with
  | spec second =>
    refine ⟨fun s same => ?_, fun _ other => absurd other (by simp)⟩
    cases same
    rcases next_zero_or_first _ t with zero | ⟨activates, whole, later, skipped⟩
    · exact .inl zero
    · exact .inr ⟨activates, sec_of_second_one second activates, whole, later, skipped⟩
  | constantDelay atLeast whole =>
    refine ⟨fun _ other => absurd other (by simp), fun delay same => ?_⟩
    cases same
    simp only [Scheduler.nextTime, Schedule.next, Time.nanosecond, Time.add, Time.lt_def, Time.second] at *
    omega

/-- `NextTime` of a well-formed schedule is the zero time or later than its reading. -/
theorem WellFormed.later {sched : Schedule} (wf : WellFormed sched) (t : Time) :
    Scheduler.nextTime sched t = Time.zero ∨ t < Scheduler.nextTime sched t := by
  obtain ⟨spec, delay⟩ := wf.nextTime t
  cases wf with
  | spec => exact (spec _ rfl).imp_right fun found => found.2.2.2.1
  | constantDelay => exact .inr (delay _ rfl).2.2.1

/-- **What `NextTime` gives for an accepted expression.** For every expression `ParseSchedule`
accepts and every instant `t`: for a cron expression or descriptor, `NextTime` is the zero time or
the first activation after `t`, a whole minute (second 0) whose month, day, hour and minute the
expression admits; for `@every d`, it is a whole second after `t` and at most `d` later, with
`d` at least a second. -/
theorem nextTime_parsed {expr : String} {sched : Schedule} (accepted : Scheduler.parseSchedule expr = .ok sched)
    (t : Time) :
    (∀ s, sched = .spec s → Scheduler.nextTime sched t = Time.zero ∨
      (Activates s (Scheduler.nextTime sched t) ∧ (Scheduler.nextTime sched t).sec = 0 ∧
        (Scheduler.nextTime sched t).nanosecond = 0 ∧ t < Scheduler.nextTime sched t ∧
        Skipped s t (Scheduler.nextTime sched t))) ∧
    (∀ delay, sched = .constantDelay delay → Time.second ≤ delay ∧
      (Scheduler.nextTime sched t).nanosecond = 0 ∧ t < Scheduler.nextTime sched t ∧
      (Scheduler.nextTime sched t).unixNano ≤ t.unixNano + delay) :=
  (parse_wellFormed accepted).nextTime t

theorem nextTime_parsed_every :
    ∃ sched, Scheduler.parseSchedule "@every 90s" = .ok sched ∧
      (∀ s, sched = .spec s → Scheduler.nextTime sched ⟨0⟩ = Time.zero ∨
        (Activates s (Scheduler.nextTime sched ⟨0⟩) ∧ (Scheduler.nextTime sched ⟨0⟩).sec = 0 ∧
          (Scheduler.nextTime sched ⟨0⟩).nanosecond = 0 ∧ ⟨0⟩ < Scheduler.nextTime sched ⟨0⟩ ∧
          Skipped s ⟨0⟩ (Scheduler.nextTime sched ⟨0⟩))) ∧
      (∀ delay, sched = .constantDelay delay → Time.second ≤ delay ∧
        (Scheduler.nextTime sched ⟨0⟩).nanosecond = 0 ∧ ⟨0⟩ < Scheduler.nextTime sched ⟨0⟩ ∧
        (Scheduler.nextTime sched ⟨0⟩).unixNano ≤ (⟨0⟩ : Time).unixNano + delay) :=
  ⟨_, rfl, @nextTime_parsed "@every 90s" _ rfl ⟨0⟩⟩

end Cronbat.Cron
