import Cronbat.Scheduler

/-! Go's `time.Time` with its monotonic reading, as the scheduler's queue reads it. `time.Now()`
returns a wall reading and a monotonic one; `Before`, `After` and `Sub` compare the monotonic
readings when both times carry one and the wall readings otherwise, and `Add` moves both. The
queue stores what the schedule's `Next` returns: `@every` adds to its reading and keeps the
monotonic part; a cron spec builds its result from the wall reading and returns none
(`SpecSchedule.Next` ends in `t.In(loc)`, which strips it).

So `entryHeap.Less` compares two `@every` entries by the monotonic clock and a cron entry with
anything by the wall clock. While the two clocks keep one offset (no step of the wall clock and
no suspend), every comparison is that of the wall readings, and the queue on `Instant`s is the
queue on `Time`s read through `Instant.wall` (`run_wall`), so the heap order and the rest of
`Valid` carry over (`queue_representation`). After a step of the wall clock `Less` can be
cyclic, and the heap order fails (`wall_step_breaks_heap_order`).

Not modelled: `Add` dropping the monotonic reading on overflow or outside the years 1885 to
2157, and the saturation of `Sub`. -/
namespace Cronbat
open Cronbat.Cron Cronbat.Heap Cronbat.Heap.EntryHeap Cronbat.Scheduler

/-- A `time.Time`: its wall reading, and its monotonic reading when it carries one. -/
structure Instant where
  wall : Time
  mono : Option Int
  deriving DecidableEq, Repr

namespace Instant

/-- `t.Before(u)`. -/
def before (t u : Instant) : Bool :=
  match t.mono, u.mono with
  | some m, some n => decide (m < n)
  | _, _ => t.wall.before u.wall

/-- `t.Sub(u)`, in nanoseconds. -/
def sub (t u : Instant) : Int :=
  match t.mono, u.mono with
  | some m, some n => m - n
  | _, _ => t.wall.unixNano - u.wall.unixNano

/-- `t.Add(d)`: both readings move by `d`. -/
def add (t : Instant) (d : Int) : Instant := ⟨t.wall.add d, t.mono.map (· + d)⟩

/-- `time.Time{}`, which carries no monotonic reading. -/
def zero : Instant := ⟨Time.zero, none⟩

/-- A reading taken while the monotonic clock stands `off` behind the wall clock: its monotonic
part, when it has one, is its wall part less `off`. -/
def Lockstep (off : Int) (t : Instant) : Prop := ∀ m ∈ t.mono, t.wall.unixNano - m = off

instance (off : Int) (t : Instant) : Decidable (t.Lockstep off) :=
  inferInstanceAs (Decidable (∀ m ∈ t.mono, t.wall.unixNano - m = off))

variable {off : Int} {t u : Instant}

@[simp] theorem add_wall (d : Int) : (t.add d).wall = t.wall.add d := rfl

theorem lockstep_of_none (none : t.mono = none) : t.Lockstep off := by
  intro m mem; simp [none] at mem

/-- In step, `Before` is the order of the wall readings. -/
theorem before_of_lockstep (ht : t.Lockstep off) (hu : u.Lockstep off) : t.before u = t.wall.before u.wall := by
  unfold before
  split
  · next m n tm un =>
    have := ht m tm
    have := hu n un
    simp only [Time.before_eq, Time.lt_def, decide_eq_decide]
    omega
  · rfl

/-- In step, `Sub` is the difference of the wall readings. -/
theorem sub_of_lockstep (ht : t.Lockstep off) (hu : u.Lockstep off) :
    t.sub u = t.wall.unixNano - u.wall.unixNano := by
  unfold sub
  split
  · next m n tm un => have := ht m tm; have := hu n un; omega
  · rfl

theorem Lockstep.add (ht : t.Lockstep off) (d : Int) : (t.add d).Lockstep off := by
  intro m mem
  obtain ⟨m₀, held, rfl⟩ := Option.mem_map.mp mem
  have := ht m₀ held
  simp only [add_wall, Time.add_unixNano]
  omega

end Instant

/-- `Schedule.Next` of a `time.Time`: a cron spec searches from the wall reading and returns a
time with no monotonic reading; `ConstantDelaySchedule.Next` is `t.Add`. -/
def Cron.Schedule.nextInstant : Schedule → Instant → Instant
  | .spec s, t => ⟨s.next t.wall, none⟩
  | .constantDelay delay, t => t.add (delay - t.wall.nanosecond)

/-- `time.Time` as Go keeps it, with the monotonic reading. -/
instance : Reading Instant where
  before := Instant.before
  next := Schedule.nextInstant
  zero := Instant.zero

@[simp] theorem before_instant (t u : Instant) : Before.before t u = t.before u := rfl
@[simp] theorem next_instant (s : Schedule) (t : Instant) : Reading.next s t = s.nextInstant t := rfl

/-- The wall reading of `Next` is the single-clock `NextTime` of the wall reading. -/
@[simp] theorem nextInstant_wall (s : Schedule) (t : Instant) : (s.nextInstant t).wall = nextTime s t.wall := by
  cases s <;> rfl

theorem Instant.Lockstep.nextInstant {off : Int} {t : Instant} (ht : t.Lockstep off) (s : Schedule) :
    (s.nextInstant t).Lockstep off := by
  cases s
  · exact Instant.lockstep_of_none rfl
  · exact ht.add _

namespace Scheduler

/-! ## The queue read through the wall clock -/

/-- Every entry's fire time was read while the clocks stood `off` apart. -/
def Synced (off : Int) (h : EntryHeap Instant) : Prop := ∀ e ∈ h, e.nextRun.Lockstep off

/-- A call whose reading, if it takes one, was taken while the clocks stood `off` apart. -/
def Call.InStep (off : Int) : Call Instant → Prop
  | .addJob _ _ now | .wake now => now.Lockstep off
  | .removeJob _ | .nextRunTime _ => True

/-- The single-clock call: the wall reading of its reading. -/
def Call.wall : Call Instant → Call
  | .addJob name schedule now => .addJob name schedule now.wall
  | .removeJob name => .removeJob name
  | .nextRunTime name => .nextRunTime name
  | .wake now => .wake now.wall

variable {off : Int} {h t : EntryHeap Instant} {e : Entry Instant} {now : Instant} {name : String}

theorem Synced.agrees (synced : Synced off h) : Agrees Instant.wall h := fun a ha b hb =>
  (Instant.before_of_lockstep (synced a ha) (synced b hb)).symm

theorem Synced.of_subset (synced : Synced off h) (sub : t ⊆ h) : Synced off t := fun e mem => synced e (sub mem)

theorem Synced.append (synced : Synced off h) (fresh : e.nextRun.Lockstep off) : Synced off (h ++ [e]) := by
  intro x mem
  rcases List.mem_append.mp mem with old | new
  · exact synced x old
  · rw [List.mem_singleton.mp new]; exact fresh

theorem Synced.removeLockedByName (synced : Synced off h) (name : String) :
    Synced off (removeLockedByName h name) := by
  rcases removeLockedByName_cases h name with ⟨-, same⟩ | ⟨_, _, _, _, _, perm⟩
  · rw [same]; exact synced
  · exact synced.of_subset fun x mem => perm.subset (List.mem_cons_of_mem _ mem)

theorem map_removeLockedByName (synced : Synced off h) (name : String) :
    (removeLockedByName h name).map (Entry.map Instant.wall) =
      removeLockedByName (h.map (Entry.map Instant.wall)) name := by
  have found : (h.map (Entry.map Instant.wall)).findIdx? (·.jobName = name) = h.findIdx? (·.jobName = name) := by
    simp [List.findIdx?_map, Function.comp_def]
  unfold removeLockedByName
  rw [found]
  split
  · rfl
  · rename_i i _
    rw [← map_remove synced.agrees]
    cases h.remove i with
    | none => rfl
    | some p => rfl

theorem map_addJob (synced : Synced off h) (fresh : now.Lockstep off) (schedule : Schedule) :
    (addJob h name schedule now).map (Entry.map Instant.wall) =
      addJob (h.map (Entry.map Instant.wall)) name schedule now.wall := by
  have kept := synced.removeLockedByName name
  rw [addJob, map_push (kept.append (fresh.nextInstant schedule)).agrees, map_removeLockedByName synced]
  simp [addJob, Entry.map]

theorem map_wake (synced : Synced off h) (fresh : now.Lockstep off) :
    Prod.map (List.map (Entry.map Instant.wall)) id (wake h now) = wake (h.map (Entry.map Instant.wall)) now.wall := by
  unfold wake
  rw [List.getElem?_map]
  cases root : h[0]? with
  | none => rfl
  | some e =>
    have due : after (e.map Instant.wall).nextRun now.wall = after e.nextRun now :=
      (Instant.before_of_lockstep fresh (synced e (List.getElem?_mem root))).symm
    simp only [Option.map_some', due]
    split
    · rfl
    · rw [← map_pop synced.agrees]
      obtain ⟨rest, popped, perm⟩ := pop_some root
      have rescheduled : Synced off (rest ++ [{ e with nextRun := e.schedule.nextInstant now }]) :=
        (synced.of_subset fun x mem => perm.subset (List.mem_cons_of_mem _ mem)).append (fresh.nextInstant _)
      simp only [popped, Option.map_some', Prod.map_apply, Prod.map, id, next_instant, map_push rescheduled.agrees]
      simp [Entry.map]

theorem map_nextRunTime (h : EntryHeap Instant) (name : String) :
    Prod.map Instant.wall id (nextRunTime h name) = nextRunTime (h.map (Entry.map Instant.wall)) name := by
  have found : (h.map (Entry.map Instant.wall)).find? (·.jobName = name) =
      (h.find? (·.jobName = name)).map (Entry.map Instant.wall) := by
    simp [List.find?_map, Function.comp_def]
  unfold nextRunTime
  rw [found]
  cases h.find? (·.jobName = name) <;> rfl

theorem Synced.step (synced : Synced off h) {c : Call Instant} (fresh : c.InStep off) : Synced off (step h c) := by
  cases c with
  | addJob name schedule now =>
    exact ((synced.removeLockedByName name).append (Instant.Lockstep.nextInstant fresh schedule)).of_subset
      fun x mem => push_perm.subset mem
  | removeJob name => exact synced.removeLockedByName name
  | nextRunTime => exact synced
  | wake now =>
    rcases wake_perm h now with same | ⟨e, rest, -, -, perm, woken, -⟩
    · simp only [Scheduler.step, same]; exact synced
    · intro x mem
      rcases List.mem_cons.mp (woken.subset mem) with rfl | old
      · exact Instant.Lockstep.nextInstant fresh _
      · exact synced x (perm.subset (List.mem_cons_of_mem _ old))

theorem map_step (synced : Synced off h) {c : Call Instant} (fresh : c.InStep off) :
    (step h c).map (Entry.map Instant.wall) = step (h.map (Entry.map Instant.wall)) c.wall := by
  cases c with
  | addJob name schedule now => exact map_addJob synced fresh schedule
  | removeJob name => exact map_removeLockedByName synced name
  | nextRunTime => rfl
  | wake now => exact congrArg Prod.fst (map_wake synced fresh)

/-- **The two-clock queue refines the single-clock one while the clocks keep in step.** When
every reading the calls take stands `off` apart, the queue they leave, read through the wall
clock, is the queue the same calls leave on wall readings, and every entry stays in step. -/
theorem run_wall (synced : Synced off h) (calls : List (Call Instant)) (steady : ∀ c ∈ calls, c.InStep off) :
    (run h calls).map (Entry.map Instant.wall) = run (h.map (Entry.map Instant.wall)) (calls.map Call.wall) ∧
      Synced off (run h calls) := by
  induction calls generalizing h with
  | nil => exact ⟨rfl, synced⟩
  | cons c calls ih =>
    have fresh := steady c (List.mem_cons_self _ _)
    obtain ⟨mapped, synced'⟩ := ih (synced.step fresh) fun c mem => steady c (List.mem_cons_of_mem _ mem)
    refine ⟨?_, synced'⟩
    simp only [run, List.foldl_cons, List.map_cons] at mapped ⊢
    rw [mapped, map_step synced fresh]

theorem synced_nil : Synced off [] := fun _ mem => absurd mem (List.not_mem_nil _)

instance (off : Int) : (c : Call Instant) → Decidable (c.InStep off)
  | .addJob _ _ now | .wake now => inferInstanceAs (Decidable (now.Lockstep off))
  | .removeJob _ | .nextRunTime _ => isTrue trivial

/-- In step, the queue on `Instant`s is heap-ordered by `Less`. -/
theorem heapOrdered_run {calls : List (Call Instant)} (steady : ∀ c ∈ calls, c.InStep off) :
    HeapOrdered (run [] calls) := by
  obtain ⟨mapped, synced⟩ := run_wall synced_nil calls steady
  have valid := run_valid valid_nil (calls.map Call.wall)
  rw [← heapOrdered_map synced.agrees, mapped, List.map_nil, heapOrdered_iff]
  exact valid.ordered

/-- Two jobs added at one reading with the same `@every 1m` schedule, `b` first. -/
def tiedCalls : List (Call Instant) :=
  [.addJob "b" (.constantDelay (60 * Time.second)) ⟨⟨1704067200 * Time.second⟩, some 0⟩,
    .addJob "a" (.constantDelay (60 * Time.second)) ⟨⟨1704067200 * Time.second⟩, some 0⟩]

/-- `* * * * *`, as `ParseSchedule` returns it. -/
def minutely : Schedule :=
  .spec ⟨1, 10376293541461622783, 9223372036871553023, 9223372041149743102, 9223372036854783998, 9223372036854775935⟩

/-- `AddJob("c", @every 10m)` at 00:00:00; the wall clock is set an hour on a minute later; then
`AddJob("a", @every 5m)` at wall 01:02:00 and `AddJob("b", "* * * * *")` at wall 01:02:59. -/
def wallStepCalls : List (Call Instant) :=
  [.addJob "c" (.constantDelay (600 * Time.second)) ⟨⟨1704067200 * Time.second⟩, some 0⟩,
    .addJob "a" (.constantDelay (300 * Time.second)) ⟨⟨(1704067200 + 3720) * Time.second⟩, some (120 * Time.second)⟩,
    .addJob "b" minutely ⟨⟨(1704067200 + 3779) * Time.second⟩, some (179 * Time.second)⟩]

end Scheduler
end Cronbat
