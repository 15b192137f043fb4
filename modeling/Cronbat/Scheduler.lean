import Cronbat.Heap

/-! `internal/scheduler`: the queue operations under `s.mu` and one pass of the timer case
of `Scheduler.run`. Each operation that reads the clock takes its reading `now`. The timer
itself is not modelled here: a wake may come at any reading, and the loop's own check that the
root is due decides whether anything fires.

The operations are written once over what they read of a `time.Time` (`Reading`): `Before`,
`NextTime` and `time.Time{}`. On `Time`, one wall reading, the representation invariant `Valid`
(one entry per name, heap order of `Less`) holds in every state reached from the empty queue.
Over any reading, each operation is characterised by what it does to the multiset of entries,
and one entry per name is kept; the heap order needs `Less` to be an order on the entries,
which the two-clock readings of `Cronbat.Monotonic` are only while the clocks keep in step. -/
namespace Cronbat.Scheduler
open Cronbat Cronbat.Cron Cronbat.Heap Cronbat.Heap.EntryHeap

/-- `ParseSchedule`. -/
def parseSchedule (expr : String) : Except String Schedule := Cron.parse expr

/-- `NextTime` on a wall reading. -/
def nextTime (schedule : Schedule) (after : Time) : Time := schedule.next after

/-- What the scheduler reads of a `time.Time`: `Before` for the queue, `NextTime` (the
schedule's `Next`) and the zero time `time.Time{}`. -/
class Reading (τ : Type) extends Before τ where
  next : Schedule → τ → τ
  zero : τ

/-- One wall-clock reading: the single-clock view of the scheduler. -/
@[default_instance] instance : Reading Time := { (inferInstance : Before Time) with next := nextTime, zero := Time.zero }

@[simp] theorem next_time (schedule : Schedule) (t : Time) : Reading.next schedule t = nextTime schedule t := rfl
@[simp] theorem zero_time : (Reading.zero : Time) = Time.zero := rfl

section Queue
variable {τ : Type} [Reading τ]

/-- `removeLockedByName`: `heap.Remove` at the first entry with the name. -/
def removeLockedByName (h : EntryHeap τ) (name : String) : EntryHeap τ :=
  match h.findIdx? (·.jobName = name) with
  | none => h
  | some i => match h.remove i with
    | some (_, t) => t
    | none => h

/-- `AddJob` at clock reading `now`: the old entry for the name goes, the new one is pushed. -/
def addJob (h : EntryHeap τ) (name : String) (schedule : Schedule) (now : τ) : EntryHeap τ :=
  (removeLockedByName h name).push ⟨name, schedule, Reading.next schedule now⟩

/-- `RemoveJob`. -/
def removeJob (h : EntryHeap τ) (name : String) : EntryHeap τ := removeLockedByName h name

/-- `NextRunTime`: the first entry with the name. -/
def nextRunTime (h : EntryHeap τ) (name : String) : τ × Bool :=
  match h.find? (·.jobName = name) with
  | some e => (e.nextRun, true)
  | none => (Reading.zero, false)

/-- The `<-s.timer.C` case of `run` at clock reading `now`: nothing on an empty heap or when
the root is not yet due (`e.nextRun.After(now)`); otherwise the root is popped, its `nextRun`
recomputed from `now`, and it is pushed back and fired. -/
def wake (h : EntryHeap τ) (now : τ) : EntryHeap τ × Option String :=
  match h[0]? with
  | none => (h, none)
  | some e =>
    if after e.nextRun now then (h, none) else
    match h.pop with
    | none => (h, none)
    | some (_, t) => (t.push { e with nextRun := Reading.next e.schedule now }, some e.jobName)

/-- The entry the queue holds for a name: the view of the queue the registry relies on. -/
def entryOf (h : EntryHeap τ) (name : String) : Option (Entry τ) := h.find? (·.jobName = name)

end Queue

/-- A call on the queue, with the clock reading of those that read it. -/
inductive Call (τ : Type := Time) where
  | addJob (name : String) (schedule : Schedule) (now : τ)
  | removeJob (name : String)
  | nextRunTime (name : String)
  | wake (now : τ)

section Run
variable {τ : Type} [Reading τ]

/-- The queue after one call. -/
def step (h : EntryHeap τ) : Call τ → EntryHeap τ
  | .addJob name schedule now => addJob h name schedule now
  | .removeJob name => removeJob h name
  | .nextRunTime _ => h
  | .wake now => (wake h now).1

/-- The queue after a sequence of calls. -/
def run (h : EntryHeap τ) (calls : List (Call τ)) : EntryHeap τ := calls.foldl step h

end Run

/-! ## What each operation does to the entries, over any reading -/

section Entries
variable {τ : Type} {h t : EntryHeap τ} {e : Entry τ} {name : String}

/-- At most one entry per job name. -/
def Unique (h : EntryHeap τ) : Prop := (h.map (·.jobName)).Nodup

theorem Unique.of_perm (unique : Unique h) (perm : t.Perm h) : Unique t :=
  (perm.map _).nodup_iff.mpr unique

/-- Under a unique name, the rest of `e :: t` holds no entry with `e`'s name. -/
theorem rest_unnamed (unique : Unique (e :: t)) : t.filter (·.jobName ≠ e.jobName) = t := by
  rw [Unique, List.map_cons, List.nodup_cons] at unique
  refine List.filter_eq_self.mpr fun x hx => ?_
  have : x.jobName ≠ e.jobName := fun same => unique.1 (same ▸ List.mem_map_of_mem (·.jobName) hx)
  simpa using this

theorem Unique.filter (unique : Unique h) (name : String) : Unique (h.filter (·.jobName ≠ name)) :=
  ((List.filter_sublist h).map _).nodup unique

theorem unique_nil : Unique ([] : EntryHeap τ) := List.nodup_nil

/-- With one entry per name, two entries with the same name are the same entry. -/
theorem Unique.eq_of_named (unique : Unique h) {x y : Entry τ} (hx : x ∈ h) (hy : y ∈ h)
    (same : x.jobName = y.jobName) : x = y :=
  List.inj_on_of_nodup_map unique hx hy same

variable [Reading τ]

/-- `removeLockedByName` finds no entry with the name and leaves the slice, or removes the first
one it finds. -/
theorem removeLockedByName_cases (h : EntryHeap τ) (name : String) :
    ((∀ e ∈ h, e.jobName ≠ name) ∧ removeLockedByName h name = h) ∨
      ∃ i e, h[i]? = some e ∧ e.jobName = name ∧ h.remove i = some (e, removeLockedByName h name) ∧
        (e :: removeLockedByName h name).Perm h := by
  unfold removeLockedByName
  split
  · rename_i none
    rw [List.findIdx?_eq_none_iff] at none
    exact .inl ⟨fun x hx => by simpa using none x hx, rfl⟩
  · rename_i i found
    obtain ⟨hi, named, _⟩ := List.findIdx?_eq_some_iff_getElem.mp found
    obtain ⟨t, removed, perm⟩ := remove_some (h := h) (i := i) (List.getElem?_eq_getElem hi)
    rw [removed]
    exact .inr ⟨i, h[i], List.getElem?_eq_getElem hi, by simpa using named, removed, perm⟩

/-- `removeLockedByName` drops exactly the entries with the name. -/
theorem removeLockedByName_perm (unique : Unique h) :
    (removeLockedByName h name).Perm (h.filter (·.jobName ≠ name)) := by
  rcases removeLockedByName_cases h name with ⟨absent, same⟩ | ⟨i, e, -, named, -, perm⟩
  · rw [same, List.filter_eq_self.mpr fun x hx => by simpa using absent x hx]
  · have own : (removeLockedByName h name).filter (·.jobName ≠ name) = removeLockedByName h name := by
      have := rest_unnamed (unique.of_perm perm); rwa [named] at this
    have drop : (e :: removeLockedByName h name).filter (·.jobName ≠ name) = removeLockedByName h name := by
      rw [List.filter_cons, if_neg (by simp [named]), own]
    exact drop ▸ perm.filter _

/-- `AddJob` replaces the entries with the name by one new entry. -/
theorem addJob_perm (unique : Unique h) (schedule : Schedule) (now : τ) :
    (addJob h name schedule now).Perm (h.filter (·.jobName ≠ name) ++ [⟨name, schedule, Reading.next schedule now⟩]) :=
  push_perm.trans ((removeLockedByName_perm unique).append_right _)

theorem Unique.addJob (unique : Unique h) (schedule : Schedule) (now : τ) :
    Unique (addJob h name schedule now) := by
  refine Unique.of_perm ?_ (addJob_perm unique schedule now)
  rw [Unique, List.map_append, List.nodup_append]
  exact ⟨unique.filter name, List.nodup_singleton _, by simp [List.disjoint_singleton]⟩

/-- `RemoveJob` of an absent name leaves the slice as it is. -/
theorem removeJob_absent (absent : ∀ e ∈ h, e.jobName ≠ name) : removeJob h name = h := by
  have none : h.findIdx? (·.jobName = name) = none :=
    List.findIdx?_eq_none_iff.mpr fun x hx => by simpa using absent x hx
  simp [removeJob, removeLockedByName, none]

/-- A wake changes nothing, or pops the due root and pushes it back with its `nextRun`
recomputed from `now`, and fires it. -/
theorem wake_cases (h : EntryHeap τ) (now : τ) :
    wake h now = (h, none) ∨
      ∃ e t, h[0]? = some e ∧ after e.nextRun now = false ∧ h.pop = some (e, t) ∧
        wake h now = (t.push { e with nextRun := Reading.next e.schedule now }, some e.jobName) := by
  unfold wake
  split
  · exact .inl rfl
  rename_i e root
  cases later : after e.nextRun now
  · obtain ⟨t, popped, -⟩ := pop_some root
    refine .inr ⟨e, t, root, later, popped, ?_⟩
    simp only [popped, Bool.false_eq_true, if_false]
  · exact .inl rfl

/-- A wake either changes nothing, or fires the due root: that entry alone changes, its
`nextRun` recomputed from `now`, and the job fired is its job. -/
theorem wake_perm (h : EntryHeap τ) (now : τ) :
    wake h now = (h, none) ∨
      ∃ e rest, h[0]? = some e ∧ after e.nextRun now = false ∧ (e :: rest).Perm h ∧
        (wake h now).1.Perm ({ e with nextRun := Reading.next e.schedule now } :: rest) ∧
        (wake h now).2 = some e.jobName := by
  rcases wake_cases h now with same | ⟨e, t, root, due, popped, woken⟩
  · exact .inl same
  · obtain ⟨t', popped', perm⟩ := pop_some root
    obtain rfl : t = t' := (Prod.mk.inj (Option.some.inj (popped.symm.trans popped'))).2
    rw [woken]
    exact .inr ⟨e, t, root, due, perm, push_perm.trans (List.perm_append_singleton _ _), rfl⟩

theorem Unique.wake (unique : Unique h) (now : τ) : Unique (wake h now).1 := by
  rcases wake_perm h now with same | ⟨e, rest, -, -, perm, woken, -⟩
  · rw [same]; exact unique
  · have fired : Unique (e :: rest) := unique.of_perm perm
    exact (show Unique ({ e with nextRun := Reading.next e.schedule now } :: rest) from fired).of_perm woken

theorem Unique.step (unique : Unique h) : ∀ call, Unique (step h call)
  | .addJob _ schedule now => unique.addJob schedule now
  | .removeJob _ => (unique.filter _).of_perm (removeLockedByName_perm unique)
  | .nextRunTime _ => unique
  | .wake now => unique.wake now

theorem Unique.run (unique : Unique h) (calls : List (Call τ)) : Unique (run h calls) := by
  induction calls generalizing h with
  | nil => exact unique
  | cons call calls ih => exact ih (unique.step call)

/-- `NextRunTime` reports exactly the entry held for the name. -/
theorem nextRunTime_spec (unique : Unique h) (at' : τ) :
    nextRunTime h name = (at', true) ↔ ∃ e ∈ h, e.jobName = name ∧ e.nextRun = at' := by
  unfold nextRunTime
  split
  · rename_i e found
    have mem := List.mem_of_find?_eq_some found
    have named : e.jobName = name := by simpa using List.find?_some found
    simp only [Prod.mk.injEq, and_true]
    constructor
    · rintro rfl; exact ⟨e, mem, named, rfl⟩
    · rintro ⟨x, hx, xn, rfl⟩; rw [unique.eq_of_named mem hx (named.trans xn.symm)]
  · rename_i missing
    simp only [Prod.mk.injEq, Bool.false_eq_true, and_false, false_iff, not_exists, not_and]
    intro x hx xn _
    simpa [xn] using List.find?_eq_none.mp missing x hx

end Entries

/-! ## The representation invariant on one clock -/

/-- The queue's invariant: at most one entry per job name, in the heap order of `Less`. -/
structure Valid (h : EntryHeap) : Prop where
  unique : Unique h
  ordered : h.OrderedBelow h.length

variable {h t : EntryHeap} {e : Entry} {name : String}

theorem valid_nil : Valid [] := ⟨unique_nil, fun _ _ hc => absurd hc (by simp)⟩

/-- `removeLockedByName` drops exactly the entries with the name, and keeps the invariant. -/
theorem removeLockedByName_spec (valid : Valid h) :
    (removeLockedByName h name).Perm (h.filter (·.jobName ≠ name)) ∧
      Valid (removeLockedByName h name) := by
  refine ⟨removeLockedByName_perm valid.unique,
    (valid.unique.filter name).of_perm (removeLockedByName_perm valid.unique), ?_⟩
  rcases removeLockedByName_cases h name with ⟨-, same⟩ | ⟨i, e, hi, -, removed, -⟩
  · rw [same]; exact valid.ordered
  · exact remove_ordered valid.ordered (List.getElem?_eq_some_iff.mp hi).1 removed

/-- `AddJob` replaces the entries with the name by one new entry, and keeps the invariant. -/
theorem addJob_spec (valid : Valid h) (schedule : Schedule) (now : Time) :
    (addJob h name schedule now).Perm
        (h.filter (·.jobName ≠ name) ++ [⟨name, schedule, nextTime schedule now⟩]) ∧
      Valid (addJob h name schedule now) :=
  ⟨addJob_perm valid.unique schedule now, valid.unique.addJob schedule now,
    push_ordered (removeLockedByName_spec valid).2.ordered⟩

/-- `RemoveJob` drops the entries with the name, keeps the invariant, and changes nothing
when there is none. -/
theorem removeJob_spec (valid : Valid h) :
    (removeJob h name).Perm (h.filter (·.jobName ≠ name)) ∧ Valid (removeJob h name) ∧
      ((∀ e ∈ h, e.jobName ≠ name) → removeJob h name = h) :=
  ⟨(removeLockedByName_spec valid).1, (removeLockedByName_spec valid).2, removeJob_absent⟩

/-- A wake either changes nothing, or fires the due root: that entry alone changes, its
`nextRun` recomputed from `now`. -/
theorem wake_spec (valid : Valid h) (now : Time) :
    Valid (wake h now).1 ∧
      (wake h now = (h, none) ∨
        ∃ e rest, h[0]? = some e ∧ e.nextRun ≤ now ∧ (e :: rest).Perm h ∧
          (wake h now).1.Perm ({ e with nextRun := nextTime e.schedule now } :: rest) ∧
          (wake h now).2 = some e.jobName) := by
  have ordered : (wake h now).1.OrderedBelow (wake h now).1.length := by
    rcases wake_cases h now with same | ⟨e, t, -, -, popped, woken⟩
    · rw [same]; exact valid.ordered
    · rw [woken]; exact push_ordered (pop_ordered valid.ordered popped)
  refine ⟨⟨valid.unique.wake now, ordered⟩, (wake_perm h now).imp_right ?_⟩
  rintro ⟨e, rest, root, due, rest'⟩
  exact ⟨e, rest, root, by simpa using due, rest'⟩

theorem entryOf_eq_some (valid : Valid h) : entryOf h name = some e ↔ e ∈ h ∧ e.jobName = name := by
  constructor
  · intro found
    exact ⟨List.mem_of_find?_eq_some found, by simpa using List.find?_some found⟩
  · rintro ⟨mem, rfl⟩
    obtain ⟨x, found⟩ := Option.isSome_iff_exists.mp
      (List.find?_isSome.mpr ⟨e, mem, by simp⟩ : (h.find? (·.jobName = e.jobName)).isSome)
    have named : x.jobName = e.jobName := by simpa using List.find?_some found
    rw [entryOf, found, valid.unique.eq_of_named (List.mem_of_find?_eq_some found) mem named]

/-- A queue that holds the entries of `h` without the name, and `added`, holds for each name
what `h` holds, but `added` for the name. -/
theorem entryOf_of_perm (valid : Valid h) (valid' : Valid t) (added : Option Entry)
    (named : ∀ x ∈ added, x.jobName = name)
    (perm : t.Perm (h.filter (·.jobName ≠ name) ++ added.toList)) :
    entryOf t = Function.update (entryOf h) name added := by
  funext n
  refine Option.ext fun x => ?_
  have mem : x ∈ t ↔ (x ∈ h ∧ x.jobName ≠ name) ∨ x ∈ added := by simp [perm.mem_iff]
  rw [Option.mem_def, Option.mem_def, entryOf_eq_some valid', mem, Function.update_apply]
  split_ifs with same
  · subst same
    constructor
    · rintro ⟨⟨-, ne⟩ | hx, eq⟩
      · exact absurd eq ne
      · exact hx
    · exact fun hx => ⟨.inr hx, named x hx⟩
  · rw [entryOf_eq_some valid]
    constructor
    · rintro ⟨⟨hx, -⟩ | hx, rfl⟩
      · exact ⟨hx, rfl⟩
      · exact absurd (named x hx) same
    · rintro ⟨hx, rfl⟩
      exact ⟨.inl ⟨hx, same⟩, rfl⟩

theorem entryOf_removeJob (valid : Valid h) :
    entryOf (removeJob h name) = Function.update (entryOf h) name none :=
  entryOf_of_perm valid (removeJob_spec valid).2.1 none (by simp) (by simpa using (removeJob_spec valid).1)

theorem entryOf_addJob (valid : Valid h) (schedule : Schedule) (now : Time) :
    entryOf (addJob h name schedule now) =
      Function.update (entryOf h) name (some ⟨name, schedule, nextTime schedule now⟩) :=
  entryOf_of_perm valid (addJob_spec valid schedule now).2 _ (by simp) (addJob_spec valid schedule now).1

theorem step_valid (valid : Valid h) : ∀ call, Valid (step h call)
  | .addJob _ schedule now => (addJob_spec valid schedule now).2
  | .removeJob _ => (removeJob_spec valid).2.1
  | .nextRunTime _ => valid
  | .wake now => (wake_spec valid now).1

theorem run_valid (valid : Valid h) (calls : List Call) : Valid (run h calls) := by
  induction calls generalizing h with
  | nil => exact valid
  | cons call calls ih => exact ih (step_valid valid call)

/-- The root of a heap-ordered slice has the least `nextRun`. -/
theorem root_least (ordered : h.OrderedBelow h.length) (root : h[0]? = some e) :
    ∀ x ∈ h, e.nextRun ≤ x.nextRun := by
  have chain : ∀ k, k < h.length → h.key 0 ≤ h.key k := by
    intro k
    induction k using Nat.strong_induction_on with
    | _ k ih =>
      intro hk
      rcases Nat.eq_zero_or_pos k with rfl | pos
      · exact le_refl _
      · exact le_trans (ih _ (parent_lt pos) (by have := parent_lt pos; omega)) (ordered k pos hk)
  intro x hx
  obtain ⟨k, hk, rfl⟩ := List.getElem_of_mem hx
  have := chain k hk
  simpa [key, root, List.getElem?_eq_getElem hk] using this

theorem addJob_nil (schedule : Schedule) (now : Time) :
    addJob [] name schedule now = [⟨name, schedule, nextTime schedule now⟩] := rfl

/-- A lone due entry is fired and pushed back with the next time computed from `now`. -/
theorem wake_single {now : Time} (due : e.nextRun ≤ now) :
    wake [e] now = ([{ e with nextRun := nextTime e.schedule now }], some e.jobName) := by
  have : ¬ now < e.nextRun := fun later => by simp only [Time.lt_def, Time.le_def] at later due; omega
  simp [wake, this, EntryHeap.pop, EntryHeap.swap, EntryHeap.down, EntryHeap.downLoop,
    EntryHeap.popLast, EntryHeap.push, EntryHeap.up, EntryHeap.upLoop]

/-- `0 0 30 2 *` parses, but February never has a 30th: `NextTime` returns the zero time, the
queue stores it as the job's `nextRun`, and every wake at one clock reading fires the job. -/
theorem unmatched_calendar_fires_every_wake :
    ∃ s, parseSchedule "0 0 30 2 *" = .ok s ∧
      nextTime s ⟨1704067200 * Time.second⟩ = Time.zero ∧ Time.zero < ⟨1704067200 * Time.second⟩ ∧
      (wake (addJob [] "feb30" s ⟨1704067200 * Time.second⟩) ⟨1704067200 * Time.second⟩).2 = some "feb30" ∧
      (wake (wake (addJob [] "feb30" s ⟨1704067200 * Time.second⟩) ⟨1704067200 * Time.second⟩).1
        ⟨1704067200 * Time.second⟩).2 = some "feb30" := by
  have zero : nextTime (.spec ⟨1, 1, 1, 1073741824, 4, 9223372036854775935⟩) ⟨1704067200 * Time.second⟩ =
      Time.zero := by
    set_option maxRecDepth 100000 in decide
  have past : Time.zero ≤ ⟨1704067200 * Time.second⟩ := by decide
  refine ⟨.spec ⟨1, 1, 1, 1073741824, 4, 9223372036854775935⟩, rfl, zero, by decide, ?_, ?_⟩
  · rw [addJob_nil, zero, wake_single past]
  · rw [addJob_nil, zero, wake_single past]
    simp only [zero]
    rw [wake_single past]

end Cronbat.Scheduler
