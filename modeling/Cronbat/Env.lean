import Mathlib.Data.List.Basic

/-! # The subprocess environment

`runner.BuildEnv` builds the environment of a job's `sh -c` process: the daemon's own
environment, each entry split at its first `=`, overlaid with a base map and then with the job's
`Env`, and last the two variables that name the job and its trigger. Its maps are Go maps, with one
entry per key; Go ranges over a map in no fixed order, and the model ranges in the order of its
entries, which no result below depends on apart from the order of the returned slice. -/

namespace Cronbat.Env

/-- Map assignment `m[k] = v` on a map's entries: the entry for `k` changes in place, or is added
at the end. -/
def assign : List (String × String) → String → String → List (String × String)
  | [], k, v => [(k, v)]
  | (k', v') :: rest, k, v => if k' = k then (k, v) :: rest else (k', v') :: assign rest k v

section Assign
variable {es : List (String × String)} {k v x : String}

@[simp] theorem lookup_cons_pair (k' v' : String) :
    ((k', v') :: es).lookup x = if x = k' then some v' else es.lookup x := by
  rw [List.lookup_cons]
  by_cases hit : x = k'
  · simp [hit]
  · simp [beq_false_of_ne hit, hit]

theorem mem_keys_assign : x ∈ (assign es k v).map Prod.fst ↔ x = k ∨ x ∈ es.map Prod.fst := by
  induction es with
  | nil => simp [assign]
  | cons e rest ih =>
    obtain ⟨k', v'⟩ := e
    by_cases same : k' = k
    · simp [assign, same]
    · simp only [assign, if_neg same, List.map_cons, List.mem_cons, ih]
      tauto

theorem assign_nodup (nodup : (es.map Prod.fst).Nodup) : ((assign es k v).map Prod.fst).Nodup := by
  induction es with
  | nil => simp [assign]
  | cons e rest ih =>
    obtain ⟨k', v'⟩ := e
    rw [List.map_cons, List.nodup_cons] at nodup
    by_cases same : k' = k
    · simpa [assign, same] using nodup
    · simp only [assign, if_neg same, List.map_cons, List.nodup_cons, mem_keys_assign]
      exact ⟨by tauto, ih nodup.2⟩

@[simp] theorem lookup_assign : (assign es k v).lookup x = if x = k then some v else es.lookup x := by
  induction es with
  | nil => simp [assign]
  | cons e rest ih =>
    obtain ⟨k', v'⟩ := e
    by_cases same : k' = k
    · subst same; by_cases hit : x = k' <;> simp [assign, hit]
    · by_cases hit : x = k' <;> simp [assign, same, hit, ih]
end Assign

/-- A Go `map[string]string`: its entries, one per key. -/
structure StringMap where
  entries : List (String × String)
  nodup : (entries.map Prod.fst).Nodup

/-- The empty map, and a `nil` one: ranging over either does nothing. -/
def StringMap.empty : StringMap := ⟨[], List.nodup_nil⟩

/-- `m[k] = v`. -/
def StringMap.set (m : StringMap) (k v : String) : StringMap := ⟨assign m.entries k v, assign_nodup m.nodup⟩

/-- `v, ok := m[k]`, with `ok` the `Option`. -/
def StringMap.get (m : StringMap) (k : String) : Option String := m.entries.lookup k

/-- `for k, v := range kvs { m[k] = v }`. -/
def StringMap.setAll (m : StringMap) (kvs : List (String × String)) : StringMap :=
  kvs.foldl (fun m kv => m.set kv.1 kv.2) m

/-- `BuildEnv`'s loop over one entry `e` of `os.Environ()`: it walks `e` to its first `=` and
assigns `envMap[e[:i]] = e[i+1:]`; an entry with no `=` is skipped. The walk is over bytes, and
`=` is one byte that no multi-byte rune contains, so walking runes splits at the same place. -/
def splitAtEquals : List Char → Option (List Char × List Char)
  | [] => none
  | c :: rest => if c = '=' then some ([], rest) else (splitAtEquals rest).map fun kv => (c :: kv.1, kv.2)

/-- The key and value `BuildEnv` takes from one environment entry. -/
def envEntry (e : String) : Option (String × String) :=
  (splitAtEquals e.data).map fun kv => (String.mk kv.1, String.mk kv.2)

/-- The part of `plugin.JobContext` that `BuildEnv` reads. -/
structure JobContext where
  jobName : String
  trigger : String
  env : StringMap

/-- `runner.BuildEnv base job`, with `os.Environ()` given as `environ`; the slice lists the final
map's entries as `k=v`. -/
def buildEnv (environ : List String) (base : StringMap) (job : JobContext) : List String :=
  let envMap := StringMap.empty.setAll (environ.filterMap envEntry)
  let envMap := (envMap.setAll base.entries).setAll job.env.entries
  let envMap := (envMap.set "PICOCRON_JOB_NAME" job.jobName).set "PICOCRON_TRIGGER" job.trigger
  envMap.entries.map fun kv => kv.1 ++ "=" ++ kv.2

/-- `cmd.Env = BuildEnv(nil, job)` in `Runner.Run`. -/
def runnerEnv (environ : List String) (job : JobContext) : List String := buildEnv environ StringMap.empty job

section Overlay
variable {m : StringMap} {k : String}

@[simp] theorem StringMap.get_set (v x : String) : (m.set k v).get x = if x = k then some v else m.get x :=
  lookup_assign

@[simp] theorem StringMap.get_empty : StringMap.empty.get k = none := rfl

/-- Assigning a list of entries in turn: the last entry for a key wins over the map's own value. -/
theorem StringMap.get_setAll (kvs : List (String × String)) :
    (m.setAll kvs).get k = (kvs.reverse.lookup k).or (m.get k) := by
  induction kvs generalizing m with
  | nil => simp [StringMap.setAll]
  | cons kv rest ih =>
    obtain ⟨k', v'⟩ := kv
    rw [StringMap.setAll, List.foldl_cons, ← StringMap.setAll, ih, List.reverse_cons, List.lookup_append]
    by_cases hit : k = k' <;> simp [hit, Option.or_assoc]

/-- A map's own entries have one per key, so the last one for a key is its only one. -/
theorem lookup_reverse_entries (src : StringMap) : src.entries.reverse.lookup k = src.get k := by
  obtain ⟨es, nodup⟩ := src
  simp only [StringMap.get]
  induction es with
  | nil => rfl
  | cons e rest ih =>
    obtain ⟨k', v'⟩ := e
    rw [List.map_cons, List.nodup_cons] at nodup
    rw [List.reverse_cons, List.lookup_append, ih nodup.2]
    by_cases hit : k = k'
    · subst hit
      have absent : rest.lookup k = none := List.lookup_eq_none_iff.mpr fun p mem =>
        bne_iff_ne.mpr fun same => nodup.1 (by simpa [same] using List.mem_map_of_mem Prod.fst mem)
      simp [absent]
    · simp [hit]

end Overlay

/-- What `BuildEnv` returns, for every environment, base map and job: one `k=v` entry per key of a
map whose value is the job's trigger at `PICOCRON_TRIGGER` and its name at `PICOCRON_JOB_NAME`, and
at every other key the job's `Env` value, else the base map's, else that of the key's last entry in
the environment. -/
theorem buildEnv_spec (environ : List String) (base : StringMap) (job : JobContext) :
    ∃ m : StringMap, buildEnv environ base job = m.entries.map (fun kv => kv.1 ++ "=" ++ kv.2) ∧
      ∀ k, m.get k = if k = "PICOCRON_TRIGGER" then some job.trigger
        else if k = "PICOCRON_JOB_NAME" then some job.jobName
        else (job.env.get k).or ((base.get k).or ((environ.filterMap envEntry).reverse.lookup k)) :=
  ⟨_, rfl, fun k => by
    simp only [StringMap.get_set, StringMap.get_setAll, lookup_reverse_entries, StringMap.get_empty, Option.or_none]⟩

/-- The subprocess's variables are named `PICOCRON_JOB_NAME` and `PICOCRON_TRIGGER`, not
`CRONBAT_JOB_NAME` and `CRONBAT_TRIGGER`: a job `backup` run by the schedule, in a daemon whose
environment holds `CRONBAT_JOB_NAME=stale`, sees `CRONBAT_JOB_NAME=stale` and no
`CRONBAT_TRIGGER`. -/
theorem runnerEnv_names_picocron :
    runnerEnv ["CRONBAT_JOB_NAME=stale"] ⟨"backup", "schedule", StringMap.empty⟩ =
      ["CRONBAT_JOB_NAME=stale", "PICOCRON_JOB_NAME=backup", "PICOCRON_TRIGGER=schedule"] := by
  decide

end Cronbat.Env
