import Cronbat.Cron

/-! The scheduler's queue: `entry`, `entryHeap` and the `container/heap` algorithms that the
scheduler runs on it (`Push`, `Pop`, `Remove` and their `up` and `down`). The slice is a list;
the loops of `up` and `down` carry a fuel argument that the index they move strictly bounds.

`entryHeap.Less` is `Before` on the fire times, and Go's `time.Time` is modelled twice: as
`Time`, one reading of one clock, and as an `Instant` that also carries the monotonic reading
`Before` prefers (`Cronbat.Monotonic`). The algorithms are written once, over any `Before`.
What is proved here: each algorithm only permutes the slice and keeps its length, whatever
`Before` is; mapping the fire times commutes with each algorithm when the map keeps `Before` on
the slice's entries; and on `Time` each restores the min-heap order from the partial orders its
callers establish. -/
namespace Cronbat.Heap
open Cronbat Cronbat.Cron

/-- `t.Before(u)` of a reading of Go's `time.Time`: the one comparison the queue makes. -/
class Before (τ : Type) where
  before : τ → τ → Bool

instance : Before Time := ⟨Time.before⟩

@[simp] theorem before_time (t u : Time) : Before.before t u = t.before u := rfl

/-- `t.After(u)`, which Go computes as `u.Before(t)`. -/
def after {τ : Type} [Before τ] (t u : τ) : Bool := Before.before u t

@[simp] theorem after_time (t u : Time) : after t u = decide (u < t) := rfl

/-- `entry`, over the type of its fire time. -/
structure Entry (τ : Type := Time) where
  jobName : String
  schedule : Schedule
  nextRun : τ
  deriving DecidableEq, Repr

/-- `entryHeap`. -/
abbrev EntryHeap (τ : Type := Time) := List (Entry τ)

/-- An entry with its fire time read through `g`. -/
def Entry.map {σ τ : Type} (g : σ → τ) (e : Entry σ) : Entry τ := ⟨e.jobName, e.schedule, g e.nextRun⟩

@[simp] theorem Entry.map_jobName {σ τ : Type} (g : σ → τ) (e : Entry σ) : (e.map g).jobName = e.jobName := rfl
@[simp] theorem Entry.map_schedule {σ τ : Type} (g : σ → τ) (e : Entry σ) : (e.map g).schedule = e.schedule := rfl
@[simp] theorem Entry.map_nextRun {σ τ : Type} (g : σ → τ) (e : Entry σ) : (e.map g).nextRun = g e.nextRun := rfl

namespace EntryHeap
section Algorithms
variable {τ : Type}

/-- `entryHeap.Swap`. -/
def swap (h : EntryHeap τ) (i j : Nat) : EntryHeap τ :=
  match h[i]?, h[j]? with
  | some a, some b => (h.set i b).set j a
  | _, _ => h

/-- `entryHeap.Pop`: the last element and the slice without it. -/
def popLast (h : EntryHeap τ) : Option (Entry τ × EntryHeap τ) :=
  h.getLast?.map fun e => (e, h.dropLast)

variable [Before τ]

/-- `entryHeap.Less`: `h[i].nextRun.Before(h[j].nextRun)`. -/
def less (h : EntryHeap τ) (i j : Nat) : Bool :=
  match h[i]?, h[j]? with
  | some a, some b => Before.before a.nextRun b.nextRun
  | _, _ => false

/-- `up`: move the element at `j` toward the root while it is `Less` than its parent. Go's
`(j - 1) / 2` is `0` at the root, which ends the loop there. -/
def upLoop : Nat → EntryHeap τ → Nat → EntryHeap τ
  | 0, h, _ => h
  | fuel + 1, h, j =>
    if j = 0 then h
    else if h.less j ((j - 1) / 2) then upLoop fuel (h.swap ((j - 1) / 2) j) ((j - 1) / 2)
    else h

def up (h : EntryHeap τ) (j : Nat) : EntryHeap τ := upLoop j h j

/-- `down`: move the element at `i` toward the leaves below `n`, swapping it with its lesser
child while that child is `Less` than it; the final position is returned. -/
def downLoop : Nat → EntryHeap τ → Nat → Nat → EntryHeap τ × Nat
  | 0, h, i, _ => (h, i)
  | fuel + 1, h, i, n =>
    if n ≤ 2 * i + 1 then (h, i) else
    let j := if 2 * i + 2 < n ∧ h.less (2 * i + 2) (2 * i + 1) then 2 * i + 2 else 2 * i + 1
    if h.less j i then downLoop fuel (h.swap i j) j n else (h, i)

/-- `down(h, i0, n)`, with its report of whether the element moved. -/
def down (h : EntryHeap τ) (i0 n : Nat) : EntryHeap τ × Bool :=
  let r := downLoop n h i0 n
  (r.1, decide (i0 < r.2))

/-- `heap.Push`. -/
def push (h : EntryHeap τ) (x : Entry τ) : EntryHeap τ := up (h ++ [x]) h.length

/-- `heap.Pop`: swap the root to the end, restore the order below it, and take it off. Go
indexes out of range on an empty heap; the scheduler pops only a non-empty one. -/
def pop (h : EntryHeap τ) : Option (Entry τ × EntryHeap τ) :=
  let n := h.length - 1
  popLast ((h.swap 0 n).down 0 n).1

/-- `heap.Remove`: swap `i` to the end, restore the order (down, else up), take it off. -/
def remove (h : EntryHeap τ) (i : Nat) : Option (Entry τ × EntryHeap τ) :=
  let n := h.length - 1
  if n = i then popLast h else
  let r := (h.swap i n).down i n
  popLast (if r.2 then r.1 else r.1.up i)

/-- The parent of position `c`, `(c - 1) / 2`. -/
def parent (c : Nat) : Nat := (c - 1) / 2

/-- The heap order `container/heap` keeps: no entry is `Less` than its parent. -/
def HeapOrdered (h : EntryHeap τ) : Prop :=
  ∀ c, 0 < c → c < h.length → h.less c (parent c) = false

end Algorithms

/-! ## What the algorithms move, whatever `Before` is -/

section Moves
variable {τ : Type} {h t : EntryHeap τ} {e x : Entry τ} {i j k n fuel : Nat}

theorem getElem?_swap (hi : i < h.length) (hj : j < h.length) (k : Nat) :
    (h.swap i j)[k]? = h[if k = j then i else if k = i then j else k]? := by
  simp only [swap, List.getElem?_eq_getElem hi, List.getElem?_eq_getElem hj, List.getElem?_set,
    List.length_set, hi, hj, if_true]
  split_ifs <;> subst_vars <;> simp_all [List.getElem?_eq_getElem]

@[simp] theorem length_swap : (h.swap i j).length = h.length := by
  unfold swap; split <;> simp

theorem swap_perm : (h.swap i j).Perm h := by
  classical
  unfold swap
  split
  · rename_i a b ha hb
    obtain ⟨hi, rfl⟩ := List.getElem?_eq_some_iff.mp ha
    obtain ⟨hj, rfl⟩ := List.getElem?_eq_some_iff.mp hb
    refine List.perm_iff_count.mpr fun x => ?_
    have held : (if h[i] == x then 1 else 0) ≤ h.count x := by
      split
      · next same => exact List.count_pos_iff.mpr (beq_iff_eq.mp same ▸ List.getElem_mem hi)
      · exact Nat.zero_le _
    rw [List.count_set _ _ _ _ (by simpa using hj), List.count_set _ _ _ _ hi, List.getElem_set, ite_self]
    omega
  · rfl

theorem parent_lt (hc : 0 < k) : parent k < k := by unfold parent; omega

theorem popLast_eq (pop : popLast h = some (e, t)) : t ++ [e] = h := by
  simp only [popLast, Option.map_eq_some', Prod.mk.injEq] at pop
  obtain ⟨e', last, rfl, rfl⟩ := pop
  exact (List.dropLast_append_getLast? e' last)

theorem popLast_of_getElem? (last : h[h.length - 1]? = some e) :
    ∃ t, popLast h = some (e, t) ∧ (e :: t).Perm h := by
  have ne : h ≠ [] := by rintro rfl; simp at last
  refine ⟨h.dropLast, ?_, ?_⟩
  · simp [popLast, List.getLast?_eq_getElem?, last]
  · have shape : h.dropLast ++ [e] = h := by
      have := List.dropLast_append_getLast? e (by rw [List.getLast?_eq_getElem?]; exact last)
      exact this
    calc (e :: h.dropLast).Perm (h.dropLast ++ [e]) := List.perm_append_singleton e _ |>.symm
      _ = h := shape

variable [Before τ]


theorem upLoop_perm : (upLoop fuel h j).Perm h := by
  induction fuel generalizing h j with
  | zero => rfl
  | succ fuel ih =>
    unfold upLoop
    split_ifs
    · rfl
    · exact ih.trans swap_perm
    · rfl

theorem downLoop_perm : (downLoop fuel h i n).1.Perm h := by
  induction fuel generalizing h i with
  | zero => rfl
  | succ fuel ih =>
    unfold downLoop
    by_cases leaf : n ≤ 2 * i + 1
    · rw [if_pos leaf]
    rw [if_neg leaf]
    dsimp only
    generalize (if 2 * i + 2 < n ∧ h.less (2 * i + 2) (2 * i + 1) then 2 * i + 2 else 2 * i + 1) = j
    split_ifs
    · exact ih.trans swap_perm
    · rfl

/-- `up` from `j` leaves every later position alone. -/
theorem upLoop_getElem?_of_lt (hk : j < k) : (upLoop fuel h j)[k]? = h[k]? := by
  induction fuel generalizing h j with
  | zero => rfl
  | succ fuel ih =>
    unfold upLoop
    split_ifs with j0 lt
    · rfl
    · have hp := parent_lt (Nat.pos_of_ne_zero j0)
      have hjl : j < h.length := by
        by_contra out; simp [less, List.getElem?_eq_none (by omega : h.length ≤ j)] at lt
      rw [ih (by exact Nat.lt_trans hp hk), getElem?_swap (by omega) hjl]
      simp [show k ≠ j by omega, show k ≠ (j - 1) / 2 by unfold parent at hp; omega]
    · rfl

/-- `down` below `n` leaves the positions from `n` on alone. -/
theorem downLoop_getElem?_of_le (hk : n ≤ k) : (downLoop fuel h i n).1[k]? = h[k]? := by
  induction fuel generalizing h i with
  | zero => rfl
  | succ fuel ih =>
    unfold downLoop
    by_cases leaf : n ≤ 2 * i + 1
    · rw [if_pos leaf]
    rw [if_neg leaf]
    dsimp only
    generalize hj : (if 2 * i + 2 < n ∧ h.less (2 * i + 2) (2 * i + 1) then 2 * i + 2 else 2 * i + 1) = j
    have jn : j < n := by rw [← hj]; split_ifs with c <;> omega
    split_ifs with lt
    · have hl : i < h.length ∧ j < h.length := by
        simp only [less] at lt; split at lt
        · rename_i a b ha hb
          exact ⟨(List.getElem?_eq_some_iff.mp hb).1, (List.getElem?_eq_some_iff.mp ha).1⟩
        · exact absurd lt (by simp)
      rw [ih, getElem?_swap hl.1 hl.2]
      simp [show k ≠ j by omega, show k ≠ i by omega]
    · rfl

theorem push_perm : (h.push x).Perm (h ++ [x]) := upLoop_perm

@[simp] theorem length_push : (h.push x).length = h.length + 1 := by
  simp [push_perm.length_eq]

@[simp] theorem down_fst : (h.down i n).1 = (downLoop n h i n).1 := rfl
@[simp] theorem length_downLoop : (downLoop fuel h i n).1.length = h.length := downLoop_perm.length_eq
@[simp] theorem length_upLoop : (upLoop fuel h j).length = h.length := upLoop_perm.length_eq

/-- `Pop` takes off the root. -/
theorem pop_some (root : h[0]? = some e) : ∃ t, h.pop = some (e, t) ∧ (e :: t).Perm h := by
  have hl : 0 < h.length := (List.getElem?_eq_some_iff.mp root).1
  obtain ⟨t, pop, perm⟩ := popLast_of_getElem? (h := ((h.swap 0 (h.length - 1)).down 0 (h.length - 1)).1)
    (e := e) (by
      rw [down_fst, length_downLoop, length_swap, downLoop_getElem?_of_le (le_refl _),
        getElem?_swap hl (by omega)]
      simpa using root)
  exact ⟨t, pop, perm.trans (downLoop_perm.trans swap_perm)⟩

theorem up_eq : h.up j = upLoop j h j := rfl

/-- `Remove(i)` takes off the element at `i`. -/
theorem remove_some (hi : h[i]? = some e) : ∃ t, h.remove i = some (e, t) ∧ (e :: t).Perm h := by
  have hil : i < h.length := (List.getElem?_eq_some_iff.mp hi).1
  unfold remove
  by_cases last : h.length - 1 = i
  · rw [if_pos last]; exact popLast_of_getElem? (last ▸ hi)
  rw [if_neg last]
  dsimp only
  generalize hn : h.length - 1 = n at last
  have hnl : n < h.length := by omega
  have stays : ((h.swap i n).down i n).1[n]? = some e := by
    rw [down_fst, downLoop_getElem?_of_le (le_refl _), getElem?_swap hil hnl]; simpa using hi
  have perm : ((h.swap i n).down i n).1.Perm h := downLoop_perm.trans swap_perm
  have len : ((h.swap i n).down i n).1.length - 1 = n := by rw [perm.length_eq]; omega
  split_ifs
  · obtain ⟨t, pop, perm'⟩ := popLast_of_getElem? (h := ((h.swap i n).down i n).1) (e := e)
      (by rwa [len])
    exact ⟨t, pop, perm'.trans perm⟩
  · obtain ⟨t, pop, perm'⟩ := popLast_of_getElem? (h := ((h.swap i n).down i n).1.up i) (e := e)
      (by rw [up_eq, length_upLoop, len, upLoop_getElem?_of_lt (by omega)]; exact stays)
    exact ⟨t, pop, perm'.trans (upLoop_perm.trans perm)⟩

end Moves

/-! ## Reading the fire times through a map

The algorithms look at fire times only through `Less`. Mapping every fire time of the slice
through `g` therefore commutes with each of them as long as `g` keeps `Before` between the
entries the slice holds. -/

section Map
variable {σ τ : Type} (g : σ → τ)

theorem map_swap (h : EntryHeap σ) (i j : Nat) :
    (h.swap i j).map (Entry.map g) = swap (h.map (Entry.map g)) i j := by
  simp only [swap, List.getElem?_map]
  cases h[i]? <;> cases h[j]? <;> simp

theorem map_popLast (h : EntryHeap σ) :
    (popLast h).map (Prod.map (Entry.map g) (List.map (Entry.map g))) = popLast (h.map (Entry.map g)) := by
  simp [popLast, Option.map_map, Function.comp_def]

variable [Before σ] [Before τ]

/-- `g` keeps `Before` between the fire times of the slice's entries. -/
def Agrees (h : EntryHeap σ) : Prop :=
  ∀ a ∈ h, ∀ b ∈ h, Before.before (g a.nextRun) (g b.nextRun) = Before.before a.nextRun b.nextRun

variable {g} {h : EntryHeap σ} {x : Entry σ} {i j n fuel : Nat}

theorem Agrees.perm {t : EntryHeap σ} (agrees : Agrees g h) (perm : t.Perm h) : Agrees g t :=
  fun a ha b hb => agrees a (perm.subset ha) b (perm.subset hb)

theorem map_less (agrees : Agrees g h) (i j : Nat) : less (h.map (Entry.map g)) i j = h.less i j := by
  simp only [less, List.getElem?_map]
  cases hi : h[i]? <;> cases hj : h[j]? <;> try rfl
  exact agrees _ (List.getElem?_mem hi) _ (List.getElem?_mem hj)

theorem map_upLoop (agrees : Agrees g h) :
    (upLoop fuel h j).map (Entry.map g) = upLoop fuel (h.map (Entry.map g)) j := by
  induction fuel generalizing h j with
  | zero => rfl
  | succ fuel ih =>
    simp only [upLoop, map_less agrees]
    split_ifs
    · rfl
    · rw [ih (agrees.perm swap_perm), map_swap]
    · rfl

theorem map_downLoop (agrees : Agrees g h) :
    Prod.map (List.map (Entry.map g)) id (downLoop fuel h i n) = downLoop fuel (h.map (Entry.map g)) i n := by
  induction fuel generalizing h i with
  | zero => rfl
  | succ fuel ih =>
    simp only [downLoop, map_less agrees]
    split_ifs <;> first | rfl | rw [← map_swap, ← ih (agrees.perm swap_perm)]

theorem map_push (agrees : Agrees g (h ++ [x])) : (h.push x).map (Entry.map g) = push (h.map (Entry.map g)) (x.map g) := by
  simp only [push, up, map_upLoop agrees, List.map_append, List.map_cons, List.map_nil, List.length_map]

theorem map_down (agrees : Agrees g h) (i n : Nat) :
    Prod.map (List.map (Entry.map g)) id (h.down i n) = down (h.map (Entry.map g)) i n := by
  rw [down, down, ← map_downLoop agrees]; rfl

theorem map_pop (agrees : Agrees g h) :
    h.pop.map (Prod.map (Entry.map g) (List.map (Entry.map g))) = pop (h.map (Entry.map g)) := by
  have swapped : (h.swap 0 (h.length - 1)).Perm h := swap_perm
  simp only [pop, List.length_map, ← map_swap, ← map_down (agrees.perm swapped), Prod.map_fst]
  exact map_popLast g _

theorem map_remove (agrees : Agrees g h) :
    (h.remove i).map (Prod.map (Entry.map g) (List.map (Entry.map g))) = remove (h.map (Entry.map g)) i := by
  have swapped : (h.swap i (h.length - 1)).Perm h := swap_perm
  have moved : Agrees g ((h.swap i (h.length - 1)).down i (h.length - 1)).1 :=
    agrees.perm (downLoop_perm.trans swapped)
  simp only [remove, List.length_map, ← map_swap, ← map_down (agrees.perm swapped), Prod.map_fst,
    Prod.map_snd, id_eq]
  split_ifs
  · exact map_popLast g h
  · exact map_popLast g _
  · rw [up, up, ← map_upLoop moved]
    exact map_popLast g _

theorem heapOrdered_map (agrees : Agrees g h) : HeapOrdered (h.map (Entry.map g)) ↔ HeapOrdered h := by
  simp only [HeapOrdered, List.length_map, map_less agrees]

end Map

/-! ## The min-heap order on one clock -/

section Order

/-! ## Positions and keys -/

/-- The `nextRun` at position `i`, as the integer `Less` compares. -/
def key (h : EntryHeap) (i : Nat) : Int := ((h[i]?).map (·.nextRun.unixNano)).getD 0

/-- The min-heap order of `Less` on the positions below `n`: no entry precedes its parent. -/
def OrderedBelow (h : EntryHeap) (n : Nat) : Prop :=
  ∀ c, 0 < c → c < n → h.key (parent c) ≤ h.key c

variable {h t : EntryHeap} {e x : Entry} {i j k n fuel : Nat}

theorem key_swap_right (hi : i < h.length) (hj : j < h.length) : (h.swap i j).key j = h.key i := by
  simp [key, getElem?_swap hi hj]

theorem key_swap_left (hi : i < h.length) (hj : j < h.length) : (h.swap i j).key i = h.key j := by
  by_cases e : i = j
  · subst e; exact key_swap_right hi hj
  · simp [key, getElem?_swap hi hj, e]

theorem key_swap_of_ne (hi : i < h.length) (hj : j < h.length) (ki : k ≠ i) (kj : k ≠ j) :
    (h.swap i j).key k = h.key k := by
  simp [key, getElem?_swap hi hj, ki, kj]

theorem less_eq (hi : i < h.length) (hj : j < h.length) :
    h.less i j = decide (h.key i < h.key j) := by
  simp [less, key, List.getElem?_eq_getElem hi, List.getElem?_eq_getElem hj]

/-! ## Sifting up and down -/

/-- What `up` needs at `j`: every parent–child pair below `n` off `j` is ordered, and `j`'s
parent is at or before `j`'s children. -/
structure UpReady (h : EntryHeap) (n j : Nat) : Prop where
  off : ∀ c, 0 < c → c < n → c ≠ j → h.key (parent c) ≤ h.key c
  bridge : 0 < j → ∀ c, 0 < c → c < n → parent c = j → h.key (parent j) ≤ h.key c

theorem UpReady.ordered (ready : UpReady h n j) (settled : j = 0 ∨ h.key (parent j) ≤ h.key j) :
    OrderedBelow h n := by
  intro c hc hcn
  by_cases e : c = j
  · subst e; rcases settled with rfl | le
    · omega
    · exact le
  · exact ready.off c hc hcn e

/-- Swapping `j` above a parent it precedes moves the gap of `UpReady` to the parent. -/
theorem UpReady.swap (ready : UpReady h n j) (hj : 0 < j) (hjn : j < n) (hn : n ≤ h.length)
    (lt : h.key j < h.key (parent j)) : UpReady (h.swap (parent j) j) n (parent j) := by
  have hp := parent_lt hj
  have hpl : parent j < h.length := by omega
  have hjl : j < h.length := by omega
  have pj : parent j ≠ j := by omega
  constructor
  · intro c hc hcn cp
    by_cases cj : c = j
    · subst cj
      rw [key_swap_left hpl hjl, key_swap_right hpl hjl]; omega
    rw [key_swap_of_ne hpl hjl cp cj]
    have own := ready.off c hc hcn cj
    by_cases up : parent c = j
    · rw [up, key_swap_right hpl hjl]; exact ready.bridge hj c hc hcn up
    by_cases sib : parent c = parent j
    · rw [sib, key_swap_left hpl hjl]; rw [sib] at own; omega
    · rw [key_swap_of_ne hpl hjl sib up]; exact own
  · intro hp0 c hc hcn cp
    have pp := parent_lt hp0
    rw [key_swap_of_ne hpl hjl (by omega) (by omega)]
    have above := ready.off (parent j) hp0 (by omega) pj
    by_cases cj : c = j
    · subst cj; rw [key_swap_right hpl hjl]; exact above
    · have cpj : c ≠ parent j := by rw [← cp]; exact (parent_lt hc).ne'
      rw [key_swap_of_ne hpl hjl cpj cj]
      have := ready.off c hc hcn cj
      rw [cp] at this; omega
theorem upLoop_ordered (ready : UpReady h n j) (hjn : j < n) (hn : n ≤ h.length) (hf : j ≤ fuel) :
    OrderedBelow (upLoop fuel h j) n := by
  induction fuel generalizing h j with
  | zero => exact ready.ordered (.inl (by omega))
  | succ fuel ih =>
    unfold upLoop
    split_ifs with j0 lt
    · exact ready.ordered (.inl j0)
    · have hj : 0 < j := Nat.pos_of_ne_zero j0
      have hp := parent_lt hj
      rw [less_eq (by omega) (by exact Nat.lt_of_lt_of_le (Nat.lt_trans hp hjn) hn)] at lt
      exact ih (ready.swap hj hjn hn (of_decide_eq_true lt)) (by omega) (by simpa using hn) (by omega)
    · have hj : 0 < j := Nat.pos_of_ne_zero j0
      have hp := parent_lt hj
      rw [less_eq (by omega) (by exact Nat.lt_of_lt_of_le (Nat.lt_trans hp hjn) hn)] at lt
      exact ready.ordered (.inr (by simpa using lt))

/-- What `down` needs at `i`: every parent–child pair below `n` whose parent is not `i` is
ordered, and `i`'s parent is at or before `i`'s children. -/
structure DownReady (h : EntryHeap) (n i : Nat) : Prop where
  off : ∀ c, 0 < c → c < n → parent c ≠ i → h.key (parent c) ≤ h.key c
  bridge : 0 < i → ∀ c, 0 < c → c < n → parent c = i → h.key (parent i) ≤ h.key c

theorem DownReady.ordered (ready : DownReady h n i)
    (settled : ∀ c, 0 < c → c < n → parent c = i → h.key i ≤ h.key c) : OrderedBelow h n := by
  intro c hc hcn
  by_cases e : parent c = i
  · rw [e]; exact settled c hc hcn e
  · exact ready.off c hc hcn e

/-- The child `down` compares against is the lesser one below `n`. -/
theorem lesser_child (hn : n ≤ h.length) (h1 : 2 * i + 1 < n) :
    let j := if 2 * i + 2 < n ∧ h.less (2 * i + 2) (2 * i + 1) then 2 * i + 2 else 2 * i + 1
    parent j = i ∧ 2 * i + 1 ≤ j ∧ j < n ∧
      ∀ c, 0 < c → c < n → parent c = i → h.key j ≤ h.key c := by
  intro j
  have children : ∀ c, 0 < c → parent c = i → c = 2 * i + 1 ∨ c = 2 * i + 2 := by
    unfold parent; omega
  by_cases right : 2 * i + 2 < n ∧ h.less (2 * i + 2) (2 * i + 1)
  · have lt := right.2
    rw [less_eq (by omega) (by omega)] at lt
    rw [show j = 2 * i + 2 from if_pos right]
    refine ⟨by unfold parent; omega, by omega, right.1, fun c hc hcn pc => ?_⟩
    rcases children c hc pc with rfl | rfl
    · exact le_of_lt (of_decide_eq_true lt)
    · exact le_refl _
  · rw [show j = 2 * i + 1 from if_neg right]
    refine ⟨by unfold parent; omega, le_refl _, h1, fun c hc hcn pc => ?_⟩
    rcases children c hc pc with rfl | rfl
    · exact le_refl _
    · have nlt : ¬ h.less (2 * i + 2) (2 * i + 1) = true := fun l => right ⟨hcn, l⟩
      rw [less_eq (by omega) (by omega)] at nlt
      simpa using nlt

/-- Swapping `i` below its lesser child that precedes it moves the gap of `DownReady` down. -/
theorem DownReady.swap (ready : DownReady h n i) (hn : n ≤ h.length) (hjn : j < n)
    (pj : parent j = i) (hj0 : 0 < j)
    (least : ∀ c, 0 < c → c < n → parent c = i → h.key j ≤ h.key c) (lt : h.key j < h.key i) :
    DownReady (h.swap i j) n j := by
  have ij : i < j := pj ▸ parent_lt hj0
  have hil : i < h.length := by omega
  have hjl : j < h.length := by omega
  constructor
  · intro c hc hcn pc
    by_cases cj : c = j
    · subst cj
      rw [pj, key_swap_left hil hjl, key_swap_right hil hjl]; exact le_of_lt lt
    by_cases ci : c = i
    · subst ci
      have pi := parent_lt hc
      rw [key_swap_left hil hjl, key_swap_of_ne hil hjl (by omega) (by omega)]
      exact ready.bridge hc j hj0 hjn pj
    rw [key_swap_of_ne hil hjl ci cj]
    by_cases sib : parent c = i
    · rw [sib, key_swap_left hil hjl]; exact least c hc hcn sib
    · rw [key_swap_of_ne hil hjl sib pc]; exact ready.off c hc hcn sib
  · intro _ c hc hcn pc
    have jc : j < c := pc ▸ parent_lt hc
    rw [pj, key_swap_left hil hjl, key_swap_of_ne hil hjl (by omega) (by omega)]
    exact pc ▸ ready.off c hc hcn (by omega)

theorem downLoop_ordered (ready : DownReady h n i) (hn : n ≤ h.length) (hf : n ≤ fuel + i) :
    OrderedBelow (downLoop fuel h i n).1 n := by
  induction fuel generalizing h i with
  | zero =>
    exact ready.ordered fun c hc hcn pc => absurd (pc ▸ parent_lt hc) (by omega)
  | succ fuel ih =>
    unfold downLoop
    by_cases leaf : n ≤ 2 * i + 1
    · rw [if_pos leaf]
      exact ready.ordered fun c hc hcn pc => by unfold parent at pc; omega
    rw [if_neg leaf]
    obtain ⟨pj, below, hjn, least⟩ := lesser_child (h := h) (i := i) hn (by omega)
    dsimp only
    generalize (if 2 * i + 2 < n ∧ h.less (2 * i + 2) (2 * i + 1) then 2 * i + 2 else 2 * i + 1) = j
      at pj below hjn least ⊢
    rw [less_eq (by omega) (by omega)]
    split_ifs with lt
    · exact ih (ready.swap hn hjn pj (by omega) least (of_decide_eq_true lt)) (by simpa using hn) (by omega)
    · exact ready.ordered fun c hc hcn pc => le_trans (by simpa using lt) (least c hc hcn pc)
/-! ## `Push`, `Pop` and `Remove` -/

theorem key_append_left {t : EntryHeap} (hk : k < t.length) : (t ++ [e]).key k = t.key k := by
  simp [key, List.getElem?_append_left hk]

theorem UpReady.of_ordered (ord : OrderedBelow h n) (hjn : j < n) : UpReady h n j where
  off c hc hcn _ := ord c hc hcn
  bridge hj c hc hcn pc := le_trans (ord j hj hjn) (pc ▸ ord c hc hcn)

/-- Taking the last element off keeps the order of what remains. -/
theorem popLast_ordered (ord : OrderedBelow h (h.length - 1)) (pop : popLast h = some (e, t)) :
    OrderedBelow t t.length := by
  have shape := popLast_eq pop
  subst shape
  intro c hc hcn
  have := ord c hc (by simpa using hcn)
  rwa [key_append_left hcn, key_append_left (by have := parent_lt hc; omega)] at this

/-- `Push` keeps the heap order. -/
theorem push_ordered (ord : OrderedBelow h h.length) : OrderedBelow (h.push x) (h.push x).length := by
  rw [length_push]
  apply upLoop_ordered _ (by omega) (by simp) (le_refl _)
  constructor
  · intro c hc hcn cj
    have hp := parent_lt hc
    have hch : c < h.length := by simp at hcn; omega
    rw [key_append_left hch, key_append_left (Nat.lt_trans hp hch)]
    exact ord c hc hch
  · intro _ c hc hcn pc
    unfold parent at pc; omega
/-- `Pop` keeps the heap order of what remains. -/
theorem pop_ordered (ord : OrderedBelow h h.length) (pop : h.pop = some (e, t)) :
    OrderedBelow t t.length := by
  refine popLast_ordered ?_ pop
  rw [down_fst, length_downLoop, length_swap]
  rcases Nat.eq_zero_or_pos h.length with hl | hl
  · intro c hc hcn; omega
  refine downLoop_ordered ⟨fun c hc hcn pc => ?_, fun h0 => absurd h0 (lt_irrefl 0)⟩ (by simp) (by omega)
  have hp := parent_lt hc
  rw [key_swap_of_ne (k := c) hl (by omega) (by omega) (by omega),
    key_swap_of_ne (k := parent c) hl (by omega) pc (by omega)]
  exact ord c hc (by omega)
/-- `down` leaves an element that is at or before its children where it is. -/
theorem downLoop_settled (fuel : Nat) (hn : n ≤ h.length)
    (settled : ∀ c, 0 < c → c < n → parent c = i → h.key i ≤ h.key c) :
    downLoop fuel h i n = (h, i) := by
  cases fuel with
  | zero => rfl
  | succ fuel =>
    unfold downLoop
    by_cases leaf : n ≤ 2 * i + 1
    · rw [if_pos leaf]
    rw [if_neg leaf]
    obtain ⟨pj, below, hjn, _⟩ := lesser_child (h := h) (i := i) hn (by omega)
    dsimp only
    generalize (if 2 * i + 2 < n ∧ h.less (2 * i + 2) (2 * i + 1) then 2 * i + 2 else 2 * i + 1) = j
      at pj below hjn ⊢
    rw [less_eq (by omega) (by omega), if_neg]
    simpa using settled j (by omega) hjn pj

/-- `Remove(i)` keeps the heap order of what remains: when the last element moved into `i`
is at or after `i`'s parent, `down` restores the order; when it precedes that parent it
precedes `i`'s children too, `down` leaves it, and `up` restores the order. -/
theorem remove_ordered (ord : OrderedBelow h h.length) (hil : i < h.length)
    (rem : h.remove i = some (e, t)) : OrderedBelow t t.length := by
  unfold remove at rem
  by_cases last : h.length - 1 = i
  · rw [if_pos last] at rem
    exact popLast_ordered (fun c hc hcn => ord c hc (by omega)) rem
  rw [if_neg last] at rem
  dsimp only at rem
  refine popLast_ordered ?_ rem
  generalize hn : h.length - 1 = n at last
  have hin : i < n := by omega
  have hnl : n < h.length := by omega
  have other : ∀ k, k ≠ i → k ≠ n → (h.swap i n).key k = h.key k :=
    fun k a b => key_swap_of_ne hil hnl a b
  have at_i : (h.swap i n).key i = h.key n := key_swap_left hil hnl
  have len : ((h.swap i n).down i n).1.length = n + 1 := by simp; omega
  by_cases settled : i = 0 ∨ h.key (parent i) ≤ h.key n
  · have ready : DownReady (h.swap i n) n i := by
      constructor
      · intro c hc hcn pc
        have hp := parent_lt hc
        by_cases ci : c = i
        · subst ci
          rcases settled with rfl | le
          · omega
          · rw [at_i, other _ pc (by omega)]; exact le
        · rw [other c ci (by omega), other _ pc (by omega)]; exact ord c hc (by omega)
      · intro hi0 c hc hcn pc
        have hp := parent_lt hc
        have hpi := parent_lt hi0
        rw [other c (by omega) (by omega), other _ (by omega) (by omega)]
        exact le_trans (ord i hi0 (by omega)) (pc ▸ ord c hc (by omega))
    have sorted : OrderedBelow ((h.swap i n).down i n).1 n :=
      downLoop_ordered ready (by simp; omega) (by omega)
    split_ifs
    · rwa [len]
    · rw [up_eq, length_upLoop, len]
      exact upLoop_ordered (UpReady.of_ordered sorted hin) hin (by omega) (le_refl _)
  · push_neg at settled
    obtain ⟨hi0, before⟩ := settled
    have hi0 : 0 < i := Nat.pos_of_ne_zero hi0
    have hpi := parent_lt hi0
    have at_parent : h.key (parent i) ≤ h.key i := ord i hi0 (by omega)
    have still : (h.swap i n).down i n = (h.swap i n, false) := by
      have := downLoop_settled (h := h.swap i n) (i := i) (n := n) n (by simp; omega)
        fun c hc hcn pc => by
          have := pc ▸ ord c hc (by omega)
          rw [at_i, other c (by have := parent_lt hc; omega) (by omega)]; omega
      simp [down, this]
    have ready : UpReady (h.swap i n) n i := by
      constructor
      · intro c hc hcn ci
        have hp := parent_lt hc
        by_cases pc : parent c = i
        · have := pc ▸ ord c hc (by omega)
          rw [pc, at_i, other c ci (by omega)]; omega
        · rw [other c ci (by omega), other _ pc (by omega)]; exact ord c hc (by omega)
      · intro _ c hc hcn pc
        have hp := parent_lt hc
        rw [other c (by omega) (by omega), other _ (by omega) (by omega)]
        exact le_trans at_parent (pc ▸ ord c hc (by omega))
    rw [still]
    simp only [Bool.false_eq_true, if_false]
    rw [up_eq, length_upLoop, length_swap, hn]
    exact upLoop_ordered ready hin (by simp; omega) (le_refl _)


/-- On one clock `Less` compares keys, and the heap order is `OrderedBelow`. -/
theorem heapOrdered_iff : HeapOrdered h ↔ OrderedBelow h h.length := by
  refine forall_congr' fun c => forall_congr' fun pos => forall_congr' fun lt => ?_
  rw [less_eq lt (Nat.lt_trans (parent_lt pos) lt)]
  simp

end Order

end EntryHeap

end Cronbat.Heap
