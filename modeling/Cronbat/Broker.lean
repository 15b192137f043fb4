import Cronbat.Time

/-! `realtime.Broker`, the fan-out bus behind `/api/v1/events`, as a system of goroutines.
Each `Publish` takes its id from the atomic `nextID`, then holds the read lock of `mu` while it
walks the subscriber map, in an order the map leaves open, with a non-blocking send to each
channel. `Subscribe` and each call of a `cancel` function take the write lock, so their
critical sections are single steps that wait for every reader to leave; a subscriber's handler
reads its channel. A run is any interleaving of these steps, and it records an observation
trace: what each step did that a reader of the code would point at (an id taken, a send
made or dropped, a channel closed, an event read). -/
namespace Cronbat.Realtime
open Cronbat

/-- `realtime.Event`, with the fields the broker reads or writes; `atTime` is `At`. -/
structure Event where
  id : Nat
  type : String
  atTime : Time
  deriving DecidableEq, Repr

/-- A subscriber's `chan Event`: the buffered events, oldest first, and whether it is closed. -/
structure Channel where
  buffer : List Event
  closed : Bool
  deriving DecidableEq, Repr

/-- The buffer size `Subscribe` gives every channel. -/
def capacity : Nat := 32

/-- Where a goroutine in `Publish` is: not in it, holding its id, or holding the read lock with
the subscribers still to send to. -/
inductive Publisher where
  | idle
  | assigned (evt : Event)
  | sending (evt : Event) (rest : List Nat)
  deriving DecidableEq, Repr

/-- The broker and the goroutines in it. `subs` are the keys of the subscriber map, whose value
for `id` is `chans id`; `chans` keeps every channel `Subscribe` made, also once it has left the
map. `readers` are the goroutines holding the read lock. -/
structure Broker where
  nextID : Nat
  nextCh : Nat
  readers : List Nat
  subs : List Nat
  chans : Nat → Option Channel
  publishers : Nat → Publisher

/-- `NewBroker()`, with no goroutine in `Publish`. -/
def newBroker : Broker := ⟨0, 0, [], [], fun _ => none, fun _ => .idle⟩

/-- One step of one goroutine. -/
inductive Action where
  /-- `Publish(evt)` starts in goroutine `g` at clock reading `now`: `nextID.Add(1)` and the
  `At` stamp. -/
  | publish (g : Nat) (evt : Event) (now : Time)
  /-- `b.mu.RLock()`; `range b.subs` will visit the keys in `order`. -/
  | rlock (g : Nat) (order : List Nat)
  /-- One iteration of the loop: the `select` with its `default`. -/
  | send (g : Nat)
  /-- The loop is done: the deferred `RUnlock`, and `Publish` returns. -/
  | runlock (g : Nat)
  /-- `Subscribe()`. -/
  | subscribe
  /-- A call of the `cancel` function `Subscribe` returned for `id`. -/
  | cancel (id : Nat)
  /-- The subscriber of `id` reads its channel. -/
  | receive (id : Nat)

/-- What a step did, as the trace records it. -/
inductive Obs where
  | published (id : Nat)
  | delivered (id ch : Nat)
  | dropped (id ch : Nat)
  | returned (id : Nat)
  | subscribed (ch : Nat)
  /-- A `cancel` call ran its critical section; `closed` says whether it found the id in the
  map, deleted it and closed the channel. -/
  | cancelled (ch : Nat) (closed : Bool)
  | received (id ch : Nat)
  deriving DecidableEq, Repr

/-- One step. An action whose goroutine is not at that point of the code, or that waits for a
lock or for a channel, leaves the broker as it is; a Go runtime panic is an error. -/
def step (b : Broker) : Action → Except String (Broker × List Obs)
  | .publish g evt now =>
    match b.publishers g with
    | .idle =>
      let evt := { evt with id := b.nextID + 1, atTime := if evt.atTime.isZero then now else evt.atTime }
      .ok ({ b with nextID := b.nextID + 1, publishers := Function.update b.publishers g (.assigned evt) },
        [.published evt.id])
    | _ => .ok (b, [])
  | .rlock g order =>
    match b.publishers g with
    | .assigned evt =>
      if order.isPerm b.subs then
        .ok ({ b with
          readers := g :: b.readers
          publishers := Function.update b.publishers g (.sending evt order) }, [])
      else .ok (b, [])
    | _ => .ok (b, [])
  | .send g =>
    match b.publishers g with
    | .sending evt (i :: rest) =>
      let b' := { b with publishers := Function.update b.publishers g (.sending evt rest) }
      match b.chans i with
      | none => .ok (b', [.dropped evt.id i])
      | some c =>
        if c.closed then .error "send on closed channel"
        else if c.buffer.length < capacity then
          .ok ({ b' with chans := Function.update b.chans i (some { c with buffer := c.buffer ++ [evt] }) },
            [.delivered evt.id i])
        else .ok (b', [.dropped evt.id i])
    | _ => .ok (b, [])
  | .runlock g =>
    match b.publishers g with
    | .sending evt [] =>
      .ok ({ b with readers := b.readers.erase g, publishers := Function.update b.publishers g .idle },
        [.returned evt.id])
    | _ => .ok (b, [])
  | .subscribe =>
    if b.readers = [] then
      .ok ({ b with
        nextCh := b.nextCh + 1
        subs := b.subs ++ [b.nextCh + 1]
        chans := Function.update b.chans (b.nextCh + 1) (some ⟨[], false⟩) }, [.subscribed (b.nextCh + 1)])
    else .ok (b, [])
  | .cancel i =>
    if b.readers = [] then
      if i ∈ b.subs then
        match b.chans i with
        | none => .error "close of nil channel"
        | some c =>
          if c.closed then .error "close of closed channel"
          else .ok ({ b with
            subs := b.subs.erase i
            chans := Function.update b.chans i (some { c with closed := true }) }, [.cancelled i true])
      else .ok (b, [.cancelled i false])
    else .ok (b, [])
  | .receive i =>
    match b.chans i with
    | some ⟨evt :: rest, closed⟩ =>
      .ok ({ b with chans := Function.update b.chans i (some ⟨rest, closed⟩) }, [.received evt.id i])
    | _ => .ok (b, [])

/-- A run: the steps in order, the broker after them and the trace they record. -/
def run (b : Broker) : List Action → Except String (Broker × List Obs)
  | [] => .ok (b, [])
  | a :: actions =>
    match step b a with
    | .error err => .error err
    | .ok (b', obs) =>
      match run b' actions with
      | .error err => .error err
      | .ok (b'', rest) => .ok (b'', obs ++ rest)

/-! ## The trace -/

/-- `x` occurs strictly before `y` in `l`. -/
def Precedes {α : Type} (l : List α) (x y : α) : Prop := [x, y].Sublist l

section Precedes
variable {α : Type} {l l' : List α} {x y o : α}

/-- Appending one element adds only the pairs that end in it. -/
theorem precedes_append_singleton : Precedes (l ++ [o]) x y ↔ Precedes l x y ∨ (x ∈ l ∧ y = o) := by
  constructor
  · intro h
    obtain ⟨l₁, l₂, split, sub₁, sub₂⟩ := List.sublist_append_iff.mp h
    match l₁, l₂, split with
    | [], _, rfl => simp at sub₂
    | [_], [_], rfl => exact .inr ⟨List.singleton_sublist.mp sub₁, by simpa using sub₂⟩
    | [_, _], [], rfl => exact .inl sub₁
  · rintro (h | ⟨held, rfl⟩)
    · exact List.sublist_append_of_sublist_left h
    · exact List.sublist_append_iff.mpr ⟨[x], [y], rfl, List.singleton_sublist.mpr held, .refl _⟩

theorem precedes_append_of_ne (ne : y ≠ o) : Precedes (l ++ [o]) x y ↔ Precedes l x y := by
  simp [precedes_append_singleton, ne]

theorem Precedes.append (h : Precedes l x y) (l' : List α) : Precedes (l ++ l') x y :=
  List.sublist_append_of_sublist_left h

theorem Precedes.left_mem (h : Precedes l x y) : x ∈ l := h.subset (List.mem_cons_self _ _)

theorem Precedes.right_mem (h : Precedes l x y) : y ∈ l := h.subset (by simp)

end Precedes

/-- The event id an observation is about. -/
def Obs.eventId : Obs → Option Nat
  | .published e | .delivered e _ | .dropped e _ | .returned e | .received e _ => some e
  | _ => none

/-- The id of an event delivered to channel `i`. -/
def deliveredOn (i : Nat) : Obs → Option Nat
  | .delivered e j => if j = i then some e else none
  | _ => none

/-- The id of an event the subscriber of `i` read. -/
def receivedOn (i : Nat) : Obs → Option Nat
  | .received e j => if j = i then some e else none
  | _ => none

/-- The ids of the events delivered to channel `i`, in the order of the sends. -/
def deliveredIds (tr : List Obs) (i : Nat) : List Nat := tr.filterMap (deliveredOn i)

/-- The ids of the events the subscriber of `i` read, in the order it read them. -/
def receivedIds (tr : List Obs) (i : Nat) : List Nat := tr.filterMap (receivedOn i)

@[simp] theorem mem_deliveredIds {tr : List Obs} {i e : Nat} : e ∈ deliveredIds tr i ↔ .delivered e i ∈ tr := by
  simp only [deliveredIds, List.mem_filterMap]
  constructor
  · rintro ⟨o, held, found⟩
    cases o with
    | delivered e' j =>
      simp only [deliveredOn, Option.ite_none_right_eq_some, Option.some.injEq] at found
      exact found.1 ▸ found.2 ▸ held
    | _ => exact Option.noConfusion found
  · exact fun held => ⟨_, held, by simp [deliveredOn]⟩

@[simp] theorem deliveredIds_append (tr obs : List Obs) (i : Nat) :
    deliveredIds (tr ++ obs) i = deliveredIds tr i ++ deliveredIds obs i := List.filterMap_append _ _ _

@[simp] theorem receivedIds_append (tr obs : List Obs) (i : Nat) :
    receivedIds (tr ++ obs) i = receivedIds tr i ++ receivedIds obs i := List.filterMap_append _ _ _

@[simp] theorem receivedIds_singleton (o : Obs) (i : Nat) : receivedIds [o] i = (receivedOn i o).toList := by
  simp only [receivedIds, List.filterMap_cons, List.filterMap_nil]
  cases receivedOn i o <;> rfl

@[simp] theorem deliveredIds_singleton (o : Obs) (i : Nat) : deliveredIds [o] i = (deliveredOn i o).toList := by
  simp only [deliveredIds, List.filterMap_cons, List.filterMap_nil]
  cases deliveredOn i o <;> rfl

/-- The order a trace keeps: a channel is closed at most once, each event is delivered to a
channel at most once, only while the channel is subscribed and after the event was published,
a cancel that finds nothing to do comes after the one that closed, and an event whose `Publish`
started after another's returned is not delivered before it. -/
structure History (tr : List Obs) : Prop where
  closes_once : ∀ i, tr.count (.cancelled i true) ≤ 1
  delivered_nodup : ∀ i, (deliveredIds tr i).Nodup
  later_cancel_noop : ∀ i, Precedes tr (.subscribed i) (.cancelled i false) →
    Precedes tr (.cancelled i true) (.cancelled i false)
  no_delivery_after_cancel : ∀ i e, ¬ Precedes tr (.cancelled i true) (.delivered e i)
  published_first : ∀ i e, .delivered e i ∈ tr → Precedes tr (.published e) (.delivered e i)
  subscribed_first : ∀ i e, .delivered e i ∈ tr → Precedes tr (.subscribed i) (.delivered e i)
  realtime : ∀ i e₁ e₂, Precedes tr (.returned e₁) (.published e₂) → ¬ Precedes (deliveredIds tr i) e₂ e₁

/-- What a trace must already hold, or not hold, for a step to record `o` next. -/
def Fits (tr : List Obs) : Obs → Prop
  | .published e => ∀ i, .delivered e i ∉ tr
  | .delivered e i => .delivered e i ∉ tr ∧ .cancelled i true ∉ tr ∧ .published e ∈ tr ∧
      .subscribed i ∈ tr ∧ .returned e ∉ tr
  | .cancelled i true => .cancelled i true ∉ tr
  | .cancelled i false => .subscribed i ∈ tr → .cancelled i true ∈ tr
  | _ => True

theorem History.nil : History [] := by
  constructor <;> simp [Precedes, deliveredIds]

/-- The one-step lemma of the trace: a recorded observation that fits the trace keeps its order. -/
theorem History.snoc {tr : List Obs} (history : History tr) {o : Obs} (fits : Fits tr o) :
    History (tr ++ [o]) where
  closes_once i := by
    rw [List.count_append, List.count_singleton]
    have := history.closes_once i
    by_cases closing : o = .cancelled i true
    · subst closing
      simp only [Fits] at fits
      rw [List.count_eq_zero.mpr fits]; simp
    · simpa [closing] using this
  delivered_nodup i := by
    rw [deliveredIds_append, deliveredIds_singleton]
    cases o with
    | delivered e j =>
      by_cases same : j = i
      · subst same
        simpa [deliveredOn, List.nodup_append, mem_deliveredIds] using ⟨history.delivered_nodup j, fits.1⟩
      · simpa [deliveredOn, same] using history.delivered_nodup i
    | _ => simpa [deliveredOn] using history.delivered_nodup i
  later_cancel_noop i h := by
    rcases precedes_append_singleton.mp h with h | ⟨subscribed, rfl⟩
    · exact (history.later_cancel_noop i h).append _
    · exact precedes_append_singleton.mpr (.inr ⟨fits subscribed, rfl⟩)
  no_delivery_after_cancel i e h := by
    rcases precedes_append_singleton.mp h with h | ⟨cancelled, rfl⟩
    · exact history.no_delivery_after_cancel i e h
    · exact fits.2.1 cancelled
  published_first i e held := by
    rcases List.mem_append.mp held with held | held
    · exact (history.published_first i e held).append _
    · rw [List.mem_singleton.mp held]
      exact precedes_append_singleton.mpr (.inr ⟨(List.mem_singleton.mp held ▸ fits).2.2.1, rfl⟩)
  subscribed_first i e held := by
    rcases List.mem_append.mp held with held | held
    · exact (history.subscribed_first i e held).append _
    · rw [List.mem_singleton.mp held]
      exact precedes_append_singleton.mpr (.inr ⟨(List.mem_singleton.mp held ▸ fits).2.2.2.1, rfl⟩)
  realtime i e₁ e₂ h := by
    rw [deliveredIds_append, deliveredIds_singleton]
    rcases precedes_append_singleton.mp h with earlier | ⟨returned, rfl⟩
    · cases o with
      | delivered e j =>
        by_cases same : j = i
        · subst same
          simp only [deliveredOn, if_true, Option.toList_some]
          rw [precedes_append_singleton]
          rintro (order | ⟨-, rfl⟩)
          · exact history.realtime j e₁ e₂ earlier order
          · exact fits.2.2.2.2 earlier.left_mem
        · simpa [deliveredOn, same] using history.realtime i e₁ e₂ earlier
      | _ => simpa [deliveredOn] using history.realtime i e₁ e₂ earlier
    · simp only [deliveredOn, Option.toList_none, List.append_nil]
      exact fun order => fits i (mem_deliveredIds.mp order.left_mem)
/-- The event a goroutine in `Publish` carries. -/
def Publisher.event? : Publisher → Option Event
  | .idle => none
  | .assigned evt => some evt
  | .sending evt _ => some evt

/-- Whether a goroutine in `Publish` holds the read lock. -/
def Publisher.isSending : Publisher → Bool
  | .sending _ _ => true
  | _ => false

/-- Whether channel `i` is one `Subscribe` made and is now closed. -/
def Broker.isClosed (b : Broker) (i : Nat) : Bool :=
  match b.chans i with
  | some c => c.closed
  | none => false

/-- The ids of the events waiting in channel `i`, oldest first. -/
def Broker.queued (b : Broker) (i : Nat) : List Nat :=
  match b.chans i with
  | some c => c.buffer.map (·.id)
  | none => []

end Cronbat.Realtime
