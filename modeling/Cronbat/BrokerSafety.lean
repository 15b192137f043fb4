import Cronbat.Broker

/-! What every run of the broker keeps. `Inv` is proved of `NewBroker()` and kept by each step,
one lemma per kind of step, so it holds after every interleaving (`Inv.run`). `step_chan` says
once what a step can do to a channel. `subscription_safety` (no panic, each channel closed by its
own `cancel` only, nothing added to it after that, sends that never wait) and `delivery_order`
(what each subscriber reads, and in which order) are assembled from the two. -/
namespace Cronbat.Realtime
open Cronbat

/-- The invariant of the broker and its trace. The first group is about the broker alone: the
read lock is held exactly by the publishers in their loop, whose remaining subscribers are in
the map; the map's channels are exactly the open ones; ids are fresh. The second links the
broker to its trace, and `history` is the trace's order. -/
structure Inv (b : Broker) (tr : List Obs) : Prop where
  readers_nodup : b.readers.Nodup
  readers_iff : ∀ g, g ∈ b.readers ↔ (b.publishers g).isSending = true
  sending_subs : ∀ g evt rest, b.publishers g = .sending evt rest → rest.Nodup ∧ ∀ i ∈ rest, i ∈ b.subs
  subs_nodup : b.subs.Nodup
  subs_iff : ∀ i, i ∈ b.subs ↔ ∃ c, b.chans i = some c ∧ c.closed = false
  fresh_chan : ∀ i, b.nextCh < i → b.chans i = none
  bounded : ∀ i c, b.chans i = some c → c.buffer.length ≤ capacity
  ids_le : ∀ g e, (b.publishers g).event? = some e → e.id ≤ b.nextID
  ids_distinct : ∀ g g' e e', (b.publishers g).event? = some e → (b.publishers g').event? = some e' →
    e.id = e'.id → g = g'
  trace_ids_le : ∀ o ∈ tr, ∀ e, o.eventId = some e → e ≤ b.nextID
  subscribed_iff : ∀ i, .subscribed i ∈ tr ↔ b.chans i ≠ none
  closed_iff : ∀ i, .cancelled i true ∈ tr ↔ ∃ c, b.chans i = some c ∧ c.closed = true
  fifo : ∀ i, receivedIds tr i ++ b.queued i = deliveredIds tr i
  holder_published : ∀ g e, (b.publishers g).event? = some e → .published e.id ∈ tr ∧ .returned e.id ∉ tr
  assigned_fresh : ∀ g e, b.publishers g = .assigned e → ∀ i, .delivered e.id i ∉ tr
  sending_fresh : ∀ g e rest, b.publishers g = .sending e rest → ∀ i ∈ rest, .delivered e.id i ∉ tr
  history : History tr

theorem newBroker_inv : Inv newBroker [] := by
  constructor <;> simp [newBroker, Publisher.event?, Publisher.isSending, deliveredIds, receivedIds, History.nil,
    Broker.queued]

section Steps
variable {b : Broker} {tr : List Obs}

/-- What one step does to channel `i`: nothing; a send into it while it is open; a read of its
oldest event; its making by `Subscribe`, under the next id; or its close by a `cancel` of its
own id. -/
theorem step_chan {b' : Broker} {a : Action} {obs : List Obs} (stepped : step b a = .ok (b', obs)) (i : Nat) :
    b'.chans i = b.chans i ∨
      (∃ c evt, b.chans i = some c ∧ c.closed = false ∧ b'.chans i = some { c with buffer := c.buffer ++ [evt] }) ∨
      (∃ evt rest closed, b.chans i = some ⟨evt :: rest, closed⟩ ∧ b'.chans i = some ⟨rest, closed⟩) ∨
      (i = b.nextCh + 1 ∧ b'.chans i = some ⟨[], false⟩) ∨
      (∃ c, a = .cancel i ∧ b.chans i = some c ∧ b'.chans i = some { c with closed := true }) := by
  have updated {j : Nat} {v : Option Channel} (other : i ≠ j) : Function.update b.chans j v i = b.chans i :=
    Function.update_noteq other _ _
  cases a with
  | publish g evt now =>
    simp only [step] at stepped
    split at stepped <;> cases stepped <;> exact .inl rfl
  | rlock g order =>
    simp only [step] at stepped
    split at stepped <;> (try split at stepped) <;> cases stepped <;> exact .inl rfl
  | send g =>
    simp only [step] at stepped
    split at stepped
    · rename_i evt j rest _
      split at stepped
      · cases stepped; exact .inl rfl
      · rename_i c chan
        by_cases closed : c.closed = true
        · simp [closed] at stepped
        have opened : c.closed = false := Bool.eq_false_iff.mpr closed
        by_cases room : c.buffer.length < capacity
        · simp only [closed, room, if_true, if_false, Bool.false_eq_true, Except.ok.injEq, Prod.mk.injEq] at stepped
          obtain ⟨rfl, -⟩ := stepped
          by_cases same : i = j
          · subst same; exact .inr (.inl ⟨c, evt, chan, opened, by simp [opened]⟩)
          · exact .inl (updated same)
        · simp only [closed, room, if_false, Bool.false_eq_true, Except.ok.injEq, Prod.mk.injEq] at stepped
          obtain ⟨rfl, -⟩ := stepped
          exact .inl rfl
    · cases stepped; exact .inl rfl
  | runlock g =>
    simp only [step] at stepped
    split at stepped <;> cases stepped <;> exact .inl rfl
  | subscribe =>
    simp only [step] at stepped
    split at stepped <;> cases stepped
    · by_cases same : i = b.nextCh + 1
      · subst same; exact .inr (.inr (.inr (.inl ⟨rfl, by simp⟩)))
      · exact .inl (updated same)
    · exact .inl rfl
  | cancel j =>
    simp only [step] at stepped
    split at stepped
    · split at stepped
      · split at stepped
        · cases stepped
        · rename_i c chan
          split at stepped <;> cases stepped
          by_cases same : i = j
          · subst same; exact .inr (.inr (.inr (.inr ⟨c, rfl, chan, by simp⟩)))
          · exact .inl (updated same)
      · cases stepped; exact .inl rfl
    · cases stepped; exact .inl rfl
  | receive j =>
    simp only [step] at stepped
    split at stepped
    · rename_i evt rest closed chan
      cases stepped
      by_cases same : i = j
      · subst same; exact .inr (.inr (.inl ⟨evt, rest, closed, chan, by simp⟩))
      · exact .inl (updated same)
    · cases stepped; exact .inl rfl

/-- Only the `cancel` of a channel's own id closes it. -/
theorem step_closes {b' : Broker} {a : Action} {obs : List Obs} (stepped : step b a = .ok (b', obs)) {i : Nat}
    (opened : b.isClosed i = false) (closed : b'.isClosed i = true) : a = .cancel i := by
  simp only [Broker.isClosed] at opened closed
  rcases step_chan stepped i with same | ⟨c, evt, chan, open₀, chan'⟩ | ⟨evt, rest, cl, chan, chan'⟩ |
      ⟨-, chan'⟩ | ⟨c, cancel, -, -⟩
  · rw [same] at closed; rw [closed] at opened; cases opened
  · simp [chan, chan', open₀] at closed
  · simp only [chan, chan'] at opened closed; rw [closed] at opened; cases opened
  · simp [chan'] at closed
  · exact cancel

/-- `Publish` takes the next id. -/
theorem Inv.publish (inv : Inv b tr) {g : Nat} (idle : b.publishers g = .idle) {evt : Event}
    (fresh : evt.id = b.nextID + 1) :
    Inv { b with nextID := b.nextID + 1, publishers := Function.update b.publishers g (.assigned evt) }
      (tr ++ [.published evt.id]) := by
  have stale : ∀ i, .delivered evt.id i ∉ tr ∧ .returned evt.id ∉ tr := fun i =>
    ⟨fun held => by have := inv.trace_ids_le _ held _ rfl; omega,
     fun held => by have := inv.trace_ids_le _ held _ rfl; omega⟩
  have other {g' : Nat} {e : Event} (holds : (b.publishers g').event? = some e) : g' ≠ g ∧ e.id ≠ evt.id :=
    ⟨fun same => by simp [same, idle, Publisher.event?] at holds, by have := inv.ids_le g' e holds; omega⟩
  refine {
    readers_nodup := inv.readers_nodup
    readers_iff := fun g' => ?readers_iff
    sending_subs := fun g' e rest sending => ?sending_subs
    subs_nodup := inv.subs_nodup
    subs_iff := inv.subs_iff
    fresh_chan := inv.fresh_chan
    bounded := inv.bounded
    ids_le := fun g' e holds => ?ids_le
    ids_distinct := fun g₁ g₂ e₁ e₂ h₁ h₂ same => ?ids_distinct
    trace_ids_le := fun o held e found => ?trace_ids_le
    subscribed_iff := fun i => by simpa using inv.subscribed_iff i
    closed_iff := fun i => by simpa using inv.closed_iff i
    fifo := fun i => by simpa [deliveredOn, receivedOn, Broker.queued] using inv.fifo i
    holder_published := fun g' e holds => ?holder_published
    assigned_fresh := fun g' e assigned i => ?assigned_fresh
    sending_fresh := fun g' e rest sending i mem => ?sending_fresh
    history := inv.history.snoc fun i => (stale i).1 }
  all_goals dsimp only at *
  case readers_iff =>
    rw [inv.readers_iff]
    by_cases same : g' = g
    · subst same; simp [idle, Publisher.isSending]
    · rw [Function.update_noteq same]
  case sending_subs =>
    by_cases same : g' = g
    · subst same; simp at sending
    · exact inv.sending_subs g' e rest (by rwa [Function.update_noteq same] at sending)
  case ids_le =>
    by_cases same : g' = g
    · subst same
      simp only [Function.update_same, Publisher.event?, Option.some.injEq] at holds
      subst holds; omega
    · have := inv.ids_le g' e (by rwa [Function.update_noteq same] at holds); omega
  case ids_distinct =>
    by_cases s₁ : g₁ = g <;> by_cases s₂ : g₂ = g
    · rw [s₁, s₂]
    · subst s₁
      simp only [Function.update_same, Publisher.event?, Option.some.injEq] at h₁
      rw [Function.update_noteq s₂] at h₂
      exact absurd (h₁ ▸ same).symm (other h₂).2
    · subst s₂
      simp only [Function.update_same, Publisher.event?, Option.some.injEq] at h₂
      rw [Function.update_noteq s₁] at h₁
      exact absurd (h₂ ▸ same) (other h₁).2
    · rw [Function.update_noteq s₁] at h₁
      rw [Function.update_noteq s₂] at h₂
      exact inv.ids_distinct g₁ g₂ e₁ e₂ h₁ h₂ same
  case trace_ids_le =>
    rcases List.mem_append.mp held with held | held
    · have := inv.trace_ids_le o held e found; omega
    · simp only [List.mem_singleton] at held
      subst held
      simp only [Obs.eventId, Option.some.injEq] at found
      omega
  case holder_published =>
    by_cases same : g' = g
    · subst same
      simp only [Function.update_same, Publisher.event?, Option.some.injEq] at holds
      subst holds
      simp [(stale 0).2]
    · have ⟨published, returned⟩ := inv.holder_published g' e (by rwa [Function.update_noteq same] at holds)
      simp [published, returned]
  case assigned_fresh =>
    by_cases same : g' = g
    · subst same
      simp only [Function.update_same, Publisher.assigned.injEq] at assigned
      subst assigned
      simp [(stale i).1]
    · simpa using inv.assigned_fresh g' e (by rwa [Function.update_noteq same] at assigned) i
  case sending_fresh =>
    by_cases same : g' = g
    · subst same; simp at sending
    · simpa using inv.sending_fresh g' e rest (by rwa [Function.update_noteq same] at sending) i mem
/-- `RLock`: the publisher enters its loop with the map's keys in some order. -/
theorem Inv.rlock (inv : Inv b tr) {g : Nat} {evt : Event} (assigned : b.publishers g = .assigned evt)
    {order : List Nat} (perm : order.Perm b.subs) :
    Inv { b with readers := g :: b.readers, publishers := Function.update b.publishers g (.sending evt order) } tr := by
  have event (g' : Nat) : (Function.update b.publishers g (.sending evt order) g').event? = (b.publishers g').event? := by
    by_cases same : g' = g
    · subst same; simp [assigned, Publisher.event?]
    · rw [Function.update_noteq same]
  have reader : g ∉ b.readers := by simp [inv.readers_iff, assigned, Publisher.isSending]
  refine {
    readers_nodup := List.nodup_cons.mpr ⟨reader, inv.readers_nodup⟩
    readers_iff := fun g' => ?readers_iff
    sending_subs := fun g' e rest sending => ?sending_subs
    subs_nodup := inv.subs_nodup
    subs_iff := inv.subs_iff
    fresh_chan := inv.fresh_chan
    bounded := inv.bounded
    ids_le := fun g' e => event g' ▸ inv.ids_le g' e
    ids_distinct := fun g₁ g₂ e₁ e₂ => event g₁ ▸ event g₂ ▸ inv.ids_distinct g₁ g₂ e₁ e₂
    trace_ids_le := inv.trace_ids_le
    subscribed_iff := inv.subscribed_iff
    closed_iff := inv.closed_iff
    fifo := inv.fifo
    holder_published := fun g' e => event g' ▸ inv.holder_published g' e
    assigned_fresh := fun g' e assigned' => ?assigned_fresh
    sending_fresh := fun g' e rest sending => ?sending_fresh
    history := inv.history }
  all_goals dsimp only at *
  case readers_iff =>
    by_cases same : g' = g
    · subst same; simp [Publisher.isSending]
    · rw [Function.update_noteq same, List.mem_cons, inv.readers_iff]; simp [same]
  case sending_subs =>
    by_cases same : g' = g
    · subst same
      simp only [Function.update_same, Publisher.sending.injEq] at sending
      obtain ⟨rfl, rfl⟩ := sending
      exact ⟨perm.nodup_iff.mpr inv.subs_nodup, fun i held => perm.subset held⟩
    · exact inv.sending_subs g' e rest (by rwa [Function.update_noteq same] at sending)
  case assigned_fresh =>
    by_cases same : g' = g
    · subst same; simp at assigned'
    · exact inv.assigned_fresh g' e (by rwa [Function.update_noteq same] at assigned')
  case sending_fresh =>
    by_cases same : g' = g
    · subst same
      simp only [Function.update_same, Publisher.sending.injEq] at sending
      obtain ⟨rfl, rfl⟩ := sending
      exact fun i _ => inv.assigned_fresh _ _ assigned i
    · exact inv.sending_fresh g' e rest (by rwa [Function.update_noteq same] at sending)
/-- A send in the loop that finds room delivers the event to that channel only. -/
theorem Inv.deliver (inv : Inv b tr) {g i : Nat} {evt : Event} {rest : List Nat}
    (sending : b.publishers g = .sending evt (i :: rest)) {c : Channel} (chan : b.chans i = some c)
    (room : c.buffer.length < capacity) :
    Inv { b with
        publishers := Function.update b.publishers g (.sending evt rest)
        chans := Function.update b.chans i (some { c with buffer := c.buffer ++ [evt] }) }
      (tr ++ [.delivered evt.id i]) := by
  have event (g' : Nat) : (Function.update b.publishers g (.sending evt rest) g').event? = (b.publishers g').event? := by
    by_cases same : g' = g
    · subst same; simp [sending, Publisher.event?]
    · rw [Function.update_noteq same]
  have holds : (b.publishers g).event? = some evt := by simp [sending, Publisher.event?]
  have ⟨nodup, subscribed⟩ := inv.sending_subs g evt (i :: rest) sending
  have ⟨head_fresh, rest_nodup⟩ := List.nodup_cons.mp nodup
  have opened : c.closed = false := by
    obtain ⟨c', chan', opened⟩ := (inv.subs_iff i).mp (subscribed i (List.mem_cons_self _ _))
    rw [chan] at chan'; cases chan'; exact opened
  have other {g' : Nat} {e : Event} (holds' : (b.publishers g').event? = some e) (ne : g' ≠ g) : e.id ≠ evt.id :=
    fun same => ne (inv.ids_distinct g' g e evt holds' holds same)
  have uncancelled : .cancelled i true ∉ tr := fun cancelled => by
    obtain ⟨c', chan', closed⟩ := (inv.closed_iff i).mp cancelled
    rw [chan] at chan'; cases chan'; simp [opened] at closed
  have known : i ≤ b.nextCh := Nat.le_of_not_lt fun fresh => by simp [inv.fresh_chan i fresh] at chan
  refine {
    readers_nodup := inv.readers_nodup
    readers_iff := fun g' => ?readers_iff
    sending_subs := fun g' e rest' sending' => ?sending_subs
    subs_nodup := inv.subs_nodup
    subs_iff := fun j => ?subs_iff
    fresh_chan := fun j fresh => ?fresh_chan
    bounded := fun j c' chan' => ?bounded
    ids_le := fun g' e => event g' ▸ inv.ids_le g' e
    ids_distinct := fun g₁ g₂ e₁ e₂ => event g₁ ▸ event g₂ ▸ inv.ids_distinct g₁ g₂ e₁ e₂
    trace_ids_le := fun o held e found => ?trace_ids_le
    subscribed_iff := fun j => ?subscribed_iff
    closed_iff := fun j => ?closed_iff
    fifo := fun j => ?fifo
    holder_published := fun g' e holds' => ?holder_published
    assigned_fresh := fun g' e assigned' j => ?assigned_fresh
    sending_fresh := fun g' e rest' sending' j mem => ?sending_fresh
    history := inv.history.snoc ⟨inv.sending_fresh g evt _ sending i (List.mem_cons_self _ _),
      uncancelled,
      (inv.holder_published g evt holds).1, (inv.subscribed_iff i).mpr (by simp [chan]),
      (inv.holder_published g evt holds).2⟩ }
  all_goals dsimp only at *
  case readers_iff =>
    rw [inv.readers_iff]
    by_cases same : g' = g
    · subst same; simp [sending, Publisher.isSending]
    · rw [Function.update_noteq same]
  case sending_subs =>
    by_cases same : g' = g
    · subst same
      simp only [Function.update_same, Publisher.sending.injEq] at sending'
      obtain ⟨rfl, rfl⟩ := sending'
      exact ⟨rest_nodup, fun j held => subscribed j (List.mem_cons_of_mem _ held)⟩
    · exact inv.sending_subs g' e rest' (by rwa [Function.update_noteq same] at sending')
  case subs_iff =>
    by_cases same : j = i
    · subst same; simp [opened, subscribed j (List.mem_cons_self _ _)]
    · rw [Function.update_noteq same]; exact inv.subs_iff j
  case fresh_chan => rw [Function.update_noteq (by omega)]; exact inv.fresh_chan j fresh
  case bounded =>
    by_cases same : j = i
    · subst same
      simp only [Function.update_same, Option.some.injEq] at chan'
      subst chan'
      simp only [List.length_append, List.length_singleton]; omega
    · exact inv.bounded j c' (by rwa [Function.update_noteq same] at chan')
  case trace_ids_le =>
    rcases List.mem_append.mp held with held | held
    · exact inv.trace_ids_le o held e found
    · rw [List.mem_singleton.mp held] at found
      simp only [Obs.eventId, Option.some.injEq] at found
      exact found ▸ inv.ids_le g evt holds
  case subscribed_iff =>
    by_cases same : j = i
    · subst same; simpa [chan] using (inv.subscribed_iff j).mpr (by simp [chan])
    · simpa [Function.update_noteq same] using inv.subscribed_iff j
  case closed_iff =>
    by_cases same : j = i
    · subst same; simp [opened, uncancelled]
    · simpa [Function.update_noteq same] using inv.closed_iff j
  case fifo =>
    by_cases same : j = i
    · subst same
      have := inv.fifo j
      simp only [Broker.queued, chan] at this
      simp [Broker.queued, deliveredOn, receivedOn, ← this]
    · simpa [Broker.queued, Function.update_noteq same, deliveredOn, receivedOn, Ne.symm same] using inv.fifo j
  case holder_published =>
    have ⟨published, returned⟩ := inv.holder_published g' e (event g' ▸ holds')
    simp [published, returned]
  case assigned_fresh =>
    have ne : g' ≠ g := by
      rintro rfl
      simp at assigned'
    rw [Function.update_noteq ne] at assigned'
    have := @other g' e (by simp [assigned', Publisher.event?]) ne
    simpa [this] using inv.assigned_fresh g' e assigned' j
  case sending_fresh =>
    by_cases same : g' = g
    · subst same
      simp only [Function.update_same, Publisher.sending.injEq] at sending'
      obtain ⟨rfl, rfl⟩ := sending'
      have : j ≠ i := fun same => head_fresh (same ▸ mem)
      simpa [this] using inv.sending_fresh _ _ _ sending j (List.mem_cons_of_mem _ mem)
    · rw [Function.update_noteq same] at sending'
      have := @other g' e (by simp [sending', Publisher.event?]) same
      simpa [this] using inv.sending_fresh g' e rest' sending' j mem
/-- A send in the loop that finds the channel full, or no channel, drops the event for it. -/
theorem Inv.drop (inv : Inv b tr) {g i : Nat} {evt : Event} {rest : List Nat}
    (sending : b.publishers g = .sending evt (i :: rest)) :
    Inv { b with publishers := Function.update b.publishers g (.sending evt rest) } (tr ++ [.dropped evt.id i]) := by
  have event (g' : Nat) : (Function.update b.publishers g (.sending evt rest) g').event? = (b.publishers g').event? := by
    by_cases same : g' = g
    · subst same; simp [sending, Publisher.event?]
    · rw [Function.update_noteq same]
  have ⟨nodup, subscribed⟩ := inv.sending_subs g evt (i :: rest) sending
  refine {
    readers_nodup := inv.readers_nodup
    readers_iff := fun g' => ?readers_iff
    sending_subs := fun g' e rest' sending' => ?sending_subs
    subs_nodup := inv.subs_nodup
    subs_iff := inv.subs_iff
    fresh_chan := inv.fresh_chan
    bounded := inv.bounded
    ids_le := fun g' e => event g' ▸ inv.ids_le g' e
    ids_distinct := fun g₁ g₂ e₁ e₂ => event g₁ ▸ event g₂ ▸ inv.ids_distinct g₁ g₂ e₁ e₂
    trace_ids_le := fun o held e found => ?trace_ids_le
    subscribed_iff := fun j => by simpa using inv.subscribed_iff j
    closed_iff := fun j => by simpa using inv.closed_iff j
    fifo := fun j => by simpa [deliveredOn, receivedOn] using inv.fifo j
    holder_published := fun g' e holds => by
      simpa using inv.holder_published g' e (event g' ▸ holds)
    assigned_fresh := fun g' e assigned' j => ?assigned_fresh
    sending_fresh := fun g' e rest' sending' j mem => ?sending_fresh
    history := inv.history.snoc trivial }
  all_goals dsimp only at *
  case readers_iff =>
    rw [inv.readers_iff]
    by_cases same : g' = g
    · subst same; simp [sending, Publisher.isSending]
    · rw [Function.update_noteq same]
  case sending_subs =>
    by_cases same : g' = g
    · subst same
      simp only [Function.update_same, Publisher.sending.injEq] at sending'
      obtain ⟨rfl, rfl⟩ := sending'
      exact ⟨(List.nodup_cons.mp nodup).2, fun j held => subscribed j (List.mem_cons_of_mem _ held)⟩
    · exact inv.sending_subs g' e rest' (by rwa [Function.update_noteq same] at sending')
  case trace_ids_le =>
    rcases List.mem_append.mp held with held | held
    · exact inv.trace_ids_le o held e found
    · rw [List.mem_singleton.mp held] at found
      simp only [Obs.eventId, Option.some.injEq] at found
      exact found ▸ inv.ids_le g evt (by simp [sending, Publisher.event?])
  case assigned_fresh =>
    have ne : g' ≠ g := by
      rintro rfl
      simp at assigned'
    simpa using inv.assigned_fresh g' e (by rwa [Function.update_noteq ne] at assigned') j
  case sending_fresh =>
    by_cases same : g' = g
    · subst same
      simp only [Function.update_same, Publisher.sending.injEq] at sending'
      obtain ⟨rfl, rfl⟩ := sending'
      simpa using inv.sending_fresh _ _ _ sending j (List.mem_cons_of_mem _ mem)
    · simpa using inv.sending_fresh g' e rest' (by rwa [Function.update_noteq same] at sending') j mem

/-- The deferred `RUnlock`: the publisher leaves the loop and `Publish` returns. -/
theorem Inv.runlock (inv : Inv b tr) {g : Nat} {evt : Event} (sending : b.publishers g = .sending evt []) :
    Inv { b with readers := b.readers.erase g, publishers := Function.update b.publishers g .idle }
      (tr ++ [.returned evt.id]) := by
  have holds : (b.publishers g).event? = some evt := by simp [sending, Publisher.event?]
  have event {g' : Nat} {e : Event} (holds' : (Function.update b.publishers g .idle g').event? = some e) :
      g' ≠ g ∧ (b.publishers g').event? = some e := by
    by_cases same : g' = g
    · subst same; simp [Publisher.event?] at holds'
    · exact ⟨same, by rwa [Function.update_noteq same] at holds'⟩
  have other {g' : Nat} {e : Event} (holds' : (b.publishers g').event? = some e) (ne : g' ≠ g) : e.id ≠ evt.id :=
    fun same => ne (inv.ids_distinct g' g e evt holds' holds same)
  refine {
    readers_nodup := inv.readers_nodup.erase g
    readers_iff := fun g' => ?readers_iff
    sending_subs := fun g' e rest' sending' => ?sending_subs
    subs_nodup := inv.subs_nodup
    subs_iff := inv.subs_iff
    fresh_chan := inv.fresh_chan
    bounded := inv.bounded
    ids_le := fun g' e holds' => inv.ids_le g' e (event holds').2
    ids_distinct := fun g₁ g₂ e₁ e₂ h₁ h₂ => inv.ids_distinct g₁ g₂ e₁ e₂ (event h₁).2 (event h₂).2
    trace_ids_le := fun o held e found => ?trace_ids_le
    subscribed_iff := fun j => by simpa using inv.subscribed_iff j
    closed_iff := fun j => by simpa using inv.closed_iff j
    fifo := fun j => by simpa [deliveredOn, receivedOn] using inv.fifo j
    holder_published := fun g' e holds' => ?holder_published
    assigned_fresh := fun g' e assigned' j => ?assigned_fresh
    sending_fresh := fun g' e rest' sending' j mem => ?sending_fresh
    history := inv.history.snoc trivial }
  all_goals dsimp only at *
  case readers_iff =>
    by_cases same : g' = g
    · subst same; simp [inv.readers_nodup.mem_erase_iff, Publisher.isSending]
    · rw [Function.update_noteq same, inv.readers_nodup.mem_erase_iff, inv.readers_iff]; simp [same]
  case sending_subs =>
    have ne : g' ≠ g := by
      rintro rfl
      simp at sending'
    exact inv.sending_subs g' e rest' (by rwa [Function.update_noteq ne] at sending')
  case trace_ids_le =>
    rcases List.mem_append.mp held with held | held
    · exact inv.trace_ids_le o held e found
    · rw [List.mem_singleton.mp held] at found
      simp only [Obs.eventId, Option.some.injEq] at found
      exact found ▸ inv.ids_le g evt holds
  case holder_published =>
    have ⟨ne, holds'⟩ := event holds'
    have ⟨published, returned⟩ := inv.holder_published g' e holds'
    simp [published, returned, other holds' ne]
  case assigned_fresh =>
    have ne : g' ≠ g := by
      rintro rfl
      simp at assigned'
    simpa using inv.assigned_fresh g' e (by rwa [Function.update_noteq ne] at assigned') j
  case sending_fresh =>
    have ne : g' ≠ g := by
      rintro rfl
      simp at sending'
    simpa using inv.sending_fresh g' e rest' (by rwa [Function.update_noteq ne] at sending') j mem
/-- With the write lock free of readers, no publisher is in its loop. -/
theorem Inv.not_sending (inv : Inv b tr) (free : b.readers = []) (g : Nat) (evt : Event) (rest : List Nat) :
    b.publishers g ≠ .sending evt rest := fun sending => by
  have := (inv.readers_iff g).mpr (by simp [sending, Publisher.isSending])
  simp [free] at this

/-- `Subscribe`: a fresh id and an empty open channel in the map. -/
theorem Inv.subscribe (inv : Inv b tr) (free : b.readers = []) :
    Inv { b with
        nextCh := b.nextCh + 1
        subs := b.subs ++ [b.nextCh + 1]
        chans := Function.update b.chans (b.nextCh + 1) (some ⟨[], false⟩) }
      (tr ++ [.subscribed (b.nextCh + 1)]) := by
  have unused : b.chans (b.nextCh + 1) = none := inv.fresh_chan _ (Nat.lt_succ_self _)
  have unsubscribed : b.nextCh + 1 ∉ b.subs := fun held => by
    obtain ⟨c, chan, -⟩ := (inv.subs_iff _).mp held
    simp [unused] at chan
  refine {
    readers_nodup := inv.readers_nodup
    readers_iff := inv.readers_iff
    sending_subs := fun g e rest sending => absurd sending (inv.not_sending free g e rest)
    subs_nodup := List.nodup_append.mpr ⟨inv.subs_nodup, List.nodup_singleton _,
      List.disjoint_singleton.mpr unsubscribed⟩
    subs_iff := fun j => ?subs_iff
    fresh_chan := fun j fresh => ?fresh_chan
    bounded := fun j c chan => ?bounded
    ids_le := inv.ids_le
    ids_distinct := inv.ids_distinct
    trace_ids_le := fun o held e found => ?trace_ids_le
    subscribed_iff := fun j => ?subscribed_iff
    closed_iff := fun j => ?closed_iff
    fifo := fun j => ?fifo
    holder_published := fun g e holds => by simpa using inv.holder_published g e holds
    assigned_fresh := fun g e assigned j => by simpa using inv.assigned_fresh g e assigned j
    sending_fresh := fun g e rest sending => absurd sending (inv.not_sending free g e rest)
    history := inv.history.snoc trivial }
  all_goals dsimp only at *
  case subs_iff =>
    by_cases same : j = b.nextCh + 1
    · subst same; simp
    · simpa [Function.update_noteq same, same] using inv.subs_iff j
  case fresh_chan => rw [Function.update_noteq (by omega)]; exact inv.fresh_chan j (by omega)
  case bounded =>
    by_cases same : j = b.nextCh + 1
    · subst same; simp at chan; simp [← chan]
    · exact inv.bounded j c (by rwa [Function.update_noteq same] at chan)
  case trace_ids_le =>
    rcases List.mem_append.mp held with held | held
    · exact inv.trace_ids_le o held e found
    · simp [List.mem_singleton.mp held, Obs.eventId] at found
  case subscribed_iff =>
    by_cases same : j = b.nextCh + 1
    · subst same; simp
    · simpa [Function.update_noteq same, same] using inv.subscribed_iff j
  case closed_iff =>
    by_cases same : j = b.nextCh + 1
    · subst same
      simp only [List.mem_append, List.mem_singleton, Function.update_same, Option.some.injEq, reduceCtorEq, or_false]
      simpa [unused] using inv.closed_iff (b.nextCh + 1)
    · simpa [Function.update_noteq same] using inv.closed_iff j
  case fifo =>
    by_cases same : j = b.nextCh + 1
    · subst same
      have fresh : deliveredIds tr (b.nextCh + 1) = [] := List.eq_nil_iff_forall_not_mem.mpr fun e held =>
        (inv.subscribed_iff _).mp (inv.history.subscribed_first _ e (mem_deliveredIds.mp held)).left_mem unused
      have := inv.fifo (b.nextCh + 1)
      simp only [Broker.queued, unused, List.append_nil, fresh] at this
      simp [Broker.queued, deliveredOn, receivedOn, this, fresh]
    · simpa [Broker.queued, Function.update_noteq same, deliveredOn, receivedOn] using inv.fifo j
/-- A `cancel` that finds its id in the map deletes it and closes the channel. -/
theorem Inv.close (inv : Inv b tr) (free : b.readers = []) {i : Nat} {c : Channel} (chan : b.chans i = some c)
    (opened : c.closed = false) :
    Inv { b with
        subs := b.subs.erase i
        chans := Function.update b.chans i (some { c with closed := true }) }
      (tr ++ [.cancelled i true]) := by
  have uncancelled : .cancelled i true ∉ tr := fun cancelled => by
    obtain ⟨c', chan', closed⟩ := (inv.closed_iff i).mp cancelled
    rw [chan] at chan'; cases chan'; simp [opened] at closed
  have known : i ≤ b.nextCh := Nat.le_of_not_lt fun fresh => by simp [inv.fresh_chan i fresh] at chan
  refine {
    readers_nodup := inv.readers_nodup
    readers_iff := inv.readers_iff
    sending_subs := fun g e rest sending => absurd sending (inv.not_sending free g e rest)
    subs_nodup := inv.subs_nodup.erase i
    subs_iff := fun j => ?subs_iff
    fresh_chan := fun j fresh => ?fresh_chan
    bounded := fun j c' chan' => ?bounded
    ids_le := inv.ids_le
    ids_distinct := inv.ids_distinct
    trace_ids_le := fun o held e found => ?trace_ids_le
    subscribed_iff := fun j => ?subscribed_iff
    closed_iff := fun j => ?closed_iff
    fifo := fun j => ?fifo
    holder_published := fun g e holds => by simpa using inv.holder_published g e holds
    assigned_fresh := fun g e assigned j => by simpa using inv.assigned_fresh g e assigned j
    sending_fresh := fun g e rest sending => absurd sending (inv.not_sending free g e rest)
    history := inv.history.snoc uncancelled }
  all_goals dsimp only at *
  case fresh_chan => rw [Function.update_noteq (by omega)]; exact inv.fresh_chan j fresh
  case subs_iff =>
    rw [inv.subs_nodup.mem_erase_iff]
    by_cases same : j = i
    · subst same; simp
    · simpa [Function.update_noteq same, same] using inv.subs_iff j
  case bounded =>
    by_cases same : j = i
    · subst same
      simp only [Function.update_same, Option.some.injEq] at chan'
      exact chan' ▸ inv.bounded j c chan
    · exact inv.bounded j c' (by rwa [Function.update_noteq same] at chan')
  case trace_ids_le =>
    rcases List.mem_append.mp held with held | held
    · exact inv.trace_ids_le o held e found
    · simp [List.mem_singleton.mp held, Obs.eventId] at found
  case subscribed_iff =>
    by_cases same : j = i
    · subst same; simpa [chan] using inv.subscribed_iff j
    · simpa [Function.update_noteq same] using inv.subscribed_iff j
  case closed_iff =>
    by_cases same : j = i
    · subst same; simp
    · simpa [Function.update_noteq same, same] using inv.closed_iff j
  case fifo =>
    by_cases same : j = i
    · subst same; simpa [Broker.queued, chan, deliveredOn, receivedOn] using inv.fifo j
    · simpa [Broker.queued, Function.update_noteq same, deliveredOn, receivedOn] using inv.fifo j

/-- A `cancel` that does not find its id in the map does nothing. -/
theorem Inv.noop (inv : Inv b tr) {i : Nat} (absent : i ∉ b.subs) : Inv b (tr ++ [.cancelled i false]) := by
  refine { inv with
    trace_ids_le := fun o held e found => ?trace_ids_le
    subscribed_iff := fun j => by simpa using inv.subscribed_iff j
    closed_iff := fun j => by simpa using inv.closed_iff j
    fifo := fun j => by simpa [deliveredOn, receivedOn] using inv.fifo j
    holder_published := fun g e holds => by simpa using inv.holder_published g e holds
    assigned_fresh := fun g e assigned j => by simpa using inv.assigned_fresh g e assigned j
    sending_fresh := fun g e rest sending j mem => by simpa using inv.sending_fresh g e rest sending j mem
    history := inv.history.snoc fun subscribed => ?closed }
  case trace_ids_le =>
    rcases List.mem_append.mp held with held | held
    · exact inv.trace_ids_le o held e found
    · simp [List.mem_singleton.mp held, Obs.eventId] at found
  case closed =>
    obtain ⟨c, chan⟩ := Option.ne_none_iff_exists'.mp ((inv.subscribed_iff i).mp subscribed)
    refine (inv.closed_iff i).mpr ⟨c, chan, ?_⟩
    by_contra opened
    exact absent ((inv.subs_iff i).mpr ⟨c, chan, by simpa using opened⟩)

/-- The subscriber reads the oldest event of its channel. -/
theorem Inv.receive (inv : Inv b tr) {i : Nat} {evt : Event} {rest : List Event} {closed : Bool}
    (chan : b.chans i = some ⟨evt :: rest, closed⟩) :
    Inv { b with chans := Function.update b.chans i (some ⟨rest, closed⟩) } (tr ++ [.received evt.id i]) := by
  have known : i ≤ b.nextCh := Nat.le_of_not_lt fun fresh => by simp [inv.fresh_chan i fresh] at chan
  have delivered : .delivered evt.id i ∈ tr := by
    rw [← mem_deliveredIds, ← inv.fifo i]
    simp [Broker.queued, chan]
  refine {
    readers_nodup := inv.readers_nodup
    readers_iff := inv.readers_iff
    sending_subs := inv.sending_subs
    subs_nodup := inv.subs_nodup
    subs_iff := fun j => ?subs_iff
    fresh_chan := fun j fresh => ?fresh_chan
    bounded := fun j c' chan' => ?bounded
    ids_le := inv.ids_le
    ids_distinct := inv.ids_distinct
    trace_ids_le := fun o held e found => ?trace_ids_le
    subscribed_iff := fun j => ?subscribed_iff
    closed_iff := fun j => ?closed_iff
    fifo := fun j => ?fifo
    holder_published := fun g e holds => by simpa using inv.holder_published g e holds
    assigned_fresh := fun g e assigned j => by simpa using inv.assigned_fresh g e assigned j
    sending_fresh := fun g e rest sending j mem => by simpa using inv.sending_fresh g e rest sending j mem
    history := inv.history.snoc trivial }
  all_goals dsimp only at *
  case fresh_chan => rw [Function.update_noteq (by omega)]; exact inv.fresh_chan j fresh
  case subs_iff =>
    by_cases same : j = i
    · subst same; simpa [chan] using inv.subs_iff j
    · simpa [Function.update_noteq same] using inv.subs_iff j
  case bounded =>
    by_cases same : j = i
    · subst same
      simp only [Function.update_same, Option.some.injEq] at chan'
      have := inv.bounded j _ chan
      simp only [List.length_cons] at this
      rw [← chan']; simp only; omega
    · exact inv.bounded j c' (by rwa [Function.update_noteq same] at chan')
  case trace_ids_le =>
    rcases List.mem_append.mp held with held | held
    · exact inv.trace_ids_le o held e found
    · simp only [List.mem_singleton.mp held, Obs.eventId, Option.some.injEq] at found
      exact found ▸ inv.trace_ids_le _ delivered evt.id rfl
  case subscribed_iff =>
    by_cases same : j = i
    · subst same; simpa [chan] using inv.subscribed_iff j
    · simpa [Function.update_noteq same] using inv.subscribed_iff j
  case closed_iff =>
    by_cases same : j = i
    · subst same; simpa [chan] using inv.closed_iff j
    · simpa [Function.update_noteq same] using inv.closed_iff j
  case fifo =>
    by_cases same : j = i
    · subst same; simpa [Broker.queued, chan, deliveredOn, receivedOn] using inv.fifo j
    · simpa [Broker.queued, Function.update_noteq same, deliveredOn, receivedOn, Ne.symm same] using inv.fifo j
theorem Inv.stutter (inv : Inv b tr) : Inv b (tr ++ []) := by rwa [List.append_nil]

/-- No step of a broker that keeps the invariant panics, and every step keeps it. -/
theorem Inv.step (inv : Inv b tr) (a : Action) : ∃ b' obs, step b a = .ok (b', obs) ∧ Inv b' (tr ++ obs) := by
  cases a with
  | publish g evt now =>
    cases stage : b.publishers g with
    | idle =>
      exact ⟨_, _, by simp only [Realtime.step, stage], inv.publish stage (show
        ({ evt with id := b.nextID + 1, atTime := if evt.atTime.isZero then now else evt.atTime } : Event).id =
          b.nextID + 1 from rfl)⟩
    | assigned e => exact ⟨b, [], by simp only [Realtime.step, stage], inv.stutter⟩
    | sending e rest => exact ⟨b, [], by simp only [Realtime.step, stage], inv.stutter⟩
  | rlock g order =>
    cases stage : b.publishers g with
    | assigned evt =>
      by_cases perm : order.isPerm b.subs
      · exact ⟨_, _, by simp only [Realtime.step, stage, perm, if_true], inv.rlock stage (List.isPerm_iff.mp perm) |>.stutter⟩
      · exact ⟨b, [], by simp only [Realtime.step, stage, perm, if_false, Bool.false_eq_true], inv.stutter⟩
    | idle => exact ⟨b, [], by simp only [Realtime.step, stage], inv.stutter⟩
    | sending e rest => exact ⟨b, [], by simp only [Realtime.step, stage], inv.stutter⟩
  | send g =>
    cases stage : b.publishers g with
    | sending evt rest =>
      cases rest with
      | nil => exact ⟨b, [], by simp only [Realtime.step, stage], inv.stutter⟩
      | cons i rest =>
        obtain ⟨c, chan, opened⟩ :=
          (inv.subs_iff i).mp ((inv.sending_subs g evt _ stage).2 i (List.mem_cons_self _ _))
        by_cases room : c.buffer.length < capacity
        · exact ⟨_, _, by simp only [Realtime.step, stage, chan, opened, room, if_true, if_false, Bool.false_eq_true],
            inv.deliver stage chan room⟩
        · exact ⟨_, _, by simp only [Realtime.step, stage, chan, opened, room, if_false, Bool.false_eq_true],
            inv.drop stage⟩
    | idle => exact ⟨b, [], by simp only [Realtime.step, stage], inv.stutter⟩
    | assigned e => exact ⟨b, [], by simp only [Realtime.step, stage], inv.stutter⟩
  | runlock g =>
    cases stage : b.publishers g with
    | sending evt rest =>
      cases rest with
      | nil => exact ⟨_, _, by simp only [Realtime.step, stage], inv.runlock stage⟩
      | cons i rest => exact ⟨b, [], by simp only [Realtime.step, stage], inv.stutter⟩
    | idle => exact ⟨b, [], by simp only [Realtime.step, stage], inv.stutter⟩
    | assigned e => exact ⟨b, [], by simp only [Realtime.step, stage], inv.stutter⟩
  | subscribe =>
    by_cases free : b.readers = []
    · exact ⟨_, _, by simp only [Realtime.step, free, if_true], inv.subscribe free⟩
    · exact ⟨b, [], by simp only [Realtime.step, free, if_false], inv.stutter⟩
  | cancel i =>
    by_cases free : b.readers = []
    · by_cases held : i ∈ b.subs
      · obtain ⟨c, chan, opened⟩ := (inv.subs_iff i).mp held
        exact ⟨_, _, by simp only [Realtime.step, free, held, chan, opened, if_true, if_false, Bool.false_eq_true],
          inv.close free chan opened⟩
      · exact ⟨b, _, by simp only [Realtime.step, free, held, if_true, if_false], inv.noop held⟩
    · exact ⟨b, [], by simp only [Realtime.step, free, if_false], inv.stutter⟩
  | receive i =>
    cases chan : b.chans i with
    | none => exact ⟨b, [], by simp only [Realtime.step, chan], inv.stutter⟩
    | some c =>
      obtain ⟨buffer, closed⟩ := c
      cases buffer with
      | nil => exact ⟨b, [], by simp only [Realtime.step, chan], inv.stutter⟩
      | cons evt rest => exact ⟨_, _, by simp only [Realtime.step, chan], inv.receive chan⟩

/-- The run lemma: a run from a broker that keeps the invariant never panics and keeps it. -/
theorem Inv.run (inv : Inv b tr) (actions : List Action) :
    ∃ b' tr', run b actions = .ok (b', tr') ∧ Inv b' (tr ++ tr') := by
  induction actions generalizing b tr with
  | nil => exact ⟨b, [], rfl, inv.stutter⟩
  | cons a actions ih =>
    obtain ⟨b₁, obs, stepped, inv₁⟩ := inv.step a
    obtain ⟨b₂, rest, ran, inv₂⟩ := ih inv₁
    exact ⟨b₂, obs ++ rest, by simp only [Realtime.run, stepped, ran], by rwa [← List.append_assoc]⟩
/-- A send of the loop goes to an open channel and completes at once: it enqueues the event when
the channel has room and drops it otherwise, and it touches no other channel. -/
theorem Inv.send_completes (inv : Inv b tr) {g i : Nat} {evt : Event} {rest : List Nat}
    (sending : b.publishers g = .sending evt (i :: rest)) :
    ∃ c, b.chans i = some c ∧ c.closed = false ∧ Realtime.step b (.send g) = .ok
      (if c.buffer.length < capacity then
        ({ b with
          publishers := Function.update b.publishers g (.sending evt rest)
          chans := Function.update b.chans i (some { c with buffer := c.buffer ++ [evt] }) },
          [.delivered evt.id i])
      else ({ b with publishers := Function.update b.publishers g (.sending evt rest) }, [.dropped evt.id i])) := by
  obtain ⟨c, chan, opened⟩ := (inv.subs_iff i).mp ((inv.sending_subs g evt _ sending).2 i (List.mem_cons_self _ _))
  refine ⟨c, chan, opened, ?_⟩
  by_cases room : c.buffer.length < capacity
  · simp only [Realtime.step, sending, chan, opened, room, if_true, if_false, Bool.false_eq_true]
  · simp only [Realtime.step, sending, chan, opened, room, if_false, Bool.false_eq_true]

/-- A closed channel stays closed, and a step can only read from it. -/
theorem Inv.closed_step (inv : Inv b tr) {b' : Broker} {a : Action} {obs : List Obs}
    (stepped : Realtime.step b a = .ok (b', obs)) {i : Nat} {c : Channel} (chan : b.chans i = some c)
    (closed : c.closed = true) :
    ∃ c', b'.chans i = some c' ∧ c'.closed = true ∧ c'.buffer <:+ c.buffer := by
  rcases step_chan stepped i with same | ⟨c₀, evt, chan₀, open₀, -⟩ | ⟨evt, rest, cl, chan₀, chan'⟩ |
      ⟨fresh, -⟩ | ⟨c₀, -, chan₀, chan'⟩
  · exact ⟨c, same.trans chan, closed, List.suffix_refl _⟩
  · rw [chan] at chan₀; cases chan₀; simp [closed] at open₀
  · rw [chan] at chan₀; cases chan₀; exact ⟨_, chan', closed, List.suffix_cons evt rest⟩
  · simp [inv.fresh_chan i (by omega)] at chan
  · rw [chan] at chan₀; cases chan₀; exact ⟨_, chan', rfl, List.suffix_refl _⟩

/-- No run from a broker that keeps the invariant adds anything to a closed channel, and the
channel stays closed. -/
theorem Inv.run_closed (inv : Inv b tr) {i : Nat} {c : Channel} (chan : b.chans i = some c)
    (closed : c.closed = true) (post : List Action) :
    ∃ b' tr', Realtime.run b post = .ok (b', tr') ∧ ∃ c', b'.chans i = some c' ∧ c'.closed = true ∧
      c'.buffer <:+ c.buffer := by
  induction post generalizing b tr c with
  | nil => exact ⟨b, [], rfl, c, chan, closed, List.suffix_refl _⟩
  | cons a post ih =>
    obtain ⟨b₁, obs, stepped, inv₁⟩ := inv.step a
    obtain ⟨c₁, chan₁, closed₁, suffix₁⟩ := inv.closed_step stepped chan closed
    obtain ⟨b₂, rest, ran, c₂, chan₂, closed₂, suffix₂⟩ := ih inv₁ chan₁ closed₁
    exact ⟨b₂, obs ++ rest, by simp only [Realtime.run, stepped, ran], c₂, chan₂, closed₂, suffix₂.trans suffix₁⟩

/-- Once a channel is closed, its `cancel` leaves the broker as it is. -/
theorem Inv.cancel_noop (inv : Inv b tr) {i : Nat} (closed : b.isClosed i = true) :
    ∃ obs, Realtime.step b (.cancel i) = .ok (b, obs) := by
  have absent : i ∉ b.subs := fun held => by
    obtain ⟨c, chan, opened⟩ := (inv.subs_iff i).mp held
    simp [Broker.isClosed, chan, opened] at closed
  by_cases free : b.readers = []
  · exact ⟨[.cancelled i false], by simp only [Realtime.step, free, absent, if_true, if_false]⟩
  · exact ⟨[], by simp only [Realtime.step, free, if_false]⟩

/-- A `cancel` that takes the write lock while its id is in the map deletes the id and closes the
channel. -/
theorem Inv.cancel_closes (inv : Inv b tr) {i : Nat} (free : b.readers = []) (held : i ∈ b.subs) :
    ∃ b' obs, Realtime.step b (.cancel i) = .ok (b', obs) ∧ b'.isClosed i = true ∧ i ∉ b'.subs := by
  obtain ⟨c, chan, opened⟩ := (inv.subs_iff i).mp held
  exact ⟨{ b with subs := b.subs.erase i, chans := Function.update b.chans i (some { c with closed := true }) },
    [.cancelled i true], by simp only [Realtime.step, free, held, chan, opened, if_true, if_false, Bool.false_eq_true],
    by simp [Broker.isClosed], inv.subs_nodup.not_mem_erase⟩

end Steps

/-! ## Safety and order of every run -/

/-- Each subscriber reads the events delivered to its channel in the order they were sent and
each at most once, every one of them published, and sent while the channel was subscribed and
not cancelled; and if one `Publish` returned before another started, no subscriber reads the
second event before the first. -/
theorem delivery_order (actions : List Action) :
    ∃ b tr, run newBroker actions = .ok (b, tr) ∧ ∀ i,
      receivedIds tr i <+: deliveredIds tr i ∧ (deliveredIds tr i).Nodup ∧
      (∀ e ∈ deliveredIds tr i, Precedes tr (.published e) (.delivered e i) ∧
        Precedes tr (.subscribed i) (.delivered e i) ∧ ¬ Precedes tr (.cancelled i true) (.delivered e i)) ∧
      ∀ e₁ e₂, Precedes tr (.returned e₁) (.published e₂) → ¬ Precedes (receivedIds tr i) e₂ e₁ := by
  obtain ⟨b, tr, ran, inv⟩ := newBroker_inv.run actions
  rw [List.nil_append] at inv
  have head (i : Nat) : receivedIds tr i <+: deliveredIds tr i := ⟨b.queued i, inv.fifo i⟩
  refine ⟨b, tr, ran, fun i => ⟨head i, inv.history.delivered_nodup i, fun e held => ?_, fun e₁ e₂ order => ?_⟩⟩
  · have held := mem_deliveredIds.mp held
    exact ⟨inv.history.published_first i e held, inv.history.subscribed_first i e held,
      inv.history.no_delivery_after_cancel i e⟩
  · exact fun received => inv.history.realtime i e₁ e₂ order (received.trans (head i).sublist)

/-- Two goroutines publish concurrently: the first takes id 1, the second id 2, and the second
takes the read lock and sends first. The subscriber reads event 2 before event 1, although
neither `Publish` returned before the other started. -/
theorem concurrent_publishers_deliver_out_of_id_order :
    ∃ b tr, run newBroker [.subscribe, .publish 0 ⟨0, "run.started", Time.zero⟩ ⟨0⟩,
        .publish 1 ⟨0, "run.completed", Time.zero⟩ ⟨0⟩, .rlock 1 [1], .send 1, .runlock 1, .rlock 0 [1],
        .send 0, .runlock 0, .receive 1, .receive 1] = .ok (b, tr) ∧
      receivedIds tr 1 = [2, 1] :=
  ⟨_, _, rfl, rfl⟩

end Cronbat.Realtime
