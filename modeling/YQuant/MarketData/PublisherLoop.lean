/-
# The loop of the publisher, step by step

`MarketDataPublisher::run` takes an update from the queue the matcher writes, sends a copy on the
incremental stream, releases the slot, waits for room in the queue of the synthesizer, and only then
copies the slot once more.  By then the slot belongs to the producer again.

One step is one step of `LFQueue.lean` on either queue, or one access to the released slot.  The
matcher, the publisher and the synthesizer step in any order.  The second copy is the first one
because the slot released last is the one slot of the ring that the producer cannot reach
(`SpscState.Inv.contents` covers it): the writes of the matcher stay off it until the publisher
releases the next one.

So the source is right for a reason it does not state: it uses a pointer into a slot after it has
given the slot back, and the ring has one slot more than it lends out.  With another queue, or with
one more update taken in between, the copy could be of a later update.

What the synthesizer waits for is not modelled as time.  The publisher stays where it is until
there is room, the matcher may go on meanwhile, and the incremental stream is then ahead of the
other feed by the one update that the publisher has in hand.
-/
import YQuant.BoundedFifo

namespace YQuant

instance : Inhabited MatchingEngineMarketUpdate := ⟨⟨.invalid, 0, 0, .unset, 0, 0, 0⟩⟩

instance : Inhabited MarketDataPublisherMarketUpdate := ⟨⟨0, default⟩⟩

/-! ## 1. The loop -/

/-- Where the publisher stands.  `index` is the slot that `market_update` points to. -/
inductive PublisherAt where
  /-- In `GetNextToRead`, or about to call it. -/
  | reading
  /-- In `size()`, with a slot. -/
  | sizing
  | sending
  /-- In `UpdateReadIndex`. -/
  | releasing (index : Nat)
  /-- In `GetNextToWriteTo`, or about to copy `*market_update`. -/
  | forwarding (index : Nat)
  /-- The copy is made; it is written to the slot and published. -/
  | storing (update : MatchingEngineMarketUpdate)
deriving DecidableEq, Repr

structure PublisherState where
  outgoingMdUpdates : SpscState MatchingEngineMarketUpdate
  snapshotMdUpdates : SpscState MarketDataPublisherMarketUpdate
  publisher : PublisherAt
  nextIncSeqNum : Nat
  /-- The incremental stream. -/
  incremental : List MarketDataPublisherMarketUpdate

inductive PublisherAction where
  | matcher (update : MatchingEngineMarketUpdate)
  | publisher
  | synthesizer (action : SpscAction MarketDataPublisherMarketUpdate)

/-- What happened on the two queues. -/
abbrev PublisherEvents :=
  SpscEvent MatchingEngineMarketUpdate × SpscEvent MarketDataPublisherMarketUpdate

namespace PublisherState

def init (mdSize snapshotSize : Nat) : PublisherState where
  outgoingMdUpdates := .init mdSize
  snapshotMdUpdates := .init snapshotSize
  publisher := .reading
  nextIncSeqNum := 1
  incremental := []

/-- `static_cast<ssize_t>` of the sequence number, beside an update. -/
def stamp (seqNum : Nat) (update : MatchingEngineMarketUpdate) : MarketDataPublisherMarketUpdate :=
  ⟨Int.bmod seqNum kWord64, update⟩

/-- One step of the publisher; its `size()` is thread 0 of the queue. -/
def publish (s : PublisherState) : PublisherState × PublisherEvents :=
  match s.publisher with
  | .reading =>
    let (md, event) := s.outgoingMdUpdates.consume
    match md.consumer with
    | .slot _ => ({ s with outgoingMdUpdates := md, publisher := .sizing }, event, .quiet)
    | _ => ({ s with outgoingMdUpdates := md }, event, .quiet)
  | .sizing =>
    let (md, event) := s.outgoingMdUpdates.observe 0
    match event with
    | .sized _ size =>
      if size = 0 then
        ({ s with
          outgoingMdUpdates := { md with consumer := .idle }, publisher := .reading }, event,
            .quiet)
      else ({ s with outgoingMdUpdates := md, publisher := .sending }, event, .quiet)
    | _ => ({ s with outgoingMdUpdates := md }, event, .quiet)
  | .sending =>
    let (md, event) := s.outgoingMdUpdates.consume
    match s.outgoingMdUpdates.consumer, event with
    | .slot index, .read update =>
      ({ s with
        outgoingMdUpdates := md
        publisher := .releasing index
        incremental := s.incremental ++ [stamp s.nextIncSeqNum update] }, event, .quiet)
    | _, _ => ({ s with outgoingMdUpdates := md }, event, .quiet)
  | .releasing index =>
    let (md, event) := s.outgoingMdUpdates.consume
    match event with
    | .released =>
      ({ s with outgoingMdUpdates := md, publisher := .forwarding index }, event, .quiet)
    | _ => ({ s with outgoingMdUpdates := md }, event, .quiet)
  | .forwarding index =>
    match s.snapshotMdUpdates.producer with
    | .slot _ =>
      -- the slot has been released
      ({ s with publisher := .storing (s.outgoingMdUpdates.queue.store index) }, .quiet, .quiet)
    | _ =>
      let (snapshot, event) := s.snapshotMdUpdates.produce default
      ({ s with snapshotMdUpdates := snapshot }, .quiet, event)
  | .storing update =>
    let (snapshot, event) := s.snapshotMdUpdates.produce (stamp s.nextIncSeqNum update)
    match event with
    | .published _ =>
      ({ s with
        snapshotMdUpdates := snapshot
        publisher := .reading
        nextIncSeqNum := add64 s.nextIncSeqNum 1 }, .quiet, event)
    | _ => ({ s with snapshotMdUpdates := snapshot }, .quiet, event)

/-- One step. -/
def step (s : PublisherState) : PublisherAction → Option (PublisherState × PublisherEvents)
  | .matcher update =>
    let (md, event) := s.outgoingMdUpdates.produce update
    some ({ s with outgoingMdUpdates := md }, event, .quiet)
  | .publisher => some s.publish
  | .synthesizer (.producer _) => none
  | .synthesizer action =>
    (s.snapshotMdUpdates.step action).map fun (snapshot, event) =>
      ({ s with snapshotMdUpdates := snapshot }, .quiet, event)

/-- The states that queues of the given sizes and their threads can reach. -/
inductive Reachable (mdSize snapshotSize : Nat) : PublisherState →
    History MatchingEngineMarketUpdate → History MarketDataPublisherMarketUpdate → Prop
  | init : Reachable mdSize snapshotSize (.init mdSize snapshotSize) .empty .empty
  | step {s s' : PublisherState} {h : History MatchingEngineMarketUpdate}
      {h' : History MarketDataPublisherMarketUpdate} {action : PublisherAction}
      {events : PublisherEvents} (hreach : Reachable mdSize snapshotSize s h h')
      (hstep : s.step action = some (s', events)) :
      Reachable mdSize snapshotSize s' (h.record events.1) (h'.record events.2)

/-! ## 2. The invariant -/

/-- Updates as they are sent: the first one has number one. -/
def stamped (updates : List MatchingEngineMarketUpdate) : List MarketDataPublisherMarketUpdate :=
  updates.zipIdx.map fun u => stamp (u.2 + 1) u.1

theorem stamped_append (updates : List MatchingEngineMarketUpdate)
    (u : MatchingEngineMarketUpdate) :
    stamped (updates ++ [u]) = stamped updates ++ [stamp (updates.length + 1) u] := by
  simp [stamped, List.zipIdx_append]

theorem stamped_prefix {us vs : List MatchingEngineMarketUpdate} (h : us <+: vs) :
    stamped us <+: stamped vs := by
  obtain ⟨rest, rfl⟩ := h
  simp [stamped, List.zipIdx_append]

theorem stamped_length (updates : List MatchingEngineMarketUpdate) :
    (stamped updates).length = updates.length := by
  simp [stamped]

theorem stamp_mod (n : Nat) (u : MatchingEngineMarketUpdate) :
    stamp (n % kWord64) u = stamp n u := by
  rw [stamp, stamp, Int.natCast_emod, Int.emod_bmod]

/-- What the publisher has done with the updates it released, and where it stands. -/
def PublisherKnows (k : Nat) (s : PublisherState) (h : History MatchingEngineMarketUpdate)
    (n : Nat) : Prop :=
  match s.publisher with
  | .reading =>
    (s.outgoingMdUpdates.consumer = .idle ∨ ∃ r, s.outgoingMdUpdates.consumer = .reload r) ∧
      s.snapshotMdUpdates.producer = .idle ∧ h.released = n ∧ s.incremental.length = n
  | .sizing | .sending =>
    (∃ index, s.outgoingMdUpdates.consumer = .slot index) ∧
      s.snapshotMdUpdates.producer = .idle ∧ h.released = n ∧ s.incremental.length = n
  | .releasing index =>
    (s.outgoingMdUpdates.consumer = .taken ∨ ∃ r, s.outgoingMdUpdates.consumer = .storing r) ∧
      s.snapshotMdUpdates.producer = .idle ∧ h.released = n ∧ s.incremental.length = n + 1 ∧
      index = n % 2 ^ k
  | .forwarding index =>
    s.outgoingMdUpdates.consumer = .idle ∧
      (s.snapshotMdUpdates.producer = .idle ∨ (∃ w, s.snapshotMdUpdates.producer = .reload w) ∨
        ∃ i, s.snapshotMdUpdates.producer = .slot i) ∧
      h.released = n + 1 ∧ s.incremental.length = n + 1 ∧ index = n % 2 ^ k
  | .storing update =>
    s.outgoingMdUpdates.consumer = .idle ∧
      ((∃ i, s.snapshotMdUpdates.producer = .slot i) ∨
        s.snapshotMdUpdates.producer = .written (stamp (n + 1) update) ∨
        ∃ w, s.snapshotMdUpdates.producer = .storing (stamp (n + 1) update) w) ∧
      h.released = n + 1 ∧ s.incremental.length = n + 1 ∧ h.published[n]? = some update

/-- **Both feeds carry the published updates, numbered in the order of their publication.** -/
structure Agree (k k' : Nat) (s : PublisherState) (h : History MatchingEngineMarketUpdate)
    (h' : History MarketDataPublisherMarketUpdate) : Prop where
  outgoing : ∃ cr cw, SpscState.Inv k cr cw s.outgoingMdUpdates h
  snapshot : ∃ cr cw, SpscState.Inv k' cr cw s.snapshotMdUpdates h'
  seqNum : s.nextIncSeqNum = (h'.published.length + 1) % kWord64
  sent : s.incremental = stamped (h.published.take s.incremental.length)
  forwarded : h'.published = stamped (h.published.take h'.published.length)
  knows : PublisherKnows k s h h'.published.length

namespace Agree

variable {k k' : Nat} {s s' : PublisherState} {h : History MatchingEngineMarketUpdate}
  {h' : History MarketDataPublisherMarketUpdate} {events : PublisherEvents}

theorem sent_le (ha : Agree k k' s h h') : s.incremental.length ≤ h.published.length := by
  have hlen := congrArg List.length ha.sent
  rw [stamped_length, List.length_take] at hlen
  omega

theorem forwarded_le (ha : Agree k k' s h h') : h'.published.length ≤ h.published.length := by
  have hlen := congrArg List.length ha.forwarded
  rw [stamped_length, List.length_take] at hlen
  omega

/-- A step of the matcher. -/
theorem matcher (ha : Agree k k' s h h') (update : MatchingEngineMarketUpdate) :
    Agree k k' { s with outgoingMdUpdates := (s.outgoingMdUpdates.produce update).1 }
      (h.record (s.outgoingMdUpdates.produce update).2) h' := by
  obtain ⟨cr, cw, hi⟩ := ha.outgoing
  obtain ⟨-, cr', hi'⟩ := hi.produce update
  obtain ⟨hconsumer, hreleased, l, hl⟩ :=
    SpscState.produce_frame (s := s.outgoingMdUpdates) h update
  refine { ha with outgoing := ⟨cr', cw, hi'⟩, sent := ?_, forwarded := ?_, knows := ?_ }
  · rw [hl, List.take_append_of_le_length ha.sent_le]
    exact ha.sent
  · rw [hl, List.take_append_of_le_length ha.forwarded_le]
    exact ha.forwarded
  · have hknows := ha.knows
    unfold PublisherKnows at hknows ⊢
    dsimp only
    rw [hconsumer, hreleased]
    cases hp : s.publisher with
    | storing u =>
      rw [hp] at hknows
      obtain ⟨hidle, hproducer, hr, hsent, hget⟩ := hknows
      refine ⟨hidle, hproducer, hr, hsent, ?_⟩
      obtain ⟨hlt, -⟩ := List.getElem?_eq_some_iff.mp hget
      rw [hl, List.getElem?_append_left hlt]
      exact hget
    | _ => rw [hp] at hknows; exact hknows

/-- A step of the synthesizer. -/
theorem synthesizer (ha : Agree k k' s h h') {action : SpscAction MarketDataPublisherMarketUpdate}
    (haction : ∀ value, action ≠ .producer value)
    {snapshot : SpscState MarketDataPublisherMarketUpdate}
    {event : SpscEvent MarketDataPublisherMarketUpdate}
    (hstep : s.snapshotMdUpdates.step action = some (snapshot, event)) :
    Agree k k' { s with snapshotMdUpdates := snapshot } h (h'.record event) := by
  obtain ⟨cr, cw, hi⟩ := ha.snapshot
  obtain ⟨-, hi'⟩ := hi.step hstep
  obtain ⟨hproducer, hpublished⟩ := SpscState.step_frame h' hstep haction
  refine { ha with snapshot := hi', seqNum := ?_, forwarded := ?_, knows := ?_ }
  · rw [hpublished]
    exact ha.seqNum
  · rw [hpublished]
    exact ha.forwarded
  · have hknows := ha.knows
    unfold PublisherKnows at hknows ⊢
    dsimp only
    rw [hpublished, hproducer]
    exact hknows

/-- The publisher steps on the queue of the matcher only. -/
theorem outgoing_step (ha : Agree k k' s h h') {md : SpscState MatchingEngineMarketUpdate}
    {event : SpscEvent MatchingEngineMarketUpdate} {publisher : PublisherAt}
    (hi : ∃ cr cw, SpscState.Inv k cr cw md (h.record event))
    (hpublished : (h.record event).published = h.published)
    (hknows : PublisherKnows k { s with outgoingMdUpdates := md, publisher := publisher }
      (h.record event) h'.published.length) :
    Agree k k' { s with outgoingMdUpdates := md, publisher := publisher } (h.record event) h' where
  outgoing := hi
  snapshot := ha.snapshot
  seqNum := ha.seqNum
  sent := by rw [hpublished]; exact ha.sent
  forwarded := by rw [hpublished]; exact ha.forwarded
  knows := hknows

/-! ## 3. The publisher, stage by stage -/

theorem reading (ha : Agree k k' s h h') (hp : s.publisher = .reading) :
    Agree k k' s.publish.1 (h.record s.publish.2.1) (h'.record s.publish.2.2) := by
  have hknows := ha.knows
  unfold PublisherKnows at hknows
  rw [hp] at hknows
  obtain ⟨hasking, hproducer, hr, hsent⟩ := hknows
  obtain ⟨cr, cw, hi⟩ := ha.outgoing
  obtain ⟨-, cw', hi'⟩ := hi.consume
  obtain ⟨-, hpublished⟩ := SpscState.consume_frame (s := s.outgoingMdUpdates) h
  obtain ⟨hreleased, hcases⟩ := SpscState.consume_asking h hasking
  unfold publish
  rw [hp]
  dsimp only
  rcases hcases with hasking' | ⟨index, hslot⟩
  · have hstay : Agree k k'
        { s with outgoingMdUpdates := s.outgoingMdUpdates.consume.1, publisher := .reading }
        (h.record s.outgoingMdUpdates.consume.2) h' :=
      ha.outgoing_step ⟨_, _, hi'⟩ hpublished ⟨hasking', hproducer, hreleased.trans hr, hsent⟩
    split
    · next index hslot =>
      rcases hasking' with hc | ⟨r, hc⟩ <;> rw [hc] at hslot <;> cases hslot
    · exact hstay
  · rw [hslot]
    exact ha.outgoing_step ⟨_, _, hi'⟩ hpublished
      ⟨⟨index, hslot⟩, hproducer, hreleased.trans hr, hsent⟩

theorem sizing (ha : Agree k k' s h h') (hp : s.publisher = .sizing) :
    Agree k k' s.publish.1 (h.record s.publish.2.1) (h'.record s.publish.2.2) := by
  have hknows := ha.knows
  unfold PublisherKnows at hknows
  rw [hp] at hknows
  obtain ⟨⟨index, hslot⟩, hproducer, hr, hsent⟩ := hknows
  obtain ⟨cr, cw, hi⟩ := ha.outgoing
  obtain ⟨-, hi'⟩ := hi.observe 0
  obtain ⟨-, hconsumer, hpublished, hreleased⟩ :=
    SpscState.observe_frame (s := s.outgoingMdUpdates) h 0
  rw [hslot] at hconsumer
  rw [← hreleased] at hr
  unfold publish
  rw [hp]
  dsimp only
  split
  · next thread size hevent =>
    split
    · have hgiveUp : (s.outgoingMdUpdates.observe 0).1.step .giveUp =
          some ({ (s.outgoingMdUpdates.observe 0).1 with consumer := .idle }, .quiet) := by
        simp only [SpscState.step, hconsumer]
      obtain ⟨-, cr'', cw'', hi''⟩ := hi'.step hgiveUp
      exact ha.outgoing_step ⟨_, _, hi''⟩ hpublished ⟨.inl rfl, hproducer, hr, hsent⟩
    · exact ha.outgoing_step ⟨_, _, hi'⟩ hpublished ⟨⟨index, hconsumer⟩, hproducer, hr, hsent⟩
  · have hstay : Agree k k'
        { s with outgoingMdUpdates := (s.outgoingMdUpdates.observe 0).1, publisher := .sizing }
        (h.record (s.outgoingMdUpdates.observe 0).2) h' :=
      ha.outgoing_step ⟨_, _, hi'⟩ hpublished ⟨⟨index, hconsumer⟩, hproducer, hr, hsent⟩
    exact hstay

/-- The copy that is sent is the update that was published. -/
theorem sending (ha : Agree k k' s h h') (hp : s.publisher = .sending) :
    Agree k k' s.publish.1 (h.record s.publish.2.1) (h'.record s.publish.2.2) := by
  have hknows := ha.knows
  unfold PublisherKnows at hknows
  rw [hp] at hknows
  obtain ⟨⟨index, hslot⟩, hproducer, hr, hsent⟩ := hknows
  obtain ⟨cr, cw, hi⟩ := ha.outgoing
  obtain ⟨hsound, cw', hi'⟩ := hi.consume
  have hconsume : s.outgoingMdUpdates.consume =
      ({ s.outgoingMdUpdates with consumer := .taken },
        .read (s.outgoingMdUpdates.queue.store index)) := by
    unfold SpscState.consume
    rw [hslot]
  have hindex : index = h.released % 2 ^ k := by
    have hc := hi.consumer
    unfold SpscState.ConsumerKnows at hc
    rw [hslot] at hc
    exact hc.2.2
  rw [hconsume] at hsound hi'
  have hget : h.published[h.released]? = some (s.outgoingMdUpdates.queue.store index) := hsound
  rw [hr] at hget hindex
  unfold publish
  rw [hp]
  dsimp only
  rw [hconsume, hslot]
  refine {
    outgoing := ⟨_, _, hi'⟩, snapshot := ha.snapshot, seqNum := ha.seqNum, sent := ?_
    forwarded := ha.forwarded, knows := ⟨.inl rfl, hproducer, hr, ?_, hindex⟩ }
  · obtain ⟨hlt, hvalue⟩ := List.getElem?_eq_some_iff.mp hget
    change s.incremental ++ [_] = stamped (h.published.take (s.incremental ++ [_]).length)
    rw [List.length_append, List.length_singleton, hsent, ← List.take_append_getElem hlt, hvalue,
      stamped_append, List.length_take, min_eq_left hlt.le, ha.seqNum, stamp_mod]
    congr 1
    rw [← hsent]
    exact ha.sent
  · change (s.incremental ++ [_]).length = _
    rw [List.length_append, hsent]
    rfl

theorem releasing (ha : Agree k k' s h h') {index : Nat} (hp : s.publisher = .releasing index) :
    Agree k k' s.publish.1 (h.record s.publish.2.1) (h'.record s.publish.2.2) := by
  have hknows := ha.knows
  unfold PublisherKnows at hknows
  rw [hp] at hknows
  obtain ⟨hconsumer, hproducer, hr, hsent, hindex⟩ := hknows
  obtain ⟨cr, cw, hi⟩ := ha.outgoing
  obtain ⟨-, cw', hi'⟩ := hi.consume
  obtain ⟨-, hpublished⟩ := SpscState.consume_frame (s := s.outgoingMdUpdates) h
  unfold publish
  rw [hp]
  rcases hconsumer with hc | ⟨r, hc⟩
  · have hconsume : s.outgoingMdUpdates.consume = ({ s.outgoingMdUpdates with
        consumer := .storing s.outgoingMdUpdates.queue.nextReadIndex }, .quiet) := by
      unfold SpscState.consume
      rw [hc]
    rw [hconsume] at hi' hpublished
    dsimp only
    rw [hconsume, ← hp]
    refine ha.outgoing_step ⟨_, _, hi'⟩ hpublished ?_
    unfold PublisherKnows
    rw [hp]
    exact ⟨.inr ⟨_, rfl⟩, hproducer, hr, hsent, hindex⟩
  · have hconsume : s.outgoingMdUpdates.consume = ({ s.outgoingMdUpdates with
        queue := { s.outgoingMdUpdates.queue with nextReadIndex := add64 r 1 }
        consumer := .idle }, .released) := by
      unfold SpscState.consume
      rw [hc]
    rw [hconsume] at hi' hpublished
    dsimp only
    rw [hconsume]
    exact ha.outgoing_step ⟨_, _, hi'⟩ hpublished
      ⟨rfl, .inl hproducer, congrArg (· + 1) hr, hsent, hindex⟩

/-- The released slot is copied: it still holds the update that was released last. -/
theorem forwarding (ha : Agree k k' s h h') {index : Nat} (hp : s.publisher = .forwarding index) :
    Agree k k' s.publish.1 (h.record s.publish.2.1) (h'.record s.publish.2.2) := by
  have hknows := ha.knows
  unfold PublisherKnows at hknows
  rw [hp] at hknows
  obtain ⟨hconsumer, hproducer, hr, hsent, hindex⟩ := hknows
  unfold publish
  rw [hp]
  by_cases hslot : ∃ i, s.snapshotMdUpdates.producer = .slot i
  · obtain ⟨i, hslot⟩ := hslot
    dsimp only
    rw [hslot]
    obtain ⟨cr, cw, hi⟩ := ha.outgoing
    have hlt : h'.published.length < h.published.length := by
      have := ha.sent_le
      omega
    have hget : h.published[h'.published.length]? = some h.published[h'.published.length] :=
      List.getElem?_eq_getElem hlt
    have hcopy : h.published[h'.published.length]? =
        some (s.outgoingMdUpdates.queue.store index) := by
      rw [hindex, hi.contents _ _ hget hr.le, hget]
    exact { ha with knows := ⟨hconsumer, .inl ⟨i, hslot⟩, hr, hsent, hcopy⟩ }
  · have hasking : s.snapshotMdUpdates.producer = .idle ∨
        ∃ w, s.snapshotMdUpdates.producer = .reload w := by
      rcases hproducer with hidle | hreload | hslot'
      · exact .inl hidle
      · exact .inr hreload
      · exact absurd hslot' hslot
    obtain ⟨cr, cw, hi⟩ := ha.snapshot
    obtain ⟨-, cr', hi'⟩ := hi.produce default
    obtain ⟨hpublished, hproducer'⟩ := SpscState.produce_asking h' default hasking
    have hstay : Agree k k' { s with
          snapshotMdUpdates := (s.snapshotMdUpdates.produce default).1
          publisher := .forwarding index } h
        (h'.record (s.snapshotMdUpdates.produce default).2) := {
      outgoing := ha.outgoing, snapshot := ⟨_, _, hi'⟩
      seqNum := by rw [hpublished]; exact ha.seqNum
      sent := ha.sent
      forwarded := by rw [hpublished]; exact ha.forwarded
      knows := by rw [hpublished]; exact ⟨hconsumer, hproducer', hr, hsent, hindex⟩ }
    dsimp only
    split
    · next i hslot' => exact absurd ⟨i, hslot'⟩ hslot
    · exact hstay

/-- The copy is written to the queue of the synthesizer and published there. -/
theorem storing (ha : Agree k k' s h h') {update : MatchingEngineMarketUpdate}
    (hp : s.publisher = .storing update) :
    Agree k k' s.publish.1 (h.record s.publish.2.1) (h'.record s.publish.2.2) := by
  have hknows := ha.knows
  unfold PublisherKnows at hknows
  rw [hp] at hknows
  obtain ⟨hconsumer, hproducer, hr, hsent, hget⟩ := hknows
  obtain ⟨cr, cw, hi⟩ := ha.snapshot
  have hstamp : stamp s.nextIncSeqNum update = stamp (h'.published.length + 1) update := by
    rw [ha.seqNum, stamp_mod]
  obtain ⟨-, cr', hi'⟩ := hi.produce (stamp s.nextIncSeqNum update)
  unfold publish
  rw [hp]
  rcases hproducer with ⟨i, hslot⟩ | hwritten | ⟨w, hstoring⟩
  · have hproduce : s.snapshotMdUpdates.produce (stamp s.nextIncSeqNum update) =
        ({ s.snapshotMdUpdates with
          queue := { s.snapshotMdUpdates.queue with
            store := Function.update s.snapshotMdUpdates.queue.store i
              (stamp s.nextIncSeqNum update) }
          producer := .written (stamp s.nextIncSeqNum update) }, .quiet) := by
      unfold SpscState.produce
      rw [hslot]
    rw [hproduce] at hi'
    dsimp only
    rw [hproduce]
    refine { ha with snapshot := ⟨_, _, hi'⟩, knows := ?_ }
    exact ⟨hconsumer, .inr (.inl (congrArg ProducerAt.written hstamp)), hr, hsent, hget⟩
  · have hproduce : s.snapshotMdUpdates.produce (stamp s.nextIncSeqNum update) =
        ({ s.snapshotMdUpdates with
          producer := .storing (stamp (h'.published.length + 1) update)
            s.snapshotMdUpdates.queue.nextWriteIndex }, .quiet) := by
      unfold SpscState.produce
      rw [hwritten]
    rw [hproduce] at hi'
    dsimp only
    rw [hproduce]
    refine { ha with snapshot := ⟨_, _, hi'⟩, knows := ?_ }
    exact ⟨hconsumer, .inr (.inr ⟨_, rfl⟩), hr, hsent, hget⟩
  · have hproduce : s.snapshotMdUpdates.produce (stamp s.nextIncSeqNum update) =
        ({ s.snapshotMdUpdates with
          queue := { s.snapshotMdUpdates.queue with nextWriteIndex := add64 w 1 }
          producer := .idle }, .published (stamp (h'.published.length + 1) update)) := by
      unfold SpscState.produce
      rw [hstoring]
    rw [hproduce] at hi'
    dsimp only
    rw [hproduce]
    have hlen : (h'.published ++ [stamp (h'.published.length + 1) update]).length =
        h'.published.length + 1 := List.length_append
    refine {
      outgoing := ha.outgoing, snapshot := ⟨_, _, hi'⟩, sent := ha.sent, seqNum := ?_
      forwarded := ?_, knows := ?_ }
    · change add64 s.nextIncSeqNum 1 = ((h'.published ++ [_]).length + 1) % kWord64
      rw [hlen, ha.seqNum, add64_mod]
    · obtain ⟨hlt, hvalue⟩ := List.getElem?_eq_some_iff.mp hget
      change h'.published ++ [_] = stamped (h.published.take (h'.published ++ [_]).length)
      rw [hlen, ← List.take_append_getElem hlt, hvalue, stamped_append, List.length_take,
        min_eq_left hlt.le, ← ha.forwarded]
    · change PublisherKnows k _ h (h'.published ++ [_]).length
      rw [hlen]
      exact ⟨.inl hconsumer, rfl, hr, hsent⟩

theorem publish (ha : Agree k k' s h h') :
    Agree k k' s.publish.1 (h.record s.publish.2.1) (h'.record s.publish.2.2) := by
  cases hp : s.publisher with
  | reading => exact ha.reading hp
  | sizing => exact ha.sizing hp
  | sending => exact ha.sending hp
  | releasing index => exact ha.releasing hp
  | forwarding index => exact ha.forwarding hp
  | storing update => exact ha.storing hp

theorem step_synthesizer {action : SpscAction MarketDataPublisherMarketUpdate}
    (haction : ∀ value, action ≠ .producer value) :
    s.step (.synthesizer action) = (s.snapshotMdUpdates.step action).map fun (snapshot, event) =>
      ({ s with snapshotMdUpdates := snapshot }, .quiet, event) := by
  cases action with
  | producer value => exact absurd rfl (haction value)
  | consumer | giveUp | observer => rfl

/-- **One step of anybody.** -/
theorem step (ha : Agree k k' s h h') {action : PublisherAction}
    (hstep : s.step action = some (s', events)) :
    Agree k k' s' (h.record events.1) (h'.record events.2) := by
  cases action with
  | matcher update =>
    obtain ⟨rfl, rfl⟩ := Prod.mk.inj (Option.some.inj hstep)
    exact ha.matcher update
  | publisher =>
    obtain ⟨rfl, rfl⟩ := Prod.mk.inj (Option.some.inj hstep)
    exact ha.publish
  | synthesizer action =>
    have haction : ∀ value, action ≠ .producer value := by
      rintro value rfl
      cases hstep
    rw [step_synthesizer haction] at hstep
    obtain ⟨⟨snapshot, event⟩, hstep', heq⟩ := Option.map_eq_some_iff.mp hstep
    obtain ⟨rfl, rfl⟩ := Prod.mk.inj heq
    exact ha.synthesizer haction hstep'

end Agree

/-! ## 4. Every interleaving -/

theorem init_agree {k k' n n' : Nat} (hk : k < 64) (hk' : k' < 64)
    (hcap : roundUpToPowerOf2 n = 2 ^ k) (hcap' : roundUpToPowerOf2 n' = 2 ^ k') :
    Agree k k' (init n n') .empty .empty where
  outgoing := ⟨0, 0, SpscState.init_inv hk hcap⟩
  snapshot := ⟨0, 0, SpscState.init_inv hk' hcap'⟩
  seqNum := rfl
  sent := rfl
  forwarded := rfl
  knows := ⟨.inl rfl, rfl, rfl, rfl⟩

/-- **The two feeds never diverge.**  In every state that any interleaving reaches, the incremental
stream and the queue of the synthesizer carry the updates the matcher has published, in order and
under the same numbers; the incremental stream is ahead by one update at most.  The second copy is
read from a slot that is already released; it is the first one because that slot is the one the
producer cannot reach before the next release (`SpscState.Inv.contents`).  Numbers are 64-bit
words, so `stamped` counts modulo `2 ^ 64`. -/
theorem feeds_agree {mdSize snapshotSize : Nat} (hmd : mdSize < kWord64)
    (hsnapshot : snapshotSize < kWord64) (hmdCap : 2 ≤ roundUpToPowerOf2 mdSize)
    (hsnapshotCap : 2 ≤ roundUpToPowerOf2 snapshotSize) {s : PublisherState}
    {h : History MatchingEngineMarketUpdate} {h' : History MarketDataPublisherMarketUpdate}
    (hreach : Reachable mdSize snapshotSize s h h') :
    s.incremental <+: stamped h.published ∧ h'.published <+: stamped h.published ∧
      h'.published.length ≤ s.incremental.length ∧
      s.incremental.length ≤ h'.published.length + 1 := by
  obtain ⟨k, hk, hcap⟩ := roundUpToPowerOf2_eq hmd hmdCap
  obtain ⟨k', hk', hcap'⟩ := roundUpToPowerOf2_eq hsnapshot hsnapshotCap
  have ha : Agree k k' s h h' := by
    induction hreach with
    | init => exact init_agree hk hk' hcap hcap'
    | step _ hstep ih => exact ih.step hstep
  refine ⟨?_, ?_, ?_, ?_⟩
  · rw [ha.sent]
    exact stamped_prefix (List.take_prefix _ _)
  · rw [ha.forwarded]
    exact stamped_prefix (List.take_prefix _ _)
  · have hknows := ha.knows
    unfold PublisherKnows at hknows
    split at hknows <;> omega
  · have hknows := ha.knows
    unfold PublisherKnows at hknows
    split at hknows <;> omega

/-- An update on its way through both queues of two slots. -/
theorem feeds_agree_one_update :
    ∃ s h h', Reachable 2 2 s h h' ∧ h.published.length = 1 ∧ h'.published.length = 1 ∧
      s.incremental <+: stamped h.published ∧ h'.published <+: stamped h.published ∧
      h'.published.length ≤ s.incremental.length ∧
      s.incremental.length ≤ h'.published.length + 1 := by
  have hreach : ∃ s h h', Reachable 2 2 s h h' ∧ h.published.length = 1 ∧
      h'.published.length = 1 := by
    let update : MatchingEngineMarketUpdate := ⟨.add, 0, 1, .buy, 10, 5, 1⟩
    have m₁ : Reachable 2 2 _ _ _ := .step .init (rfl : (init 2 2).step (.matcher update) = _)
    have m₂ := Reachable.step m₁ (rfl : step _ (.matcher update) = _)
    have m₃ := Reachable.step m₂ (rfl : step _ (.matcher update) = _)
    have m₄ := Reachable.step m₃ (rfl : step _ (.matcher update) = _)
    have p₁ := Reachable.step m₄ (rfl : step _ .publisher = _)
    have p₂ := Reachable.step p₁ (rfl : step _ .publisher = _)
    have p₃ := Reachable.step p₂ (rfl : step _ .publisher = _)
    have p₄ := Reachable.step p₃ (rfl : step _ .publisher = _)
    have p₅ := Reachable.step p₄ (rfl : step _ .publisher = _)
    have p₆ := Reachable.step p₅ (rfl : step _ .publisher = _)
    have p₇ := Reachable.step p₆ (rfl : step _ .publisher = _)
    have p₈ := Reachable.step p₇ (rfl : step _ .publisher = _)
    have p₉ := Reachable.step p₈ (rfl : step _ .publisher = _)
    have p₁₀ := Reachable.step p₉ (rfl : step _ .publisher = _)
    have p₁₁ := Reachable.step p₁₀ (rfl : step _ .publisher = _)
    exact ⟨_, _, _, Reachable.step p₁₁ (rfl : step _ .publisher = _),
      by decide +kernel, by decide +kernel⟩
  obtain ⟨s, h, h', hreach, hlen, hlen'⟩ := hreach
  exact ⟨s, h, h', hreach, hlen, hlen',
    feeds_agree (by decide) (by decide) (by decide) (by decide) hreach⟩

end PublisherState

end YQuant
