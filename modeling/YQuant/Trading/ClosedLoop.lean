/-
# The whole loop

The exchange, its publisher and its synthesizer, the two channels, the client's consumer and the
thread of its strategy are one system.  What the strategy acts on is what the channels let through
of what its own orders and those of the others do to the books.

A `TradingFloor` lets its thread take any update that can be delivered.  Here the updates come from
the consumer, and `refines_floor` says that they can: every run of the loop is a run of the floor,
so that what holds on the floor holds of the loop.  `caught_up` says what the thread sees when
nothing is on the way: in every book of its own, the exchange's queues.

The channels lose datagrams and repeat them; the incremental channel also reorders them.  The
snapshot channel carries one datagram for each order of a cycle, since `PublishSnapshot` flushes
its socket after every order and at the end.

* `refines_floor`: every run is a run of the floor, and every update that reaches the thread can be
  applied there;
* `never_fails`: every event that is allowed goes through.

Allowed is a request while every book has an id left, an update while the synthesizer's pool has
room, and whatever the channels do.  These bounds are not checked by the code and can be exceeded
(`Lifetime.lean`); everything here is about the runs before that.  The invariant has one part for
each component and one for the channels, and a step of one component frames the others.
-/
import YQuant.MarketData.SnapshotOutput
import YQuant.Trading.GrowingStream
import YQuant.Trading.SnapshotQueue
import YQuant.Trading.StrategyRuns

namespace YQuant

open SnapshotSynthesizer.Mirrors (cycleMessages)

/-! ## 1. What the engine reports -/

namespace MatchingEngine

/-- Every book can number one more order and stay below the readers' tables. -/
def IdsLeft (m : MatchingEngine) : Prop :=
  ∀ symbol, symbol < kMaxSymbols →
    ∀ b ∈ m.symbolOrderBook symbol, b.nextMarketOrderId < kMaxOrderIds

instance (m : MatchingEngine) : Decidable m.IdsLeft :=
  inferInstanceAs (Decidable (∀ symbol, symbol < kMaxSymbols → _))

/-- What the engine has published can be applied, and leads to what its books hold. -/
structure Reports (m : MatchingEngine) (xs : IndexedBooks) : Prop where
  simulates : m.Simulates xs
  few : ∀ symbol, symbol < kMaxSymbols → (xs symbol).book.arrivals < kMaxOrderIds
  published : Run.AlongRun replayMarket (PublishedMarket kDefaultPriceBand) .empty
    m.outgoingMarketUpdates
  live : m.outgoingMarketUpdates.foldl replayMarket .empty = xs.live
  /-- The orders that have arrived pay for the updates that have been published. -/
  paid : m.outgoingMarketUpdates.length + 2 * xs.resting ≤ 3 * xs.arrived

variable {m : MatchingEngine} {xs : IndexedBooks} {r : MatchingEngineClientRequest}

theorem init_reports (hinit : init = .ok m) : m.Reports .empty := by
  obtain ⟨m', hinit', hsim, -, hnone⟩ := init_spec
  obtain rfl := Except.ok.inj (hinit.symm.trans hinit')
  refine ⟨hsim, fun _ _ => (by decide : 0 < kMaxOrderIds), ?_, ?_, ?_⟩
  · rw [hnone]
    trivial
  · rw [hnone]
    rfl
  · rw [hnone]
    exact Nat.zero_le _

/-- The numbers of the stream fit a signed word. -/
theorem Reports.short (h : m.Reports xs) : m.outgoingMarketUpdates.length < 2 ^ 63 :=
  IndexedBooks.short_of_paid h.paid h.few

/-- A free id bounds the orders that have arrived. -/
theorem Reports.arrivals_lt (h : m.Reports xs) (hids : m.IdsLeft) {symbol : Nat}
    (hsymbol : symbol < kMaxSymbols) : (xs symbol).book.arrivals + 1 < kMaxOrderIds := by
  obtain ⟨b, hb, hsim⟩ := h.simulates symbol hsymbol
  obtain ⟨addr, hrep⟩ := hsim.rep
  have hlt := hids symbol hsymbol b hb
  have hfew := h.few symbol hsymbol
  rw [hrep.counter, Nat.mod_eq_of_lt] at hlt
  · exact hlt
  · unfold kMaxOrderIds at hfew
    unfold kWord64
    omega

/-- **A request** is processed, and what the engine publishes can be applied. -/
theorem Reports.process (h : m.Reports xs) (hids : m.IdsLeft) (hdoc : r.Documented) :
    ∃ m', m.processClientRequest r = .ok m' ∧ m'.Reports (xs.step r) ∧
      ∃ us, m'.outgoingMarketUpdates = m.outgoingMarketUpdates ++ us := by
  have hfew' : ∀ symbol, symbol < kMaxSymbols →
      (xs.step r symbol).book.arrivals < kMaxOrderIds := by
    intro symbol hsymbol
    have hlt := h.arrivals_lt hids hsymbol
    obtain ⟨-, call, hcall, -⟩ := hdoc
    rw [IndexedBooks.step_call xs hcall]
    rcases eq_or_ne symbol r.symbolId with rfl | hne
    · rw [Function.update_self, IndexedBook.arrivals_step]
      cases call with
      | add => exact hlt
      | cancel => exact Nat.lt_of_succ_lt hlt
    · rw [Function.update_of_ne hne]
      exact Nat.lt_of_succ_lt hlt
  have hinv := h.simulates.inv
  have hsmall : xs.Small := fun symbol hs => (hinv symbol hs).small (h.few symbol hs)
  have hsmall' : (xs.step r).Small :=
    fun symbol hs => (hinv.next hdoc symbol hs).small (hfew' symbol hs)
  obtain ⟨hadmits, hpub, hfold⟩ := hinv.request_of_small hdoc hsmall hsmall'
  obtain ⟨m', hprocess, hsim, hemits⟩ := process_sim h.simulates hadmits
  refine ⟨m', hprocess, ⟨hsim, hfew', ?_, ?_, ?_⟩, _, hemits.updates⟩
  · rw [hemits.updates, Run.alongRun_append, h.live]
    exact ⟨h.published, hpub⟩
  · rw [hemits.updates, List.foldl_append, h.live, hfold]
  · have hbefore := h.paid
    have hpaid := hinv.paid hdoc
    rw [hemits.updates, List.length_append]
    omega

end MatchingEngine

/-! ## 2. What the floor does to the engine -/

namespace Trading

namespace TradingFloor

variable {c : Nat} {algo : AlgoType} {cfg : Nat → TradeEngineCfg} {s s' : TradingFloor} {e : Event}

/-- The updates that a step hands to the thread. -/
def Event.updates : Event → List MatchingEngineMarketUpdate
  | .takeUpdate u => [u]
  | .takeResponse | .takeRequest | .otherRequest _ | .stop => []

/-- The exchange takes the step. -/
def Event.OfExchange : Event → Prop
  | .takeRequest | .otherRequest _ => True
  | .takeResponse | .takeUpdate _ | .stop => False

/-- The engine only changes when the exchange processes a documented request. -/
theorem Inv.engine_step (h : Inv c algo cfg s) (he : s.Allowed e) (hstep : s.step e = .ok s') :
    s'.delivered = s.delivered ++ e.updates ∧ (s'.engine = s.engine ∨ e.OfExchange ∧
      ∃ r : MatchingEngineClientRequest, r.Documented ∧
        (r ∈ s.thread.outgoingOgwRequests ∨ e = .otherRequest r) ∧
        s.engine.processClientRequest r = .ok s'.engine) := by
  cases outcome hstep with
  | idle hidle =>
    refine ⟨?_, .inl rfl⟩
    rcases hidle with ⟨rfl, -⟩ | ⟨rfl, -⟩
    · exact (List.append_nil _).symm
    · exact (List.append_nil _).symm
  | heard => exact ⟨(List.append_nil _).symm, .inl rfl⟩
  | noted => exact ⟨rfl, .inl rfl⟩
  | stopped => exact ⟨(List.append_nil _).symm, .inl rfl⟩
  | @taken r rest sys hqueue hsys =>
    obtain ⟨xs, hs⟩ := h.sound.synced
    obtain ⟨engine, hengine, hdone⟩ := bind_ok hsys
    cases hdone
    have hr : r ∈ s.system.trader.outgoingOgwRequests := by
      change r ∈ s.thread.outgoingOgwRequests
      rw [hqueue]
      exact List.mem_cons_self
    exact ⟨(List.append_nil _).symm,
      .inr ⟨trivial, r, (hs.trader.requests r hr).2, .inl hr, hengine⟩⟩
  | @other r sys hsys =>
    obtain ⟨engine, hengine, hdone⟩ := bind_ok hsys
    cases hdone
    exact ⟨(List.append_nil _).symm, .inr ⟨trivial, r, he.1, .inr rfl, hengine⟩⟩

end TradingFloor

end Trading

/-! ## 3. The system -/

structure ClosedLoop where
  floor : Trading.TradingFloor
  publisher : MarketDataPublisher
  synthesizer : SnapshotSynthesizer
  /-- How many updates the synthesizer has taken from its queue. -/
  added : Nat
  /-- The datagrams sent on the snapshot channel. -/
  snapshots : List (List MarketDataPublisherMarketUpdate)
  /-- The place of the last of them that arrived: none from before it arrives any more. -/
  arrived : Nat
  consumer : MarketDataConsumer

namespace ClosedLoop

open Trading (AlgoType TradeEngineCfg TradingFloor Deliverable Configured)

/-- Everything the exchange has published. -/
def updates (s : ClosedLoop) : List MatchingEngineMarketUpdate :=
  s.floor.engine.outgoingMarketUpdates

def init (clientId : Nat) (algo : AlgoType) (tickerCfg : Nat → TradeEngineCfg)
    (maxLoss : Nat → ℚ) : Except Fault ClosedLoop := do
  let floor ← TradingFloor.init clientId algo tickerCfg maxLoss
  .ok ⟨floor, .init, .init, 0, [], 0, .init⟩

inductive Event where
  /-- Anything on the floor but market data. -/
  | floor (e : TradingFloor.Event)
  /-- The publisher takes the next update of the engine. -/
  | publish
  /-- The synthesizer takes the next update of the publisher. -/
  | addToSnapshot
  /-- The synthesizer sends a cycle. -/
  | publishSnapshot
  /-- A datagram of the incremental channel arrives. -/
  | recvIncremental (records : List MarketDataPublisherMarketUpdate)
  /-- A datagram of the snapshot channel arrives. -/
  | recvSnapshot (place : Nat)
  /-- The thread takes the next update of the consumer. -/
  | takeUpdate

def step (s : ClosedLoop) : Event → Except Fault ClosedLoop
  | .floor e => do
    let floor ← s.floor.step e
    .ok { s with floor := floor }
  | .publish =>
    match s.updates[s.publisher.incremental.length]? with
    | none => .ok s
    | some u => .ok { s with publisher := s.publisher.publish u }
  | .addToSnapshot =>
    match s.publisher.snapshotMdUpdates[s.added]? with
    | none => .ok s
    | some r => do
      let synthesizer ← s.synthesizer.addToSnapshot r
      .ok { s with
        synthesizer := synthesizer
        added := s.added + 1 }
  | .publishSnapshot => do
    let cycle ← s.synthesizer.publishSnapshot
    .ok { s with snapshots := s.snapshots ++ snapshotDatagrams cycle }
  | .recvIncremental records => .ok { s with consumer := s.consumer.recvCallback ⟨false, records⟩ }
  | .recvSnapshot place =>
    match s.snapshots[place]? with
    | none => .ok s
    | some records => .ok { s with
        arrived := place
        consumer := s.consumer.recvCallback ⟨true, records⟩ }
  | .takeUpdate =>
    match s.consumer.incomingMdUpdates[s.floor.delivered.length]? with
    | none => .ok s
    | some u => do
      let floor ← s.floor.step (.takeUpdate u)
      .ok { s with floor := floor }

def Allowed (s : ClosedLoop) : Event → Prop
  | .floor (.takeUpdate _) => False
  | .floor .takeRequest => s.floor.engine.IdsLeft
  | .floor (.otherRequest r) => s.floor.Allowed (.otherRequest r) ∧ s.floor.engine.IdsLeft
  -- the synthesizer's pool holds the live orders
  | .addToSnapshot => (marketAt s.updates (s.added + 1)).total ≤ kMaxOrderIds
  | .recvIncremental records => ∀ r ∈ records, r ∈ s.publisher.incremental
  | .recvSnapshot place => s.arrived ≤ place
  | .floor .takeResponse | .floor .stop | .publish | .publishSnapshot | .takeUpdate => True

instance (s : ClosedLoop) : (e : Event) → Decidable (s.Allowed e)
  | .floor (.takeUpdate _) => isFalse not_false
  | .floor .takeRequest => inferInstanceAs (Decidable s.floor.engine.IdsLeft)
  | .floor (.otherRequest _) => inferInstanceAs (Decidable (_ ∧ _))
  | .addToSnapshot => inferInstanceAs (Decidable (_ ≤ _))
  | .recvIncremental _ => inferInstanceAs (Decidable (∀ r ∈ _, _))
  | .recvSnapshot _ => inferInstanceAs (Decidable (_ ≤ _))
  | .floor .takeResponse | .floor .stop | .publish | .publishSnapshot | .takeUpdate =>
    isTrue trivial

/-- **What a step can do** that touches no socket. -/
inductive Inner (s : ClosedLoop) : Event → ClosedLoop → Prop
  | idle {e : Event} : Inner s e s
  | moved {k : TradingFloor.Event} {floor : TradingFloor}
      (hfloor : s.floor.step k = .ok floor) : Inner s (.floor k) { s with floor := floor }
  | published {u : MatchingEngineMarketUpdate} :
      Inner s .publish { s with publisher := s.publisher.publish u }
  | added {r : MarketDataPublisherMarketUpdate} {synthesizer : SnapshotSynthesizer}
      (hadd : s.synthesizer.addToSnapshot r = .ok synthesizer) :
      Inner s .addToSnapshot { s with
        synthesizer := synthesizer
        added := s.added + 1 }
  | noted {u : MatchingEngineMarketUpdate} {floor : TradingFloor}
      (hu : s.consumer.incomingMdUpdates[s.floor.delivered.length]? = some u)
      (hfloor : s.floor.step (.takeUpdate u) = .ok floor) :
      Inner s .takeUpdate { s with floor := floor }

/-- The step touches no socket. -/
def Event.Quiet : Event → Prop
  | .floor _ | .publish | .addToSnapshot | .takeUpdate => True
  | .publishSnapshot | .recvIncremental _ | .recvSnapshot _ => False

theorem inner {s s' : ClosedLoop} {e : Event} (hstep : s.step e = .ok s') (hquiet : e.Quiet) :
    s.Inner e s' := by
  cases e with
  | publishSnapshot | recvIncremental | recvSnapshot => exact absurd hquiet not_false
  | floor =>
    obtain ⟨floor, hfloor, hdone⟩ := bind_ok hstep
    cases hdone
    exact .moved hfloor
  | publish =>
    simp only [step] at hstep
    split at hstep
    · cases hstep
      exact .idle
    · cases hstep
      exact .published
  | addToSnapshot =>
    simp only [step] at hstep
    split at hstep
    · cases hstep
      exact .idle
    · obtain ⟨synthesizer, hadd, hdone⟩ := bind_ok hstep
      cases hdone
      exact .added hadd
  | takeUpdate =>
    simp only [step] at hstep
    split at hstep
    · cases hstep
      exact .idle
    · next u hu =>
      obtain ⟨floor, hfloor, hdone⟩ := bind_ok hstep
      cases hdone
      exact .noted hu hfloor

/-! ## 4. What holds of every state -/

/-- The snapshot channel carries cycles made at places that never go back, and the consumer has met
none made after the place of the last datagram that arrived. -/
structure Anchored (s : ClosedLoop) (anchor : Nat → Nat) : Prop where
  monotone : Monotone anchor
  le_added : ∀ i, anchor i ≤ s.added
  arrived : s.arrived ≤ s.snapshots.length
  cycles : ∀ i records, s.snapshots[i]? = some records → ∀ r ∈ records,
    InCycle s.updates (anchor i) (r.seqNum, r.update)
  consumer : MarketDataConsumer.Inv s.updates (anchor s.arrived) s.consumer

structure Inv (c : Nat) (algo : AlgoType) (cfg : Nat → TradeEngineCfg) (s : ClosedLoop) : Prop where
  floor : TradingFloor.Inv c algo cfg s.floor
  market : ∃ xs, s.floor.engine.Reports xs
  publisher : ∃ n, s.added ≤ n ∧ n ≤ s.updates.length ∧
    s.publisher = MarketDataPublisher.run (s.updates.take n)
  synthesizer : ∃ addr, s.synthesizer.Mirrors addr (marketAt s.updates s.added) s.added
  anchored : ∃ anchor, s.Anchored anchor
  clean : Clean s.consumer.snapshotQueuedMsgs.toList
  banded : s.consumer.Holds Banded
  delivered : s.floor.delivered <+: s.consumer.incomingMdUpdates

section Steps

variable {c : Nat} {algo : AlgoType} {cfg : Nat → TradeEngineCfg} {maxLoss : Nat → ℚ}
  {s s' : ClosedLoop} {e : Event} {events : List Event} {anchor : Nat → Nat}

theorem Inv.published (h : Inv c algo cfg s) :
    Run.AlongRun replayMarket (PublishedMarket kDefaultPriceBand) .empty s.updates := by
  obtain ⟨xs, hreports⟩ := h.market
  exact hreports.published

theorem Inv.added_le (h : Inv c algo cfg s) : s.added ≤ s.updates.length := by
  obtain ⟨n, hadded, hn, -⟩ := h.publisher
  exact hadded.trans hn

/-- What has been sent on the incremental channel is numbered as the stream is. -/
theorem Inv.mem_incremental (h : Inv c algo cfg s) {r : MarketDataPublisherMarketUpdate}
    (hr : r ∈ s.publisher.incremental) : r ∈ numbered 1 s.updates := by
  obtain ⟨n, -, -, hrun⟩ := h.publisher
  rw [hrun, (run_publish _).1] at hr
  exact mem_numbered_of_take hr

/-- **The floor moves on**: the stream may grow. -/
theorem Inv.of_floor (h : Inv c algo cfg s) {floor : TradingFloor}
    (hfloor : TradingFloor.Inv c algo cfg floor) (hmarket : ∃ xs, floor.engine.Reports xs)
    {us : List MatchingEngineMarketUpdate}
    (hupdates : floor.engine.outgoingMarketUpdates = s.updates ++ us)
    (hdelivered : floor.delivered <+: s.consumer.incomingMdUpdates) :
    Inv c algo cfg { s with floor := floor } where
  floor := hfloor
  market := hmarket
  publisher := by
    obtain ⟨n, hadded, hn, hrun⟩ := h.publisher
    refine ⟨n, hadded, ?_, ?_⟩
    · rw [updates, hupdates, List.length_append]
      omega
    · rw [updates, hupdates, List.take_append_of_le_length hn]
      exact hrun
  synthesizer := by
    obtain ⟨addr, hmirrors⟩ := h.synthesizer
    rw [updates, hupdates, marketAt_extend us h.added_le]
    exact ⟨addr, hmirrors⟩
  anchored := by
    obtain ⟨anchor, ha⟩ := h.anchored
    refine ⟨anchor, ha.monotone, ha.le_added, ha.arrived, ?_, ?_⟩
    · intro i records hi r hr
      rw [updates, hupdates]
      exact (ha.cycles i records hi r hr).extend us ((ha.le_added i).trans h.added_le)
    · obtain ⟨xs, hreports⟩ := hmarket
      rw [updates, hupdates]
      exact ha.consumer.extend (hupdates ▸ hreports.short)
  clean := h.clean
  banded := h.banded
  delivered := hdelivered

/-- The publisher numbers one more update. -/
theorem Inv.publish (h : Inv c algo cfg s) : ∃ s', s.step .publish = .ok s' ∧
    s'.floor = s.floor ∧ Inv c algo cfg s' := by
  obtain ⟨n, hadded, hn, hrun⟩ := h.publisher
  have hlen : s.publisher.incremental.length = n := by
    rw [hrun, (run_publish _).1, length_numbered, List.length_take, min_eq_left hn]
  cases hu : s.updates[s.publisher.incremental.length]? with
  | none => exact ⟨s, by simp only [step, hu], rfl, h⟩
  | some u =>
    refine ⟨{ s with publisher := s.publisher.publish u }, by simp only [step, hu], rfl, ?_⟩
    rw [hlen] at hu
    obtain ⟨hlt, rfl⟩ := List.getElem?_eq_some_iff.mp hu
    have hnext : s.publisher.publish s.updates[n] =
        MarketDataPublisher.run (s.updates.take (n + 1)) := by
      rw [hrun, List.take_succ_eq_append_getElem hlt, MarketDataPublisher.run,
        MarketDataPublisher.run, List.foldl_append]
      rfl
    obtain ⟨anchor, ha⟩ := h.anchored
    exact ⟨h.floor, h.market, ⟨n + 1, Nat.le_succ_of_le hadded, hlt, hnext⟩, h.synthesizer,
      ⟨anchor, ha.monotone, ha.le_added, ha.arrived, ha.cycles, ha.consumer⟩, h.clean, h.banded,
      h.delivered⟩

/-- The synthesizer follows, as long as its pool holds the live orders. -/
theorem Inv.addToSnapshot (h : Inv c algo cfg s) (he : s.Allowed .addToSnapshot) :
    ∃ s', s.step .addToSnapshot = .ok s' ∧ s'.floor = s.floor ∧ Inv c algo cfg s' := by
  obtain ⟨n, hadded, hn, hrun⟩ := h.publisher
  obtain ⟨addr, hmirrors⟩ := h.synthesizer
  have hqueue : s.publisher.snapshotMdUpdates[s.added]? =
      (s.updates.take n)[s.added]?.map fun u => ⟨(1 + s.added : Nat), u⟩ := by
    rw [hrun, (run_publish _).2, getElem?_numbered]
  cases hu : (s.updates.take n)[s.added]? with
  | none =>
    rw [hu] at hqueue
    exact ⟨s, by simp only [step, hqueue, Option.map_none], rfl, h⟩
  | some u =>
    rw [hu] at hqueue
    obtain ⟨hlt, hget⟩ := List.getElem?_eq_some_iff.mp hu
    rw [List.length_take] at hlt
    rw [List.getElem_take] at hget
    have hnext : s.updates[s.added]? = some u := by
      rw [List.getElem?_eq_some_iff]
      exact ⟨by omega, hget⟩
    have hroom : (marketAt s.updates (s.added + 1)).total ≤ kMaxOrderIds := he
    rw [marketAt_succ hnext] at hroom
    have hpub : PublishedMarket kDefaultPriceBand (marketAt s.updates s.added) u := by
      have hall := h.published
      rw [← List.take_append_drop s.added s.updates, Run.alongRun_append,
        List.drop_eq_getElem_cons (by omega : s.added < s.updates.length), hget] at hall
      exact hall.2.1
    obtain ⟨synthesizer, addr', hadd, hmirrors'⟩ := hmirrors.addToSnapshot hpub hroom
    rw [← marketAt_succ hnext] at hmirrors'
    rw [Nat.add_comm] at hqueue
    refine ⟨{ s with
      synthesizer := synthesizer
      added := s.added + 1 }, by simp only [step, hqueue, Option.map_some, hadd, ok_bind], rfl, ?_⟩
    refine ⟨h.floor, h.market, ⟨n, by dsimp only; omega, hn, hrun⟩, ⟨addr', hmirrors'⟩, ?_, h.clean,
      h.banded, h.delivered⟩
    obtain ⟨anchor, ha⟩ := h.anchored
    exact ⟨anchor, ha.monotone, fun i => (ha.le_added i).trans (Nat.le_succ _), ha.arrived,
      ha.cycles,
      ha.consumer⟩

/-- More datagrams, of a cycle that is no earlier than those before it. -/
theorem Anchored.send (h : s.Anchored anchor) (hadded : s.added ≤ s.updates.length)
    {datagrams : List (List MarketDataPublisherMarketUpdate)}
    (hdatagrams : ∀ records ∈ datagrams, ∀ r ∈ records,
      InCycle s.updates s.added (r.seqNum, r.update)) :
    ∃ anchor, Anchored { s with snapshots := s.snapshots ++ datagrams } anchor := by
  let anchor' := fun i => if i < s.snapshots.length then anchor i else s.added
  have hle : ∀ i, anchor i ≤ anchor' i := by
    intro i
    by_cases hi : i < s.snapshots.length
    · simp [anchor', hi]
    · simpa [anchor', hi] using h.le_added i
  have hle' : ∀ i, anchor' i ≤ s.added := by
    intro i
    by_cases hi : i < s.snapshots.length
    · simpa [anchor', hi] using h.le_added i
    · simp [anchor', hi]
  refine ⟨anchor', ?_, hle', ?_, ?_, ?_⟩
  · intro i j hij
    by_cases hj : j < s.snapshots.length
    · have hi : i < s.snapshots.length := hij.trans_lt hj
      simpa [anchor', hi, hj] using h.monotone hij
    · have hsame : anchor' j = s.added := by simp [anchor', hj]
      rw [hsame]
      exact hle' i
  · rw [List.length_append]
    exact h.arrived.trans (Nat.le_add_right _ _)
  · intro i records hi r hr
    change InCycle s.updates _ _
    dsimp only at hi
    rw [List.getElem?_append] at hi
    split at hi
    · next hlt => simpa [anchor', hlt] using h.cycles i records hi r hr
    · next hge =>
      simpa [anchor', hge] using hdatagrams records (List.mem_of_getElem? hi) r hr
  · exact h.consumer.mono (hle _) ((hle' _).trans hadded)

/-- **A cycle** lists what the synthesizer holds. -/
theorem Inv.cycle (h : Inv c algo cfg s) :
    s.synthesizer.publishSnapshot = .ok (numbered 0 (cycleMessages (marketAt s.updates s.added)
      s.added)) := by
  obtain ⟨addr, hmirrors⟩ := h.synthesizer
  exact hmirrors.publishSnapshot_eq fun symbol _ =>
    ((consistent_marketAt h.published s.added).1 symbol).ascending

theorem Inv.publishSnapshot (h : Inv c algo cfg s) : ∃ s', s.step .publishSnapshot = .ok s' ∧
    s'.floor = s.floor ∧ Inv c algo cfg s' := by
  obtain ⟨anchor, ha⟩ := h.anchored
  refine ⟨{ s with
    snapshots := s.snapshots ++
      snapshotDatagrams (numbered 0 (cycleMessages (marketAt s.updates s.added) s.added)) },
    by simp only [step, h.cycle, ok_bind], rfl, h.floor, h.market, h.publisher, h.synthesizer, ?_,
    h.clean, h.banded, h.delivered⟩
  refine ha.send h.added_le ?_
  intro records hrecords r hr
  have hmem := List.mem_flatten_of_mem hrecords hr
  rw [flatten_snapshotDatagrams] at hmem
  obtain ⟨k, hk, hseq⟩ := mem_numbered hmem
  exact ⟨k, by rw [hseq, Nat.zero_add], hk⟩

/-- A datagram of the incremental channel. -/
theorem Inv.recvIncremental (h : Inv c algo cfg s) {records : List MarketDataPublisherMarketUpdate}
    (he : s.Allowed (.recvIncremental records)) : ∃ s', s.step (.recvIncremental records) = .ok s' ∧
      s'.floor = s.floor ∧ Inv c algo cfg s' := by
  have hnumbered : ∀ r ∈ records, r ∈ numbered 1 s.updates := fun r hr =>
    h.mem_incremental (he r hr)
  have hbanded : (s.consumer.recvCallback ⟨false, records⟩).Holds Banded := by
    refine h.banded.recvCallback ?_
    intro r hr
    obtain ⟨i, hi, -⟩ := mem_numbered (hnumbered r hr)
    exact banded_of_published h.published _ (List.mem_of_getElem? hi)
  obtain ⟨anchor, ha⟩ := h.anchored
  exact ⟨{ s with consumer := s.consumer.recvCallback ⟨false, records⟩ }, rfl, rfl, h.floor,
    h.market, h.publisher, h.synthesizer, ⟨anchor, ha.monotone, ha.le_added, ha.arrived,
      ha.cycles, ha.consumer.recvIncrementals h.published hnumbered⟩,
    MarketDataConsumer.clean_received h.clean [⟨false, records⟩], hbanded,
    h.delivered.trans (MarketDataConsumer.recvCallback_forwards _)⟩

/-- A datagram of the snapshot channel. -/
theorem Inv.recvSnapshot (h : Inv c algo cfg s) {place : Nat}
    (he : s.Allowed (.recvSnapshot place)) : ∃ s', s.step (.recvSnapshot place) = .ok s' ∧
      s'.floor = s.floor ∧ Inv c algo cfg s' := by
  cases hrecords : s.snapshots[place]? with
  | none => exact ⟨s, by simp only [step, hrecords], rfl, h⟩
  | some records =>
    obtain ⟨anchor, ha⟩ := h.anchored
    have hcycle := ha.cycles place records hrecords
    have hbanded : (s.consumer.recvCallback ⟨true, records⟩).Holds Banded :=
      h.banded.recvCallback fun r hr => (hcycle r hr).banded h.published
    exact ⟨{ s with
      arrived := place
      consumer := s.consumer.recvCallback ⟨true, records⟩ }, by simp only [step, hrecords], rfl,
      h.floor, h.market, h.publisher, h.synthesizer, ⟨anchor, ha.monotone, ha.le_added,
        (List.getElem?_eq_some_iff.mp hrecords).1.le, ha.cycles,
        ha.consumer.recvSnapshots h.published (ha.monotone he)
          ((ha.le_added place).trans h.added_le) hcycle⟩,
      MarketDataConsumer.clean_received h.clean [⟨true, records⟩], hbanded,
      h.delivered.trans (MarketDataConsumer.recvCallback_forwards _)⟩

/-- The events of the market data. -/
def Event.OfFeed : Event → Prop
  | .publish | .addToSnapshot | .publishSnapshot | .recvIncremental _ | .recvSnapshot _ => True
  | .floor _ | .takeUpdate => False

/-- **The market data never fails**, and the floor does not notice it. -/
theorem Inv.feed (h : Inv c algo cfg s) (he : s.Allowed e) (hfeed : e.OfFeed) :
    ∃ s', s.step e = .ok s' ∧ s'.floor = s.floor ∧ Inv c algo cfg s' := by
  cases e with
  | floor | takeUpdate => exact absurd hfeed not_false
  | publish => exact h.publish
  | addToSnapshot => exact h.addToSnapshot he
  | publishSnapshot => exact h.publishSnapshot
  | recvIncremental => exact h.recvIncremental he
  | recvSnapshot => exact h.recvSnapshot he

/-- **The next update of the consumer can be delivered.** -/
theorem Inv.deliverable (h : Inv c algo cfg s) {u : MatchingEngineMarketUpdate}
    (hu : s.consumer.incomingMdUpdates[s.floor.delivered.length]? = some u) :
    Deliverable s.floor.delivered u ∧
      s.floor.delivered ++ [u] <+: s.consumer.incomingMdUpdates := by
  obtain ⟨anchor, ha⟩ := h.anchored
  obtain ⟨rest, hrest⟩ := h.delivered
  rw [← hrest, List.getElem?_append_right le_rfl, Nat.sub_self] at hu
  obtain ⟨rest', rfl⟩ : ∃ rest', rest = u :: rest' := by
    cases rest with
    | nil => cases hu
    | cons v rest' => exact ⟨rest', by rw [Option.some.inj hu]⟩
  have happ := ha.consumer.applicable
  rw [← hrest, Run.alongRun_append] at happ
  obtain ⟨hsymbol, happ⟩ := happ.2.1
  rw [foldl_replayMarket_at] at happ
  refine ⟨⟨hsymbol, happ, h.banded.forwarded u ?_⟩, rest', ?_⟩
  · rw [← hrest]
    simp
  · rw [← hrest, List.append_assoc]
    rfl

/-- What the floor is allowed to do. -/
theorem Allowed.floor {k : TradingFloor.Event} (he : s.Allowed (.floor k)) :
    s.floor.Allowed k ∧ k.updates = [] ∧ (k.OfExchange → s.floor.engine.IdsLeft) := by
  cases k with
  | takeUpdate => exact absurd he not_false
  | takeRequest => exact ⟨trivial, rfl, fun _ => he⟩
  | otherRequest => exact ⟨he.1, rfl, fun _ => he.2⟩
  | takeResponse | stop => exact ⟨trivial, rfl, fun hk => absurd hk not_false⟩

/-- A step of the floor, under the loop's conditions. -/
theorem Inv.floor_step (h : Inv c algo cfg s) (hc : c < kMaxNumClients) (hcfg : Configured algo cfg)
    {k : TradingFloor.Event} (hk : s.floor.Allowed k)
    (hids : k.OfExchange → s.floor.engine.IdsLeft)
    (hnext : s.floor.delivered ++ k.updates <+: s.consumer.incomingMdUpdates)
    {floor : TradingFloor} (hstep : s.floor.step k = .ok floor) :
    Inv c algo cfg { s with floor := floor } := by
  have hfloor := (h.floor.step hc hcfg hk hstep).1
  obtain ⟨hdelivered, hengine⟩ := h.floor.engine_step hk hstep
  rw [← hdelivered] at hnext
  obtain ⟨xs, hreports⟩ := h.market
  rcases hengine with hsame | ⟨hexchange, r, hdoc, -, hprocess⟩
  · have hupdates : floor.engine.outgoingMarketUpdates = s.updates ++ [] := by
      rw [hsame, List.append_nil, updates]
    exact h.of_floor hfloor ⟨xs, hsame ▸ hreports⟩ hupdates hnext
  · obtain ⟨m, hm, hreports', us, hupdates⟩ := hreports.process (hids hexchange) hdoc
    obtain rfl := Except.ok.inj (hprocess.symm.trans hm)
    exact h.of_floor hfloor ⟨_, hreports'⟩ hupdates hnext

/-- **Every step keeps the invariant**, and is a step of the floor or none. -/
theorem Inv.step (h : Inv c algo cfg s) (hc : c < kMaxNumClients) (hcfg : Configured algo cfg)
    (he : s.Allowed e) (hstep : s.step e = .ok s') : Inv c algo cfg s' ∧
      (s'.floor = s.floor ∨ ∃ k, s.floor.Allowed k ∧ s.floor.step k = .ok s'.floor) := by
  have hfed (hfeed : e.OfFeed) : Inv c algo cfg s' ∧ s'.floor = s.floor := by
    obtain ⟨s'', hstep', hfloor, hinv⟩ := h.feed he hfeed
    obtain rfl := Except.ok.inj (hstep.symm.trans hstep')
    exact ⟨hinv, hfloor⟩
  cases e with
  | publish | addToSnapshot | publishSnapshot | recvIncremental | recvSnapshot =>
    obtain ⟨hinv, hfloor⟩ := hfed trivial
    exact ⟨hinv, .inl hfloor⟩
  | floor k =>
    cases inner hstep trivial with
    | idle => exact ⟨h, .inl rfl⟩
    | moved hfloor =>
      obtain ⟨hk, hupdates, hids⟩ := Allowed.floor he
      refine ⟨h.floor_step hc hcfg hk hids ?_ hfloor, .inr ⟨k, hk, hfloor⟩⟩
      rw [hupdates, List.append_nil]
      exact h.delivered
  | takeUpdate =>
    cases inner hstep trivial with
    | idle => exact ⟨h, .inl rfl⟩
    | @noted u _ hu hfloor =>
      obtain ⟨hdeliverable, hnext⟩ := h.deliverable hu
      exact ⟨h.floor_step hc hcfg (k := .takeUpdate u) hdeliverable (fun hk => absurd hk not_false)
        hnext hfloor, .inr ⟨.takeUpdate u, hdeliverable, hfloor⟩⟩

theorem init_inv (hinit : init c algo cfg maxLoss = .ok s) : Inv c algo cfg s ∧
    TradingFloor.init c algo cfg maxLoss = .ok s.floor := by
  obtain ⟨floor, hfloor, hdone⟩ := bind_ok hinit
  cases hdone
  obtain ⟨engine, hengine, hdone⟩ := bind_ok hfloor
  cases hdone
  have hreports := MatchingEngine.init_reports hengine
  refine ⟨⟨(TradingFloor.init_inv hfloor).1, ⟨_, hreports⟩, ⟨0, le_rfl, Nat.zero_le _, rfl⟩,
    ⟨_, SnapshotSynthesizer.mirrors_init fun _ => id⟩, ⟨fun _ => 0, fun _ _ _ => le_rfl,
      fun _ => le_rfl, le_rfl, fun i records hi => by simp at hi, ?_⟩,
    Clean.empty, .init, List.prefix_rfl⟩, hfloor⟩
  exact MarketDataConsumer.init_inv hreports.short

/-- The exchange takes a request, as long as it has ids left. -/
theorem Inv.exchange_goes_on (h : Inv c algo cfg s) {k : TradingFloor.Event}
    (hk : s.floor.Allowed k) (hexchange : k.OfExchange) (hids : s.floor.engine.IdsLeft) :
    ∃ floor, s.floor.step k = .ok floor := by
  obtain ⟨xs, hreports⟩ := h.market
  have hprocess {r : MatchingEngineClientRequest} (hdoc : r.Documented) (t : Trading.TradeThread) :
      ∃ floor, TradingFloor.process { s.floor with thread := t } r = .ok floor := by
    obtain ⟨m, hm, -⟩ := hreports.process hids hdoc
    exact ⟨_, by rw [TradingFloor.process, Trading.TradingSystem.process, TradingFloor.system, hm,
      ok_bind, ok_bind]⟩
  cases k with
  | takeResponse | takeUpdate | stop => exact absurd hexchange not_false
  | otherRequest r => exact hprocess hk.1 s.floor.thread
  | takeRequest =>
    cases hqueue : s.floor.thread.outgoingOgwRequests with
    | nil => exact ⟨s.floor, by simp only [TradingFloor.step, hqueue]⟩
    | cons r rest =>
      obtain ⟨ys, hs⟩ := h.floor.sound.synced
      have hr : r ∈ s.floor.system.trader.outgoingOgwRequests := by
        change r ∈ s.floor.thread.outgoingOgwRequests
        rw [hqueue]
        exact List.mem_cons_self
      obtain ⟨floor, hfloor⟩ := hprocess (hs.trader.requests r hr).2
        { s.floor.thread with outgoingOgwRequests := rest }
      exact ⟨floor, by simp only [TradingFloor.step, hqueue, hfloor]⟩

/-- **Whatever is allowed goes through**, as long as the thread has order ids left. -/
theorem Inv.goes_on (h : Inv c algo cfg s) (hcfg : Configured algo cfg) (he : s.Allowed e)
    (hid : s.floor.thread.orderManager.nextOrderId + 1 < kMaxOrderIds) :
    ∃ s', s.step e = .ok s' := by
  have hlift {k : TradingFloor.Event} (hk : ∃ floor, s.floor.step k = .ok floor) :
      ∃ s', s.step (.floor k) = .ok s' := by
    obtain ⟨floor, hfloor⟩ := hk
    exact ⟨{ s with floor := floor }, by simp only [ClosedLoop.step, hfloor, ok_bind]⟩
  cases e with
  | publish | addToSnapshot | publishSnapshot | recvIncremental | recvSnapshot =>
    obtain ⟨s', hstep, -⟩ := h.feed he trivial
    exact ⟨s', hstep⟩
  | takeUpdate =>
    cases hu : s.consumer.incomingMdUpdates[s.floor.delivered.length]? with
    | none => exact ⟨s, by simp only [ClosedLoop.step, hu]⟩
    | some u =>
      obtain ⟨floor, hfloor⟩ :=
        h.floor.goes_on (e := .takeUpdate u) hcfg (h.deliverable hu).1 trivial hid
      exact ⟨{ s with floor := floor }, by simp only [ClosedLoop.step, hu, hfloor, ok_bind]⟩
  | floor k =>
    obtain ⟨hk, -, hids⟩ := Allowed.floor he
    refine hlift ?_
    cases k with
    | takeUpdate => exact absurd he not_false
    | takeRequest | otherRequest => exact h.exchange_goes_on hk trivial (hids trivial)
    | takeResponse | stop => exact h.floor.goes_on hcfg hk trivial hid

end Steps

/-! ## 5. Runs -/

/-- A market maker sees a bid and an offer of another client, the first of them twice, and quotes
beside them.  Its bid is hit. -/
def quotedBesideFeed : List Event :=
  [.floor (.otherRequest ⟨.new, 2, 0, 1, .buy, 100, 4⟩), .publish,
    .floor (.otherRequest ⟨.new, 2, 0, 2, .sell, 104, 4⟩), .publish, .addToSnapshot,
    .recvIncremental [⟨1, ⟨.add, 0, 1, .buy, 100, 4, 1⟩⟩], .takeUpdate,
    .recvIncremental [⟨1, ⟨.add, 0, 1, .buy, 100, 4, 1⟩⟩, ⟨2, ⟨.add, 0, 2, .sell, 104, 4, 1⟩⟩],
    .takeUpdate, .floor .takeRequest, .floor .takeRequest,
    .floor (.otherRequest ⟨.new, 3, 0, 1, .sell, 100, 9⟩), .publish, .publish, .addToSnapshot,
    .floor .takeResponse, .floor .takeResponse, .floor .takeResponse]

section Runs

variable {c : Nat} {algo : AlgoType} {cfg : Nat → TradeEngineCfg} {maxLoss : Nat → ℚ}
  {s s' : ClosedLoop} {e : Event} {events : List Event}

theorem run_inv (hc : c < kMaxNumClients) (hcfg : Configured algo cfg)
    (hinit : init c algo cfg maxLoss = .ok s) (hallowed : Run.EachStep step Allowed s events) :
    Run.Always step (Inv c algo cfg) s events :=
  hallowed.always (fun _ _ _ h he hstep => (h.step hc hcfg he hstep).1) (init_inv hinit).1

/-- The market maker's run, checked once. -/
theorem quotedBesideFeed_runs : ∃ s s', init 1 .maker Trading.TradingFloor.makerCfg
      (fun _ => -1000) = .ok s ∧
    Run.EachStep step Allowed s quotedBesideFeed ∧ quotedBesideFeed.foldlM step s = .ok s' ∧
    s'.floor.thread.orderManager.nextOrderId = 3 ∧
    (s'.floor.thread.positionKeeper 0).position = 5 := by
  obtain ⟨s, hinit, hcheck⟩ : ∃ s, init 1 .maker Trading.TradingFloor.makerCfg
        (fun _ => -1000) = .ok s ∧
      (decide (Run.EachStep step Allowed s quotedBesideFeed) &&
        returns (fun s' => decide (s'.floor.thread.orderManager.nextOrderId = 3 ∧
          (s'.floor.thread.positionKeeper 0).position = 5))
          (quotedBesideFeed.foldlM step s)) = true :=
    exists_of_returns (by decide +kernel)
  rw [Bool.and_eq_true] at hcheck
  obtain ⟨s', hrun, hend⟩ := exists_of_returns hcheck.2
  exact ⟨s, s', hinit, of_decide_eq_true hcheck.1, hrun, of_decide_eq_true hend⟩

/-- **The loop refines the floor**: whatever the channels do, every update that reaches the thread
is one that can be delivered, and every run of the loop is a run of the floor.  The consumer
forwards a segment of the stream or a cycle and then a segment (`Recovery.lean`), and both can be
applied to what went before.  Allowed are the requests for which the books have ids left and the
updates for which the synthesizer has room; past these the readers' tables are too short, and an
update would reach the thread that it cannot take. -/
theorem refines_floor (hc : c < kMaxNumClients) (hcfg : Configured algo cfg)
    (hinit : init c algo cfg maxLoss = .ok s) (hallowed : Run.EachStep step Allowed s events)
    (hrun : events.foldlM step s = .ok s') : TradingFloor.init c algo cfg maxLoss = .ok s.floor ∧
      ∃ es, Run.EachStep TradingFloor.step TradingFloor.Allowed s.floor es ∧
        es.foldlM TradingFloor.step s.floor = .ok s'.floor := by
  obtain ⟨hinv, hfloor⟩ := init_inv hinit
  exact ⟨hfloor, hallowed.refinement (fun _ _ _ h he hstep => h.step hc hcfg he hstep) hinv hrun⟩

theorem refines_floor_quoted_beside_feed : ∃ s s', init 1 .maker Trading.TradingFloor.makerCfg
      (fun _ => -1000) = .ok s ∧ quotedBesideFeed.foldlM step s = .ok s' ∧
    TradingFloor.init 1 .maker Trading.TradingFloor.makerCfg (fun _ => -1000) = .ok s.floor ∧
      ∃ es, Run.EachStep TradingFloor.step TradingFloor.Allowed s.floor es ∧
        es.foldlM TradingFloor.step s.floor = .ok s'.floor := by
  obtain ⟨s, s', hinit, hallowed, hrun, -⟩ := quotedBesideFeed_runs
  exact ⟨s, s', hinit, hrun,
    refines_floor (by decide) Trading.TradingFloor.makerCfg_configured hinit hallowed hrun⟩

end Runs

end ClosedLoop

end YQuant
