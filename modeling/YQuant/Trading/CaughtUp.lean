/-
# The client catches up

What does a client see of the exchange?  When the consumer expects the number after the last update
and its thread has taken everything, each of the thread's books reproduces the exchange's book of
the symbol (`Reproduces`): the same levels, best first, the same queues at them, and on either side
the exchange's best price with its total, where that fits into 32 bits (`caught_up`).

And it can always get there.  From any state, whatever has been lost before, the newest update and
one cycle made after it are enough (`resync_catches_up`): a consumer that is in a recovery ends it
with that cycle, one that has missed anything notices by the newest update, and one that has missed
nothing drops the cycle.

The first result is about a state, the second one about steps that can be taken from it, and both
are about the reachable states of the whole loop.  That a client does catch up is not said: the
newest update and the cycle have to arrive, which nobody promises, and the exchange may go on
meanwhile.  What is said is that nothing that was lost before, no matter when and on which channel,
can leave a client in a state from which these two messages do not bring it back.

A cycle needs room in the synthesizer's pool for all live orders, at every place of the stream, and
the loop's requests need ids; both come in as conditions, and neither is checked by the code
(`Lifetime.lean`).
-/
import YQuant.Trading.BestBidOffer
import YQuant.Trading.ClosedLoop

namespace YQuant

open SnapshotSynthesizer.Mirrors (cycleMessages)

/-! ## 1. A book that reproduces another -/

namespace MarketOrderBook

/-- A client's book shows what an exchange's book has queued. -/
structure Reproduces (m : MarketOrderBook) (b : BookCore) : Prop where
  levels : ∀ side, side.Directional → ∀ price queue, (side, price, queue) ∈ m.view side ↔
    queue ≠ [] ∧ ∃ t, t < kTickCount ∧ b.band.toPrice t = price ∧ b.ordersAt side t = queue
  sorted : ∀ side, side.Directional →
    (m.view side).Pairwise fun e e' => addAfter side e'.2.1 e.2.1 = true
  /-- A total of the best tick that does not fit into 32 bits is shown wrong. -/
  best : ∀ side, side.Directional →
    (∀ t : Nat, (b.levels side).bestTick = t → queuedQuantity (b.ordersAt side t) < kWord32) →
      ReportsSide b m.bbo side

section Reproduces

variable {m : MarketOrderBook} {addr : Nat → Nat} {ladder : Side → List Rung} {l : List LiveOrder}
  {side : Side}

theorem Mirrors.mem_view (h : m.Mirrors addr ladder l) (hs : side.Directional) {price : Int}
    {queue : List LiveOrder} : (side, price, queue) ∈ m.view side ↔
      queue ≠ [] ∧ restingAt l side price = queue := by
  rw [h.view_eq hs, List.mem_map]
  constructor
  · rintro ⟨p, hp, heq⟩
    obtain ⟨-, heq⟩ := Prod.mk.inj heq
    obtain ⟨rfl, rfl⟩ := Prod.mk.inj heq
    exact ⟨(h.rung side hs p).mp (List.mem_map.mp hp), rfl⟩
  · rintro ⟨hne, rfl⟩
    exact ⟨price, List.mem_map.mpr ((h.rung side hs price).mpr hne), rfl⟩

/-- **A book that mirrors and shows the orders of an exchange's book reproduces it.** -/
theorem Mirrors.reproduces {b : BookCore} {x : IndexedBook} {addr' : Nat → Nat}
    (h : m.Mirrors addr ladder x.live) (hshow : m.Shows x.live) (hrep : b.Rep addr' x)
    (hinv : IndexedBook.Inv b.band x) (hband : b.band.isValid = true)
    (hprices : ∀ o ∈ x.live, b.band.InBand o.price) :
    m.Reproduces b where
  levels side hs price queue := by
    rw [h.mem_view hs]
    refine and_congr_right fun hne => ?_
    constructor
    · rintro rfl
      obtain ⟨o, ho⟩ := List.exists_mem_of_ne_nil _ hne
      obtain ⟨ho, -, hprice⟩ := mem_restingAt.mp ho
      obtain ⟨t, ht, -, hto⟩ := PriceBand.toTick_of_inBand hband (hprices o ho)
      rw [hprice] at hto
      exact ⟨t, ht, hto.symm, by rw [hrep.ordersAt_eq hs, hto]⟩
    · rintro ⟨t, -, rfl, rfl⟩
      rw [hrep.ordersAt_eq hs]
  sorted side hs := by
    rw [h.view_eq hs, List.pairwise_map, List.pairwise_map]
    exact (h.levels.sides side hs).sorted
  best side hs htotal := hrep.reportsSide hinv hshow hs fun t ht => by
    rw [← hrep.ordersAt_eq hs]
    exact htotal t ht

end Reproduces

end MarketOrderBook

/-! ## 2. Nothing is on the way -/

namespace ClosedLoop

open Trading (AlgoType TradeEngineCfg TradingFloor Configured liveOrders)

/-- The consumer has forwarded everything, and the thread has taken it. -/
structure CaughtUp (s : ClosedLoop) : Prop where
  inStep : s.consumer.inRecovery = false
  complete : s.consumer.nextExpIncSeqNum = s.updates.length + 1
  taken : s.floor.delivered = s.consumer.incomingMdUpdates

section CaughtUp

variable {c : Nat} {algo : AlgoType} {cfg : Nat → TradeEngineCfg} {maxLoss : Nat → ℚ}
  {s s' : ClosedLoop} {events : List Event}

/-- What the thread has taken leads to what the exchange holds. -/
theorem Inv.liveOrders_eq (h : Inv c algo cfg s) (hcaught : s.CaughtUp) {xs : IndexedBooks}
    (hreports : s.floor.engine.Reports xs) (symbol : Nat) :
    liveOrders s.floor.delivered symbol = (xs symbol).live := by
  obtain ⟨anchor, ha⟩ := h.anchored
  obtain ⟨n, -, hfold, hnext⟩ := ha.consumer.synced
  have hn : n = s.updates.length := by
    have hexpected := hnext hcaught.inStep
    have hcomplete := hcaught.complete
    omega
  have hall : s.consumer.incomingMdUpdates.foldl replayMarket .empty = xs.live := by
    rw [hfold, hn, marketAt_length]
    exact hreports.live
  have hsymbol := congrFun hall symbol
  rw [foldl_replayMarket_at] at hsymbol
  rw [hcaught.taken]
  exact hsymbol

/-- **A client that has caught up sees the exchange**, in every state that is reached: each book of
its thread reproduces the exchange's book of the symbol.  The updates that were forwarded lead to
the live orders of the whole stream, whether they came one by one or through snapshots, and these
are the orders of the books.  The quantity of the best price is the exchange's where that fits into
32 bits. -/
theorem caught_up (hc : c < kMaxNumClients) (hcfg : Configured algo cfg)
    (hinit : init c algo cfg maxLoss = .ok s) (hallowed : Run.EachStep step Allowed s events) :
    Run.Always step (fun s => s.CaughtUp → ∀ symbol, symbol < kMaxSymbols →
      ∃ b, s.floor.engine.symbolOrderBook symbol = some b ∧
        (s.floor.thread.tickerOrderBook symbol).Reproduces b) s events := by
  refine (run_inv hc hcfg hinit hallowed).mono fun s h hcaught symbol hsymbol => ?_
  obtain ⟨xs, hreports⟩ := h.market
  obtain ⟨b, hb, hsim⟩ := hreports.simulates symbol hsymbol
  obtain ⟨addr', hrep⟩ := hsim.rep
  have hfollows := h.floor.books symbol hsymbol
  rw [h.liveOrders_eq hcaught hreports symbol] at hfollows
  obtain ⟨addr, ladder, hmirrors⟩ := hfollows.mirrors
  refine ⟨b, hb, hmirrors.reproduces hfollows.shows hrep (hsim.band ▸ hsim.inv) ?_ ?_⟩
  · rw [hsim.band]
    decide
  · rw [hsim.band]
    exact hfollows.prices

/-- The market maker has seen both orders, and they are all there is. -/
theorem caught_up_two_orders : ∃ s s', init 1 .maker Trading.TradingFloor.makerCfg
      (fun _ => -1000) = .ok s ∧ (quotedBesideFeed.take 9).foldlM step s = .ok s' ∧
    ∃ b, s'.floor.engine.symbolOrderBook 0 = some b ∧
      (s'.floor.thread.tickerOrderBook 0).Reproduces b := by
  obtain ⟨s, hinit, hcheck⟩ : ∃ s, init 1 .maker Trading.TradingFloor.makerCfg
        (fun _ => -1000) = .ok s ∧
      (decide (Run.EachStep step Allowed s (quotedBesideFeed.take 9)) &&
        returns (fun s' => decide (s'.consumer.inRecovery = false ∧
          s'.consumer.nextExpIncSeqNum = (s'.updates.length : Int) + 1 ∧
          s'.floor.delivered = s'.consumer.incomingMdUpdates))
          ((quotedBesideFeed.take 9).foldlM step s)) = true :=
    exists_of_returns (by decide +kernel)
  rw [Bool.and_eq_true] at hcheck
  obtain ⟨s', hrun, hend⟩ := exists_of_returns hcheck.2
  obtain ⟨hinStep, hcomplete, htaken⟩ := of_decide_eq_true hend
  have hall := caught_up (by decide) Trading.TradingFloor.makerCfg_configured hinit
    (of_decide_eq_true hcheck.1)
  exact ⟨s, s', hinit, hrun,
    hall.of_foldlM hrun ⟨hinStep, hcomplete, htaken⟩ 0 (by decide)⟩

end CaughtUp

end ClosedLoop

/-! ## 3. A cycle and the newest update -/

namespace MarketDataConsumer

variable {c : MarketDataConsumer} {r : MarketDataPublisherMarketUpdate} {n : Nat}
  {body : List MatchingEngineMarketUpdate} {cycle : List MarketDataPublisherMarketUpdate}

/-- Outside a recovery a cycle is dropped. -/
theorem cycle_unwanted (hrec : c.inRecovery = false) : cycle.foldl (recvRecord true) c = c := by
  induction cycle with
  | nil => rfl
  | cons r rs ih => rw [List.foldl_cons, recvRecord_unwanted hrec, ih]

/-- **A whole cycle ends a recovery** when nothing that waits is newer than the cycle. -/
theorem cycle_ends_recovery (hrec : c.inRecovery = true)
    (hclean : Clean c.snapshotQueuedMsgs.toList)
    (hcycle : IsCycle n body cycle) (hshort : n < 2 ^ 63)
    (hold : ∀ e ∈ c.incrementalQueuedMsgs.toList, e.1 ≤ n) :
    cycle.foldl (recvRecord true) c = ⟨n + 1, false, ∅, ∅, c.incomingMdUpdates ++ body⟩ := by
  have hne : cycle ≠ [] := by
    rw [hcycle.records]
    exact List.cons_ne_nil _ _
  have hstart : Collecting [] c.incomingMdUpdates c := ⟨hrec, rfl, hclean, fun h => absurd rfl h⟩
  have hsplit : cycle = cycle.dropLast ++ [cycle.getLast hne] :=
    (List.dropLast_append_getLast hne).symm
  have hsplit' : cycle = [] ++ (cycle.dropLast ++ [cycle.getLast hne]) := hsplit
  obtain ⟨hmost, hincrementals⟩ := hstart.recvSnapshots hcycle hsplit' (List.cons_ne_nil _ _)
  rw [List.nil_append] at hmost
  have hqueued : ∀ i : Nat, (cycle.dropLast.foldl (recvRecord true) c).incrementalQueuedMsgs[
      (n + 1 + i : Int)]? = ([] : List MatchingEngineMarketUpdate)[i]? := by
    intro i
    rw [hincrementals]
    cases hget : c.incrementalQueuedMsgs[(n + 1 + i : Int)]? with
    | none => rfl
    | some u =>
      have hle := hold _ (Std.TreeMap.mem_toList_iff_getElem?_eq_some.mpr hget)
      omega
  have hdone := hmost.complete hcycle hsplit hshort hqueued
  have hfold : cycle.foldl (recvRecord true) c =
      recvRecord true (cycle.dropLast.foldl (recvRecord true) c) (cycle.getLast hne) := by
    conv_lhs => rw [hsplit, List.foldl_append]
    rfl
  rw [hfold, hdone]
  simp

/-- A consumer that has met a record is in a recovery, or expects a later one. -/
theorem recvRecord_notices (hclean : Clean c.snapshotQueuedMsgs.toList) (hseq : ¬ r.seqNum < 0) :
    (recvRecord false c r).inRecovery = true ∨
      r.seqNum < (recvRecord false c r).nextExpIncSeqNum := by
  cases hrec : c.inRecovery with
  | true =>
    left
    rw [recvRecord_recovering hrec false hseq, queueMessage_incremental,
      checkSnapshotSync_clean (by exact hclean)]
    exact hrec
  | false =>
    rcases Int.lt_trichotomy r.seqNum c.nextExpIncSeqNum with hlt | heq | hgt
    · right
      rw [recvRecord_old hrec hlt]
      exact hlt
    · right
      rw [recvRecord_next hrec hseq heq]
      simp only
      omega
    · left
      rw [recvRecord_gap hrec hseq hgt, queueMessage_incremental,
        checkSnapshotSync_clean Clean.empty]
      rfl

end MarketDataConsumer

namespace ClosedLoop

open Trading (AlgoType TradeEngineCfg TradingFloor Configured)

/-- The publisher and the synthesizer take what waits for them and a cycle is sent; then the newest
update arrives, and the datagrams of the cycle. -/
def resync (s : ClosedLoop) (cycle : List MarketDataPublisherMarketUpdate) : List Event :=
  List.replicate (s.updates.length - s.publisher.incremental.length) .publish ++
    List.replicate (s.updates.length - s.added) .addToSnapshot ++
    [.publishSnapshot, .recvIncremental ((numbered 1 s.updates).drop (s.updates.length - 1))] ++
    (List.range' s.snapshots.length (snapshotDatagrams cycle).length).map .recvSnapshot

section Resync

variable {c : Nat} {algo : AlgoType} {cfg : Nat → TradeEngineCfg} {maxLoss : Nat → ℚ}
  {s s' : ClosedLoop} {events : List Event}

/-- What the publisher and the synthesizer leave alone when they catch up. -/
structure SameClient (s s' : ClosedLoop) : Prop where
  floor : s'.floor = s.floor
  snapshots : s'.snapshots = s.snapshots
  arrived : s'.arrived = s.arrived
  consumer : s'.consumer = s.consumer

theorem SameClient.updates (h : SameClient s s') : s'.updates = s.updates := by
  rw [ClosedLoop.updates, h.floor, ClosedLoop.updates]

theorem SameClient.trans {s'' : ClosedLoop} (h : SameClient s s') (h' : SameClient s' s'') :
    SameClient s s'' :=
  ⟨h'.floor.trans h.floor, h'.snapshots.trans h.snapshots, h'.arrived.trans h.arrived,
    h'.consumer.trans h.consumer⟩

/-- The publisher has taken everything. -/
theorem Inv.publisher_complete (h : Inv c algo cfg s)
    (hall : s.publisher.incremental.length = s.updates.length) :
    s.publisher.incremental = numbered 1 s.updates ∧
      s.publisher.snapshotMdUpdates = numbered 1 s.updates := by
  obtain ⟨n, -, hn, hrun⟩ := h.publisher
  have hlen : n = s.updates.length := by
    rw [hrun, (run_publish _).1, length_numbered, List.length_take, min_eq_left hn] at hall
    exact hall
  rw [hrun, (run_publish _).1, (run_publish _).2, hlen, List.take_length]
  exact ⟨rfl, rfl⟩

/-- **The publisher catches up.** -/
theorem Inv.publish_all (h : Inv c algo cfg s) : ∃ s', Run.Leads ClosedLoop.step Allowed s
      (List.replicate (s.updates.length - s.publisher.incremental.length) .publish) s' ∧
    Inv c algo cfg s' ∧ SameClient s s' ∧ s'.added = s.added ∧
      s'.publisher.incremental.length = s.updates.length := by
  have hle : s.publisher.incremental.length ≤ s.updates.length := by
    obtain ⟨n, -, hn, hrun⟩ := h.publisher
    rw [hrun, (run_publish _).1, length_numbered, List.length_take]
    exact min_le_right _ _
  refine Run.Leads.replicate (I := fun n s' => Inv c algo cfg s' ∧ SameClient s s' ∧
    s'.added = s.added ∧ s'.publisher.incremental.length + n = s.updates.length) ?_
    ⟨h, ⟨rfl, rfl, rfl, rfl⟩, rfl, by omega⟩
  rintro n s' ⟨hinv, hsame, hadded, hlen⟩
  obtain ⟨s'', hstep, -, hinv'⟩ := hinv.publish
  have hlt : s'.publisher.incremental.length < s'.updates.length := by
    rw [hsame.updates]
    omega
  have hstep' := hstep
  simp only [ClosedLoop.step, List.getElem?_eq_getElem hlt] at hstep'
  cases hstep'
  refine ⟨trivial, _, hstep, hinv', hsame.trans ⟨rfl, rfl, rfl, rfl⟩, hadded, ?_⟩
  simp only [MarketDataPublisher.publish, List.length_append, List.length_singleton]
  omega

/-- **The synthesizer catches up**, when its pool holds the live orders at every place. -/
theorem Inv.add_all (h : Inv c algo cfg s)
    (hall : s.publisher.incremental.length = s.updates.length)
    (hroom : ∀ n, n ≤ s.updates.length → (marketAt s.updates n).total ≤ kMaxOrderIds) :
    ∃ s', Run.Leads ClosedLoop.step Allowed s
        (List.replicate (s.updates.length - s.added) .addToSnapshot) s' ∧
      Inv c algo cfg s' ∧ SameClient s s' ∧ s'.publisher = s.publisher ∧
        s'.added = s.updates.length := by
  have hadded := h.added_le
  refine Run.Leads.replicate (I := fun n s' => Inv c algo cfg s' ∧ SameClient s s' ∧
    s'.publisher = s.publisher ∧ s'.added + n = s.updates.length) ?_
    ⟨h, ⟨rfl, rfl, rfl, rfl⟩, rfl, by omega⟩
  rintro n s' ⟨hinv, hsame, hpublisher, hlen⟩
  have hallowed : s'.Allowed .addToSnapshot := by
    change (marketAt s'.updates (s'.added + 1)).total ≤ kMaxOrderIds
    rw [hsame.updates]
    exact hroom _ (by omega)
  obtain ⟨s'', hstep, -, hinv'⟩ := hinv.addToSnapshot hallowed
  have hlt : s'.added < s'.publisher.snapshotMdUpdates.length := by
    rw [hpublisher, (h.publisher_complete hall).2, length_numbered]
    omega
  have hstep' := hstep
  simp only [ClosedLoop.step, List.getElem?_eq_getElem hlt] at hstep'
  obtain ⟨synthesizer, -, hdone⟩ := bind_ok hstep'
  cases hdone
  refine ⟨hallowed, _, hstep, hinv', hsame.trans ⟨rfl, rfl, rfl, rfl⟩, hpublisher, ?_⟩
  dsimp only
  omega

/-- **Datagrams that arrive one after another** arrive as their records do. -/
theorem recv_all : ∀ {datagrams sent : List (List MarketDataPublisherMarketUpdate)}
    {s : ClosedLoop}, s.snapshots = sent ++ datagrams → s.arrived ≤ sent.length →
    ∃ s', Run.Leads ClosedLoop.step Allowed s
        ((List.range' sent.length datagrams.length).map .recvSnapshot) s' ∧
      s'.floor = s.floor ∧ s'.consumer =
        datagrams.flatten.foldl (MarketDataConsumer.recvRecord true) s.consumer
  | [], sent, s, _, _ => ⟨s, .nil s, rfl, rfl⟩
  | d :: ds, sent, s, hsnapshots, harrived => by
    have hget : s.snapshots[sent.length]? = some d := by
      rw [hsnapshots, List.getElem?_append_right le_rfl, Nat.sub_self, List.getElem?_cons_zero]
    obtain ⟨s', hleads, hfloor, hconsumer⟩ := @recv_all ds (sent ++ [d])
      { s with
        arrived := sent.length
        consumer := s.consumer.recvCallback ⟨true, d⟩ }
      (by rw [hsnapshots, List.append_assoc]; rfl) (by simp)
    refine ⟨s', ?_, hfloor, ?_⟩
    · rw [List.length_cons, List.range'_succ, List.map_cons]
      rw [List.length_append, List.length_singleton] at hleads
      exact .cons harrived (by simp only [ClosedLoop.step, hget]) hleads
    · rw [hconsumer, List.flatten_cons, List.foldl_append, MarketDataConsumer.recvCallback_eq]

/-- What is newest is among what was sent. -/
theorem Inv.newest_allowed (h : Inv c algo cfg s)
    (hall : s.publisher.incremental.length = s.updates.length) :
    s.Allowed (.recvIncremental ((numbered 1 s.updates).drop (s.updates.length - 1))) := by
  intro r hr
  rw [(h.publisher_complete hall).1]
  exact List.mem_of_mem_drop hr

/-- **The newest update** shows a consumer what it has missed. -/
theorem Inv.newest_notices (h : Inv c algo cfg s) (hinv' : Inv c algo cfg s')
    (hupdates : s'.updates = s.updates) (hconsumer : s'.consumer = s.consumer.recvCallback
      ⟨false, (numbered 1 s.updates).drop (s.updates.length - 1)⟩)
    (hrec : s'.consumer.inRecovery = false) :
    s'.consumer.nextExpIncSeqNum = s.updates.length + 1 := by
  obtain ⟨anchor, ha⟩ := hinv'.anchored
  obtain ⟨n, hn, -, hnext⟩ := ha.consumer.synced
  rw [hupdates] at hn
  have hnext := hnext hrec
  rcases Nat.eq_zero_or_pos s.updates.length with hnone | hpos
  · omega
  · -- the newest update is the one after all others
    have hlt : s.updates.length - 1 < (numbered 1 s.updates).length := by
      rw [length_numbered]
      omega
    obtain ⟨u, hu⟩ : ∃ u, (numbered 1 s.updates).drop (s.updates.length - 1) =
        [⟨(s.updates.length : Nat), u⟩] := by
      have hget : (numbered 1 s.updates)[s.updates.length - 1]? = some _ :=
        List.getElem?_eq_getElem hlt
      rw [List.drop_eq_getElem_cons hlt, List.drop_eq_nil_of_le (by rw [length_numbered]; omega)]
      rw [getElem?_numbered] at hget
      obtain ⟨u, -, hrecord⟩ := Option.map_eq_some_iff.mp hget
      refine ⟨u, ?_⟩
      rw [← hrecord]
      congr 3
      omega
    have hconsumer : s'.consumer = MarketDataConsumer.recvRecord false s.consumer
        ⟨(s.updates.length : Nat), u⟩ := by
      rw [hconsumer, hu, MarketDataConsumer.recvCallback_eq]
      rfl
    have hnotices := MarketDataConsumer.recvRecord_notices (r := ⟨(s.updates.length : Nat), u⟩)
      h.clean (by simp)
    rw [← hconsumer] at hnotices
    rcases hnotices with hon | hlater
    · rw [hrec] at hon
      cases hon
    · simp only at hlater
      omega

/-- What the synthesizer sends is a cycle. -/
theorem isCycle_cycleMessages (M : Market) (n : Nat) :
    MarketDataConsumer.IsCycle n (cycleBody M) (numbered 0 (cycleMessages M n)) where
  types := by
    intro u hu
    obtain ⟨symbol, -, hu⟩ := List.mem_flatMap.mp hu
    rcases List.mem_cons.mp hu with rfl | hu
    · exact .inl rfl
    · obtain ⟨o, -, rfl⟩ := List.mem_map.mp hu
      exact .inr rfl
  records := rfl

/-- **From anywhere to the newest update.** -/
theorem Inv.resync (h : Inv c algo cfg s) (hc : c < kMaxNumClients) (hcfg : Configured algo cfg)
    (hroom : ∀ n, n ≤ s.updates.length → (marketAt s.updates n).total ≤ kMaxOrderIds) :
    ∃ cycle s', Run.Leads ClosedLoop.step Allowed s (s.resync cycle) s' ∧ s'.floor = s.floor ∧
      s'.consumer.inRecovery = false ∧ s'.consumer.nextExpIncSeqNum = s.updates.length + 1 := by
  have hshort : s.updates.length < 2 ^ 63 := by
    obtain ⟨xs, hreports⟩ := h.market
    exact hreports.short
  obtain ⟨s₁, hpublish, h₁, hsame₁, hadded₁, hall₁⟩ := h.publish_all
  have hupdates₁ := hsame₁.updates
  rw [← hupdates₁] at hroom hall₁
  obtain ⟨s₂, hadd, h₂, hsame₂, hpublisher₂, hadded₂⟩ := h₁.add_all hall₁ hroom
  have hupdates₂ := hsame₂.updates.trans hupdates₁
  rw [hupdates₁, hadded₁] at hadd
  rw [hupdates₁] at hadded₂ hall₁
  -- the cycle is sent
  let cycle := numbered 0 (cycleMessages (marketAt s.updates s.updates.length) s.updates.length)
  have hiscycle : MarketDataConsumer.IsCycle s.updates.length
      (cycleBody (marketAt s.updates s.updates.length)) cycle := isCycle_cycleMessages _ _
  have hsend : s₂.step .publishSnapshot = .ok { s₂ with
      snapshots := s₂.snapshots ++ snapshotDatagrams cycle } := by
    simp only [ClosedLoop.step, h₂.cycle, ok_bind, hupdates₂, hadded₂, cycle]
  obtain ⟨h₃, -⟩ := h₂.step hc hcfg (e := .publishSnapshot) trivial hsend
  generalize hs₃ : ({ s₂ with
    snapshots := s₂.snapshots ++ snapshotDatagrams cycle } : ClosedLoop) = s₃ at hsend h₃
  have hupdates₃ : s₃.updates = s.updates := by
    rw [← hs₃]
    exact hupdates₂
  have hpublisher₃ : s₃.publisher.incremental.length = s₃.updates.length := by
    rw [hupdates₃, ← hs₃, hpublisher₂, hall₁]
  -- the newest update arrives
  have hnewest := h₃.newest_allowed hpublisher₃
  obtain ⟨s₄, hrecv, -, h₄⟩ := h₃.recvIncremental hnewest
  have hs₄ := hrecv
  simp only [ClosedLoop.step, Except.ok.injEq] at hs₄
  rw [hupdates₃] at hrecv hnewest
  have hupdates₄ : s₄.updates = s₃.updates := by
    rw [← hs₄]
    rfl
  have hnotices := h₃.newest_notices h₄ hupdates₄ (by rw [← hs₄])
  have hold : ∀ e ∈ s₄.consumer.incrementalQueuedMsgs.toList, e.1 ≤ (s.updates.length : Int) := by
    obtain ⟨anchor, ha⟩ := h₄.anchored
    intro e he
    obtain ⟨i, hi, hseq⟩ := ha.consumer.incremental e he
    have hlt := (List.getElem?_eq_some_iff.mp hi).1
    rw [hupdates₄, hupdates₃] at hlt
    omega
  -- and then the cycle
  have hsnapshots : s₄.snapshots = s.snapshots ++ snapshotDatagrams cycle := by
    rw [← hs₄, ← hs₃]
    simp only [hsame₂.snapshots, hsame₁.snapshots]
  have harrived : s₄.arrived ≤ s.snapshots.length := by
    obtain ⟨anchor, ha⟩ := h.anchored
    rw [← hs₄, ← hs₃]
    simp only [hsame₂.arrived, hsame₁.arrived]
    exact ha.arrived
  obtain ⟨s₅, hall, hfloor, hconsumer⟩ := recv_all hsnapshots harrived
  rw [flatten_snapshotDatagrams] at hconsumer
  have hsent : Run.Leads ClosedLoop.step Allowed s₂ [.publishSnapshot,
      .recvIncremental ((numbered 1 s.updates).drop (s.updates.length - 1))] s₄ := by
    refine .cons ?_ hsend (.single hnewest hrecv)
    exact trivial
  refine ⟨cycle, s₅, ((hpublish.append hadd).append hsent).append hall, ?_, ?_⟩
  · rw [hfloor, ← hs₄, ← hs₃]
    exact hsame₂.floor.trans hsame₁.floor
  · cases hrec : s₄.consumer.inRecovery with
    | true =>
      rw [hconsumer, MarketDataConsumer.cycle_ends_recovery hrec h₄.clean hiscycle hshort hold]
      exact ⟨rfl, rfl⟩
    | false =>
      rw [hconsumer, MarketDataConsumer.cycle_unwanted hrec, hnotices hrec, hupdates₃]
      exact ⟨hrec, rfl⟩

/-- **A client can always catch up.**  From every state that is reached, whatever has been lost on
either channel, the newest update and one whole cycle bring the consumer to the end of the stream.
If the consumer has missed anything, the newest update either shows it the gap or finds it in a
recovery; the cycle is then collected message by message, because whatever is left in the snapshot
queue is dropped by its first message, and its last one ends the recovery, as nothing that waits is
newer.  A consumer that has missed nothing drops the cycle.  The exchange and the thread need not
do anything.

Three things are not said.  The two have to arrive, which no channel promises.  The live orders
have to fit into the synthesizer's pool at every point of the stream (`hroom`), or there is no
cycle.  And it takes a stream that stands still meanwhile: if the exchange goes on, the client has
caught up with what was published when the cycle was made, and the updates after it have to arrive
as usual. -/
theorem resync_catches_up (hc : c < kMaxNumClients) (hcfg : Configured algo cfg)
    (hinit : init c algo cfg maxLoss = .ok s) (hallowed : Run.EachStep step Allowed s events)
    (hrun : events.foldlM step s = .ok s')
    (hroom : ∀ n, n ≤ s'.updates.length → (marketAt s'.updates n).total ≤ kMaxOrderIds) :
    ∃ cycle s'', Run.EachStep step Allowed s' (s'.resync cycle) ∧
      (s'.resync cycle).foldlM step s' = .ok s'' ∧ s''.floor = s'.floor ∧
      s''.consumer.inRecovery = false ∧
      s''.consumer.nextExpIncSeqNum = s'.updates.length + 1 := by
  obtain ⟨cycle, s'', hleads, hdone⟩ :=
    ((run_inv hc hcfg hinit hallowed).of_foldlM hrun).resync hc hcfg hroom
  exact ⟨cycle, s'', hleads.eachStep, hleads.foldlM, hdone⟩

/-- The first of two updates is lost, and the second starts a recovery. -/
def firstLost : List Event :=
  [.floor (.otherRequest ⟨.new, 2, 0, 1, .buy, 100, 4⟩), .publish,
    .floor (.otherRequest ⟨.new, 2, 0, 2, .sell, 104, 4⟩), .publish,
    .recvIncremental [⟨2, ⟨.add, 0, 2, .sell, 104, 4, 1⟩⟩]]

theorem resync_catches_up_first_lost : ∃ s s', init 1 .maker Trading.TradingFloor.makerCfg
      (fun _ => -1000) = .ok s ∧ firstLost.foldlM step s = .ok s' ∧
    s'.consumer.inRecovery = true ∧ ∃ cycle s'', Run.EachStep step Allowed s' (s'.resync cycle) ∧
      (s'.resync cycle).foldlM step s' = .ok s'' ∧ s''.floor = s'.floor ∧
      s''.consumer.inRecovery = false ∧
      s''.consumer.nextExpIncSeqNum = s'.updates.length + 1 := by
  obtain ⟨s, hinit, hcheck⟩ : ∃ s, init 1 .maker Trading.TradingFloor.makerCfg
        (fun _ => -1000) = .ok s ∧
      (decide (Run.EachStep step Allowed s firstLost) &&
        returns (fun s' => decide (s'.consumer.inRecovery = true ∧
          ∀ n, n ≤ s'.updates.length → (marketAt s'.updates n).total ≤ kMaxOrderIds))
          (firstLost.foldlM step s)) = true :=
    exists_of_returns (by decide +kernel)
  rw [Bool.and_eq_true] at hcheck
  obtain ⟨s', hrun, hend⟩ := exists_of_returns hcheck.2
  obtain ⟨hrec, hroom⟩ := of_decide_eq_true hend
  exact ⟨s, s', hinit, hrun, hrec, resync_catches_up (by decide)
    Trading.TradingFloor.makerCfg_configured hinit (of_decide_eq_true hcheck.1) hrun hroom⟩

end Resync

end ClosedLoop

end YQuant
