/-
# The loop on the wire

The loop of `ClosedLoop.lean` passes records.  Here its datagrams are bytes: the synthesizer writes
its cycles to the socket, and the consumer reads what arrives into the buffers of its two sockets.

The records of both are the same (`refines_records`): whatever the channels do, a run on the wire
is a run of the loop, with the same events, and so is the step that comes next, also when it fails.
It takes requests of 32 bits and a publisher that has numbers left; the engine's messages and the
synthesizer's cycles then fit their records.  The batches of the publisher arrive only when they
are not too long (`PublisherOutput.lean`), so that condition stays.

Two things could come apart.  A field may not fit its record, and then a consumer reads another
value; `Fits` and the engine's own bounds exclude it.  And a buffer may be left with a piece of a
record, and then everything behind it is shifted; that every datagram holds whole records excludes
it (`Inv`).

What the channels do is the same on both levels, so that the loop's results hold on the wire
without being proved again.  The connection to the order server is not part of this
(`ExactlyOnce.lean`).
-/
import YQuant.Trading.ClosedLoop
import YQuant.Trading.ReceiveBuffers

namespace YQuant

open SnapshotSynthesizer.Mirrors (cycleMessages)

/-! ## 1. What a cycle lists fits -/

/-- The fields of a live order that no reader checks. -/
def LiveOrder.Sized (o : LiveOrder) : Prop := o.quantity < kWord32 ∧ o.priority < kWord64

/-- An update that fits leaves live orders that do. -/
theorem sized_replay {l : List LiveOrder} {u : MatchingEngineMarketUpdate}
    (h : ∀ o ∈ l, o.Sized) (hu : u.InRange) : ∀ o ∈ replay l u, o.Sized := by
  intro o ho
  unfold replay at ho
  split at ho
  · rcases List.mem_append.mp ho with ho | ho
    · exact h o ho
    · rw [List.mem_singleton.mp ho]
      exact ⟨hu.quantity, hu.priority⟩
  · obtain ⟨o', ho', rfl⟩ := List.mem_map.mp ho
    split
    · exact ⟨hu.quantity, (h o' ho').2⟩
    · exact h o' ho'
  · exact h o (List.mem_filter.mp ho).1
  · cases ho
  all_goals exact h o ho

theorem sized_marketAt {us : List MatchingEngineMarketUpdate} (h : ∀ u ∈ us, u.InRange)
    (n symbol : Nat) : ∀ o ∈ marketAt us n symbol, o.Sized := by
  refine List.foldlRecOn (us.take n) replayMarket (motive := fun M => ∀ s, ∀ o ∈ M s, o.Sized)
    (fun _ o (ho : o ∈ []) => absurd ho List.not_mem_nil) (fun M hM u hu s => ?_) symbol
  rw [replayMarket, Function.update_apply]
  split
  · exact sized_replay (hM _) (h u (List.mem_of_mem_take hu))
  · exact hM s

/-- **The messages of a cycle fit** when the live orders do. -/
theorem cycleMessages_inRange {M : Market} {n : Nat} (hM : ConsistentMarket M)
    (hsized : ∀ symbol, ∀ o ∈ M symbol, o.Sized) (hn : n < kWord64) :
    ∀ u ∈ cycleMessages M n, u.InRange := by
  have hmark {type : MarketUpdateType} {symbol id : Nat}
      (htype : MarketUpdateType.ofByte type.toByte = type) (hsymbol : symbol < kWord32)
      (hid : id < kWord64) :
      MatchingEngineMarketUpdate.InRange ⟨type, symbol, id, .unset, 0, 0, 0⟩ :=
    ⟨htype, hsymbol, hid, rfl, rfl, kWord32_pos, kWord64_pos⟩
  intro u hu
  rcases List.mem_append.mp hu with hu | hu
  · rcases List.mem_cons.mp hu with rfl | hu
    · exact hmark rfl kWord32_pos hn
    · obtain ⟨symbol, hsymbol, hu⟩ := List.mem_flatMap.mp hu
      have hsymbol' : symbol < kWord32 :=
        (List.mem_range.mp hsymbol).trans_le (by decide : kMaxSymbols ≤ kWord32)
      rcases List.mem_cons.mp hu with rfl | hu
      · exact hmark rfl hsymbol' kWord64_pos
      · obtain ⟨o, ho, rfl⟩ := List.mem_map.mp hu
        obtain ⟨hquantity, hpriority⟩ := hsized symbol o ho
        have hcons := hM.1 symbol
        exact ⟨rfl, hsymbol', (hcons.small o ho).trans_le (by decide : kMaxOrderIds ≤ kWord64),
          (hcons.sides o ho).inRange, (hcons.prices o ho).inRange, hquantity, hpriority⟩
  · rw [List.mem_singleton.mp hu]
    exact hmark rfl kWord32_pos hn

theorem length_cycleMessages (M : Market) (n : Nat) :
    (cycleMessages M n).length = M.total + kMaxSymbols + 2 := by
  simp only [cycleMessages, Market.total, List.length_append, List.length_cons,
    List.length_flatMap, List.length_map, List.sum_map_add, List.map_const', List.sum_replicate,
    List.length_range, List.length_nil, smul_eq_mul]
  omega

/-! ## 2. What the engine writes fits -/

namespace MatchingEngine

/-- What the engine has published fits, and what rests in its books does. -/
structure Fits (m : MatchingEngine) (xs : IndexedBooks) : Prop where
  simulates : m.Simulates xs
  resting : xs.InRange
  updates : ∀ u ∈ m.outgoingMarketUpdates, u.InRange

theorem Fits.process {m m' : MatchingEngine} {xs : IndexedBooks} {r : MatchingEngineClientRequest}
    (h : m.Fits xs) (hdoc : r.Documented) (hquantity : r.type = .new → r.quantity < kWord32)
    (hprocess : m.processClientRequest r = .ok m') : m'.Fits (xs.step r) := by
  obtain ⟨m'', hprocess', hsim, hemits⟩ :=
    process_sim h.simulates (h.simulates.admits hdoc hprocess)
  obtain rfl := Except.ok.inj (hprocess.symm.trans hprocess')
  obtain ⟨hupdates, -, hresting⟩ := h.resting.request hdoc hquantity
  refine ⟨hsim, hresting, fun u hu => ?_⟩
  rw [hemits.updates] at hu
  rcases List.mem_append.mp hu with hu | hu
  · exact h.updates u hu
  · exact hupdates u hu

end MatchingEngine

namespace Trading

open OrderSession (Ask)

/-- An order that is to be entered has what its slot may still execute. -/
theorem TradingSystem.Synced.quantity_le {c : Nat} {s : TradingSystem} {xs : IndexedBooks}
    {r : MatchingEngineClientRequest} (h : Synced c s xs)
    (hr : r ∈ s.trader.outgoingOgwRequests) (htype : r.type = .new) :
    r.quantity ≤ s.trader.exposure r.symbolId r.side := by
  have hask : Ask.enter r.quantity ∈ asksOf s.trader.outgoingOgwRequests r.symbolId r.orderId :=
    mem_asksOf.mpr ⟨r, hr, ⟨rfl, rfl⟩, by rw [MatchingEngineClientRequest.ask?, htype]⟩
  exact (h.linked.placed _ _ _ (h.linked.entering r hr htype)).enter_le_atRisk hask

/-- **What the engine writes fits** after a step of the floor, too. -/
theorem TradingFloor.Inv.fits_step {c : Nat} {algo : AlgoType} {cfg : Nat → TradeEngineCfg}
    {s s' : TradingFloor} {e : TradingFloor.Event} (h : Inv c algo cfg s) (he : s.Allowed e)
    (hquantity : ∀ r, e = .otherRequest r → r.quantity < kWord32)
    (hfits : ∃ xs, s.engine.Fits xs) (hstep : s.step e = .ok s') : ∃ xs, s'.engine.Fits xs := by
  obtain ⟨xs, hfits⟩ := hfits
  rcases (h.engine_step he hstep).2 with hsame | ⟨-, r, hdoc, hr, hprocess⟩
  · exact ⟨xs, hsame ▸ hfits⟩
  · refine ⟨_, hfits.process hdoc (fun htype => ?_) hprocess⟩
    rcases hr with hr | hr
    · obtain ⟨ys, hs⟩ := h.sound.synced
      exact (hs.quantity_le hr htype).trans_lt (h.sound.sized _ _)
    · exact hquantity r hr

end Trading

/-! ## 3. The system -/

/-- A `ClosedLoop`, with the snapshot socket and the datagrams it has sent in place of their
records, and with the receive buffers of the consumer. -/
structure WireLoop where
  floor : Trading.TradingFloor
  publisher : MarketDataPublisher
  synthesizer : SnapshotSynthesizer
  added : Nat
  output : SnapshotOutput
  arrived : Nat
  consumer : BufferedConsumer

namespace WireLoop

open Trading (AlgoType TradeEngineCfg TradingFloor Configured)
open ClosedLoop (Event)

/-- The loop with the records of the datagrams. -/
def records (s : WireLoop) : ClosedLoop :=
  ⟨s.floor, s.publisher, s.synthesizer, s.added, s.output.sent.map incrementalCodec.frames,
    s.arrived,
    s.consumer.consumer⟩

/-- A step that touches no socket. -/
def withRecords (s : WireLoop) (loop : ClosedLoop) : WireLoop :=
  { s with
    floor := loop.floor
    publisher := loop.publisher
    synthesizer := loop.synthesizer
    added := loop.added }

def init (clientId : Nat) (algo : AlgoType) (tickerCfg : Nat → TradeEngineCfg) (maxLoss : Nat → ℚ)
    (incrementalMemory snapshotMemory : Nat → UInt8) : Except Fault WireLoop := do
  let floor ← TradingFloor.init clientId algo tickerCfg maxLoss
  .ok ⟨floor, .init, .init, 0, ⟨⟨[]⟩, []⟩, 0, .init incrementalMemory snapshotMemory⟩

def step (s : WireLoop) : Event → Except Fault WireLoop
  | .publishSnapshot => do
    let output ← s.output.publishSnapshot s.synthesizer
    .ok { s with output := output }
  | .recvIncremental records => do
    let consumer ← s.consumer.sendAndRecv false (incrementalBytes records)
    .ok { s with consumer := consumer }
  | .recvSnapshot place =>
    match s.output.sent[place]? with
    | none => .ok s
    | some datagram => do
      let consumer ← s.consumer.sendAndRecv true datagram
      .ok { s with
        arrived := place
        consumer := consumer }
  | .floor e => s.withRecords <$> s.records.step (.floor e)
  | .publish => s.withRecords <$> s.records.step .publish
  | .addToSnapshot => s.withRecords <$> s.records.step .addToSnapshot
  | .takeUpdate => s.withRecords <$> s.records.step .takeUpdate

/-- What is written fits: the requests of others have 32 bits, the publisher has numbers left, and a
datagram is not too long. -/
def Fits (s : WireLoop) : Event → Prop
  | .floor (.otherRequest r) => r.quantity < kWord32
  | .publish => s.publisher.incremental.length + 1 < 2 ^ 63
  | .recvIncremental records => (incrementalBytes records).length ≤ kMaxUdpPayload
  | .floor _ | .addToSnapshot | .publishSnapshot | .recvSnapshot _ | .takeUpdate => True

def Allowed (s : WireLoop) (e : Event) : Prop := s.records.Allowed e ∧ s.Fits e

instance (s : WireLoop) : (e : Event) → Decidable (s.Fits e)
  | .floor (.otherRequest _) => inferInstanceAs (Decidable (_ < _))
  | .publish => inferInstanceAs (Decidable (_ < _))
  | .recvIncremental _ => inferInstanceAs (Decidable (_ ≤ _))
  | .floor .takeResponse | .floor .takeRequest | .floor (.takeUpdate _) | .floor .stop
  | .addToSnapshot | .publishSnapshot | .recvSnapshot _ | .takeUpdate => isTrue trivial

instance (s : WireLoop) (e : Event) : Decidable (s.Allowed e) :=
  inferInstanceAs (Decidable (_ ∧ _))

/-! ## 4. The records are those of the loop -/

/-- What is written is read back, and no buffer waits for the rest of a record. -/
structure Inv (c : Nat) (algo : AlgoType) (cfg : Nat → TradeEngineCfg) (s : WireLoop) : Prop where
  records : ClosedLoop.Inv c algo cfg s.records
  engine : ∃ xs, s.floor.engine.Fits xs
  numbers : s.publisher.incremental.length < 2 ^ 63
  orders : s.synthesizer.orderPool.All (·.type = .add)
  drained : s.output.snapshotSocket = ⟨[]⟩
  sent : ∀ datagram ∈ s.output.sent, ∃ rs, datagram = incrementalBytes rs ∧
    (∀ r ∈ rs, r.InRange) ∧ datagram.length ≤ kMaxUdpPayload
  inbound : ∀ isSnapshot, (s.consumer.inbound isSnapshot).next = 0

section Steps

variable {c : Nat} {algo : AlgoType} {cfg : Nat → TradeEngineCfg} {maxLoss : Nat → ℚ}
  {s s' : WireLoop} {e : Event} {loop : ClosedLoop}

theorem Inv.updates (h : Inv c algo cfg s) : ∀ u ∈ s.records.updates, u.InRange := by
  obtain ⟨xs, hfits⟩ := h.engine
  exact hfits.updates

/-- What the publisher has numbered. -/
theorem Inv.numbered_eq (h : Inv c algo cfg s) : ∃ n, s.added ≤ n ∧ n < 2 ^ 63 ∧
    s.publisher.incremental = numbered 1 (s.records.updates.take n) := by
  obtain ⟨n, hadded, hn, hrun⟩ := h.records.publisher
  have hincremental : s.publisher.incremental = numbered 1 (s.records.updates.take n) := by
    change s.records.publisher.incremental = _
    rw [hrun, (run_publish _).1]
  have hnumbers := h.numbers
  rw [hincremental, length_numbered, List.length_take, min_eq_left hn] at hnumbers
  exact ⟨n, hadded, hnumbers, hincremental⟩

/-- What the publisher has sent fits. -/
theorem Inv.incremental (h : Inv c algo cfg s) : ∀ r ∈ s.publisher.incremental, r.InRange := by
  intro r hr
  obtain ⟨n, -, hn, hincremental⟩ := h.numbered_eq
  rw [hincremental] at hr
  obtain ⟨i, hi, hseq⟩ := mem_numbered hr
  have hlt := (List.getElem?_eq_some_iff.mp hi).1
  have hle := List.length_take_le n s.records.updates
  refine ⟨?_, h.updates _ (List.mem_of_mem_take (List.mem_of_getElem? hi))⟩
  rw [hseq]
  exact seqNum_inRange (by omega)

/-- **What a cycle sends fits.** -/
theorem Inv.cycle (h : Inv c algo cfg s) :
    ∀ r ∈ numbered 0 (cycleMessages (marketAt s.records.updates s.added) s.added), r.InRange := by
  intro r hr
  obtain ⟨addr, hmirrors⟩ := h.records.synthesizer
  obtain ⟨n, hadded, hn, -⟩ := h.numbered_eq
  have hword : kWord64 = 2 ^ 64 := rfl
  have hids : kMaxOrderIds + kMaxSymbols + 2 < 2 ^ 63 := by decide
  have htotal : (marketAt s.records.updates s.added).total ≤ kMaxOrderIds := by
    have hle := hmirrors.pool.length_le
    rwa [length_liveSlots, hmirrors.capacity] at hle
  obtain ⟨k, hk, hseq⟩ := mem_numbered hr
  have hlt := (List.getElem?_eq_some_iff.mp hk).1
  rw [length_cycleMessages] at hlt
  refine ⟨?_, cycleMessages_inRange (consistent_marketAt h.records.published _)
    (fun symbol => sized_marketAt h.updates _ symbol) (by omega) _ (List.mem_of_getElem? hk)⟩
  rw [hseq]
  exact seqNum_inRange (by omega)

/-- A datagram of records that fit is read whole. -/
theorem Inv.recv (h : Inv c algo cfg s) (isSnapshot : Bool)
    {rs : List MarketDataPublisherMarketUpdate} (hrs : ∀ r ∈ rs, r.InRange)
    (hfits : (incrementalBytes rs).length ≤ kMaxUdpPayload) :
    ∃ consumer, s.consumer.sendAndRecv isSnapshot (incrementalBytes rs) = .ok consumer ∧
      consumer.consumer = s.consumer.consumer.recvCallback ⟨isSnapshot, rs⟩ ∧
      ∀ i, (consumer.inbound i).next = 0 := by
  have hhandled : s.consumer.Handled := fun i => by
    rw [h.inbound i]
    decide
  obtain ⟨consumer, hread, hconsumer, hempty, hother, -⟩ :=
    BufferedConsumer.sendAndRecv_records hhandled (h.inbound isSnapshot) hrs
      ((Nat.add_le_add_right hfits _).trans (by decide))
  refine ⟨consumer, hread, hconsumer, fun i => ?_⟩
  rcases Bool.eq_or_eq_not i isSnapshot with rfl | rfl
  · exact hempty
  · rw [hother]
    exact h.inbound _

/-- A step that touches no socket does to the records what it does to the loop. -/
theorem records_withRecords (hinner : s.records.Inner e loop) :
    (s.withRecords loop).records = loop := by
  cases hinner with
  | idle | moved | published | added | noted => rfl

/-- **What is written still fits** after a step that touches no socket. -/
theorem Inv.inner (h : Inv c algo cfg s) (he : s.Allowed e) (hinner : s.records.Inner e loop) :
    (∃ xs, loop.floor.engine.Fits xs) ∧ loop.publisher.incremental.length < 2 ^ 63 ∧
      loop.synthesizer.orderPool.All (·.type = .add) := by
  cases hinner with
  | idle => exact ⟨h.engine, h.numbers, h.orders⟩
  | moved hfloor =>
    refine ⟨h.records.floor.fits_step (ClosedLoop.Allowed.floor he.1).1 ?_ h.engine hfloor,
      h.numbers, h.orders⟩
    rintro r rfl
    exact he.2
  | published =>
    refine ⟨h.engine, ?_, h.orders⟩
    change (s.publisher.publish _).incremental.length < _
    rw [MarketDataPublisher.publish, List.length_append, List.length_singleton]
    exact he.2
  | added hadd => exact ⟨h.engine, h.numbers, SnapshotSynthesizer.addToSnapshot_adds h.orders hadd⟩
  | noted hu hfloor =>
    have hdeliverable : s.floor.Allowed (.takeUpdate _) := (h.records.deliverable hu).1
    exact ⟨h.records.floor.fits_step hdeliverable (fun r hr => by cases hr) h.engine hfloor,
      h.numbers, h.orders⟩

/-- A cycle goes out, and its datagrams carry its records. -/
theorem Inv.publishSnapshot (h : Inv c algo cfg s) : ∃ s', s.step .publishSnapshot = .ok s' ∧
    s.records.step .publishSnapshot = .ok s'.records ∧
    (ClosedLoop.Inv c algo cfg s'.records → Inv c algo cfg s') := by
  have hcycle : s.synthesizer.publishSnapshot =
      .ok (numbered 0 (cycleMessages (marketAt s.records.updates s.added) s.added)) :=
    h.records.cycle
  have hinRange := h.cycle
  generalize numbered 0 (cycleMessages (marketAt s.records.updates s.added) s.added) = cycle
    at hcycle hinRange
  obtain ⟨hsent, hlengths⟩ :=
    SnapshotOutput.publishSnapshot_sends h.orders hcycle s.output.sent
  have hfits : ∀ d ∈ snapshotDatagrams cycle, ∀ r ∈ d, r.InRange := fun d hd r hr =>
    hinRange r (flatten_snapshotDatagrams cycle ▸ List.mem_flatten_of_mem hd hr)
  have houtput : s.output.publishSnapshot s.synthesizer =
      .ok ⟨⟨[]⟩, s.output.sent ++ (snapshotDatagrams cycle).map incrementalBytes⟩ := by
    rw [← hsent, ← h.drained]
  refine ⟨{ s with
    output := ⟨⟨[]⟩, s.output.sent ++ (snapshotDatagrams cycle).map incrementalBytes⟩ },
    by rw [step, houtput, ok_bind], ?_, fun hrecords => ⟨hrecords, h.engine, h.numbers, h.orders,
      rfl, fun datagram hdatagram => ?_, h.inbound⟩⟩
  · have hread : (snapshotDatagrams cycle).map (incrementalCodec.frames ∘ incrementalBytes) =
        snapshotDatagrams cycle := by
      refine (List.map_congr_left fun d hd => ?_).trans (List.map_id _)
      exact (frames_incrementalBytes (hfits d hd)).1
    change (s.synthesizer.publishSnapshot >>= _) = _
    rw [hcycle, ok_bind, WireLoop.records, WireLoop.records, List.map_append, List.map_map, hread]
  · rcases List.mem_append.mp hdatagram with hdatagram | hdatagram
    · exact h.sent datagram hdatagram
    · obtain ⟨d, hd, rfl⟩ := List.mem_map.mp hdatagram
      exact ⟨d, rfl, hfits d hd, (hlengths d hd).2⟩

/-- A datagram of the incremental channel. -/
theorem Inv.recvIncremental (h : Inv c algo cfg s)
    {rs : List MarketDataPublisherMarketUpdate} (he : s.Allowed (.recvIncremental rs)) :
    ∃ s', s.step (.recvIncremental rs) = .ok s' ∧
      s.records.step (.recvIncremental rs) = .ok s'.records ∧
      (ClosedLoop.Inv c algo cfg s'.records → Inv c algo cfg s') := by
  obtain ⟨consumer, hread, hconsumer, hinbound⟩ :=
    h.recv false (fun r hr => h.incremental r (he.1 r hr)) he.2
  refine ⟨{ s with consumer := consumer }, by rw [step, hread, ok_bind], ?_, fun hrecords =>
    ⟨hrecords, h.engine, h.numbers, h.orders, h.drained, h.sent, hinbound⟩⟩
  rw [ClosedLoop.step, WireLoop.records, WireLoop.records, hconsumer]

/-- A datagram of the snapshot channel. -/
theorem Inv.recvSnapshot (h : Inv c algo cfg s) (place : Nat) :
    ∃ s', s.step (.recvSnapshot place) = .ok s' ∧
      s.records.step (.recvSnapshot place) = .ok s'.records ∧
      (ClosedLoop.Inv c algo cfg s'.records → Inv c algo cfg s') := by
  have hplace : s.records.snapshots[place]? =
      (s.output.sent[place]?).map incrementalCodec.frames := List.getElem?_map ..
  cases hdatagram : s.output.sent[place]? with
  | none =>
    rw [hdatagram, Option.map_none] at hplace
    exact ⟨s, by simp only [step, hdatagram], by simp only [ClosedLoop.step, hplace], fun _ => h⟩
  | some datagram =>
    obtain ⟨rs, rfl, hrs, hfits⟩ := h.sent datagram (List.mem_of_getElem? hdatagram)
    obtain ⟨consumer, hread, hconsumer, hinbound⟩ := h.recv true hrs hfits
    rw [hdatagram, Option.map_some, (frames_incrementalBytes hrs).1] at hplace
    refine ⟨{ s with
      arrived := place
      consumer := consumer }, by simp only [step, hdatagram, hread, ok_bind], ?_, fun hrecords =>
      ⟨hrecords, h.engine, h.numbers, h.orders, h.drained, h.sent, hinbound⟩⟩
    simp only [ClosedLoop.step, hplace]
    rw [WireLoop.records, WireLoop.records, hconsumer]

/-- **Every step** does to the records what it does to the loop, and what is written still fits. -/
theorem Inv.step (h : Inv c algo cfg s) (hc : c < kMaxNumClients) (hcfg : Configured algo cfg)
    (he : s.Allowed e) : (s.step e).map WireLoop.records = s.records.step e ∧
      ∀ s', s.step e = .ok s' → Inv c algo cfg s' := by
  have hfed (hfeed : ∃ s', s.step e = .ok s' ∧ s.records.step e = .ok s'.records ∧
      (ClosedLoop.Inv c algo cfg s'.records → Inv c algo cfg s')) :
      (s.step e).map WireLoop.records = s.records.step e ∧
        ∀ s', s.step e = .ok s' → Inv c algo cfg s' := by
    obtain ⟨s', hstep, hrecords, hinv⟩ := hfeed
    rw [hstep, hrecords]
    refine ⟨rfl, fun s'' hs'' => ?_⟩
    obtain rfl := Except.ok.inj hs''
    exact hinv (h.records.step hc hcfg he.1 hrecords).1
  have hinner (hquiet : e.Quiet) (hquietStep : s.step e = s.withRecords <$> s.records.step e) :
      (s.step e).map WireLoop.records = s.records.step e ∧
        ∀ s', s.step e = .ok s' → Inv c algo cfg s' := by
    rw [hquietStep]
    cases hloop : s.records.step e with
    | error fault => exact ⟨rfl, fun s' hs' => by cases hs'⟩
    | ok loop =>
      have hmove := ClosedLoop.inner hloop hquiet
      have hrecords : (s.withRecords loop).records = loop := records_withRecords hmove
      refine ⟨congrArg Except.ok hrecords, fun s' hs' => ?_⟩
      obtain rfl := Except.ok.inj hs'
      obtain ⟨hengine, hnumbers, horders⟩ := h.inner he hmove
      refine ⟨?_, hengine, hnumbers, horders, h.drained, h.sent, h.inbound⟩
      rw [hrecords]
      exact (h.records.step hc hcfg he.1 hloop).1
  cases e with
  | publishSnapshot => exact hfed h.publishSnapshot
  | recvIncremental => exact hfed (h.recvIncremental he)
  | recvSnapshot place => exact hfed (h.recvSnapshot place)
  | floor | publish | addToSnapshot | takeUpdate => exact hinner trivial rfl

theorem init_inv {incrementalMemory snapshotMemory : Nat → UInt8}
    (hinit : init c algo cfg maxLoss incrementalMemory snapshotMemory = .ok s) :
    Inv c algo cfg s ∧ ClosedLoop.init c algo cfg maxLoss = .ok s.records := by
  obtain ⟨floor, hfloor, hdone⟩ := bind_ok hinit
  cases hdone
  have hloop : ClosedLoop.init c algo cfg maxLoss =
      .ok ⟨floor, .init, .init, 0, [], 0, .init⟩ := by
    rw [ClosedLoop.init, hfloor, ok_bind]
  obtain ⟨engine, hengine, hdone⟩ := bind_ok hfloor
  cases hdone
  obtain ⟨engine', hengine', hsim, -, hnone⟩ := MatchingEngine.init_spec
  obtain rfl := Except.ok.inj (hengine.symm.trans hengine')
  refine ⟨⟨(ClosedLoop.init_inv hloop).1, ⟨_, hsim, .empty, ?_⟩,
    (by decide : 0 < 2 ^ 63), MemPool.All.init _, rfl,
    fun _ h => absurd h List.not_mem_nil, fun i => by cases i <;> rfl⟩, hloop⟩
  rw [hnone]
  exact fun _ h => absurd h List.not_mem_nil

end Steps

/-! ## 5. Runs -/

section Runs

variable {c : Nat} {algo : AlgoType} {cfg : Nat → TradeEngineCfg} {maxLoss : Nat → ℚ}
  {incrementalMemory snapshotMemory : Nat → UInt8} {s s' : WireLoop} {events : List Event}

end Runs

end WireLoop

end YQuant
