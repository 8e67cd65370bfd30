/-
# The records of the market data channels

A consumer reads the bytes of a datagram as records again.  `marketUpdateCodec` and
`incrementalCodec` are the layouts that `PublisherOutput.lean` writes, seen from both ends.  A byte
that names no type of an update is kept as it is (`MarketUpdateType.other`): it is no mark of a
snapshot, so the consumer hands the update on, and a book that meets it changes nothing but brings
its best bid and offer up to date and tells the strategy.

What is written is read back when every field fits its type (`InRange`).  The engine's messages do:
orders of 32 bits make trades, remainders and priorities that fit, whatever they meet in the book
(`messages_read_back`).

* `frames_incrementalBytes`: a datagram of whole records is read as those records;
* `run_inRange`: what a run emits fits, by an invariant of the resting orders (`InRange`);
* `messages_read_back`: both together, for updates and responses.

That a request has 32 bits is what its own record makes sure of.  Sequence numbers are words of 64
bits and are written as what is left of them modulo `2 ^ 64`.
-/
import YQuant.MarketData.PublisherOutput
import YQuant.Matcher.KeyedOrders

namespace YQuant

/-! ## 1. Both ends of a record -/

def MarketUpdateType.ofByte (b : UInt8) : MarketUpdateType :=
  if b = 0 then .invalid else if b = 1 then .clear else if b = 2 then .add
  else if b = 3 then .modify else if b = 4 then .cancel else if b = 5 then .trade
  else if b = 6 then .snapshotStart else if b = 7 then .snapshotEnd else .other b

/-- `MatchingEngineMarketUpdate`, as `MatchingEngineMarketUpdate.bytes` writes it. -/
def marketUpdateCodec : Codec MatchingEngineMarketUpdate :=
  ((Codec.enum MarketUpdateType.toByte .ofByte).pair <| (Codec.unsigned 4).pair <|
    (Codec.unsigned 8).pair <| (Codec.enum Side.toByte .ofByte).pair <| (Codec.signed 8).pair <|
    (Codec.unsigned 4).pair <| Codec.unsigned 8).iso
    (fun ⟨type, symbolId, orderId, side, price, quantity, priority⟩ =>
      ⟨type, symbolId, orderId, side, price, quantity, priority⟩)
    fun u => (u.type, u.symbolId, u.orderId, u.side, u.price, u.quantity, u.priority)

/-- `MarketDataPublisherMarketUpdate`. -/
def incrementalCodec : Codec MarketDataPublisherMarketUpdate :=
  ((Codec.signed 8).pair marketUpdateCodec).iso (fun x => ⟨x.1, x.2⟩) fun r => (r.seqNum, r.update)

theorem encode_marketUpdateCodec (u : MatchingEngineMarketUpdate) :
    marketUpdateCodec.encode u = u.bytes := by
  simp only [MatchingEngineMarketUpdate.bytes, List.append_assoc]
  rfl

theorem encode_incrementalCodec (r : MarketDataPublisherMarketUpdate) :
    incrementalCodec.encode r = r.bytes :=
  congrArg ((Codec.signed 8).encode r.seqNum ++ ·) (encode_marketUpdateCodec r.update)

theorem encodeAll_incrementalCodec (rs : List MarketDataPublisherMarketUpdate) :
    incrementalCodec.encodeAll rs = incrementalBytes rs :=
  List.flatMap_congr fun r _ => encode_incrementalCodec r

/-- Every field of an update fits its type. -/
structure MatchingEngineMarketUpdate.InRange (u : MatchingEngineMarketUpdate) : Prop where
  type : MarketUpdateType.ofByte u.type.toByte = u.type
  symbolId : u.symbolId < kWord32
  orderId : u.orderId < kWord64
  side : Side.ofByte u.side.toByte = u.side
  price : Int.bmod u.price kWord64 = u.price
  quantity : u.quantity < kWord32
  priority : u.priority < kWord64

/-- Every field of a record does. -/
structure MarketDataPublisherMarketUpdate.InRange (r : MarketDataPublisherMarketUpdate) : Prop where
  seqNum : Int.bmod r.seqNum kWord64 = r.seqNum
  update : r.update.InRange

theorem MatchingEngineMarketUpdate.InRange.representable {u : MatchingEngineMarketUpdate}
    (h : u.InRange) : marketUpdateCodec.Representable u := by
  refine Codec.representable_iso rfl ?_
  exact Codec.representable_pair (Codec.representable_enum h.type) <|
    Codec.representable_pair (Codec.representable_unsigned h.symbolId) <|
    Codec.representable_pair (Codec.representable_unsigned h.orderId) <|
    Codec.representable_pair (Codec.representable_enum h.side) <|
    Codec.representable_pair (Codec.representable_signed h.price) <|
    Codec.representable_pair (Codec.representable_unsigned h.quantity)
      (Codec.representable_unsigned h.priority)

theorem MarketDataPublisherMarketUpdate.InRange.representable {r : MarketDataPublisherMarketUpdate}
    (h : r.InRange) : incrementalCodec.Representable r :=
  Codec.representable_iso rfl <|
    Codec.representable_pair (Codec.representable_signed h.seqNum) h.update.representable

/-- **A datagram of whole records** is read as those records, and nothing of it is left. -/
theorem frames_incrementalBytes {rs : List MarketDataPublisherMarketUpdate}
    (h : ∀ r ∈ rs, r.InRange) : incrementalCodec.frames (incrementalBytes rs) = rs ∧
      incrementalCodec.rest (incrementalBytes rs) = [] := by
  rw [← encodeAll_incrementalCodec]
  exact Codec.frames_encodeAll (by decide) fun r hr => (h r hr).representable

/-! ## 2. What the numbers of the code fit -/

theorem Side.Directional.inRange {side : Side} (h : side.Directional) :
    Side.ofByte side.toByte = side := by
  rcases h with rfl | rfl <;> rfl

theorem PriceBand.InBand.inRange {price : Int} (h : kDefaultPriceBand.InBand price) :
    Int.bmod price kWord64 = price := by
  obtain ⟨hlow, hhigh, -⟩ := h
  have hbase : kDefaultPriceBand.basePrice = 0 := rfl
  have hspan : kDefaultPriceBand.basePrice + kTickCount * kDefaultPriceBand.tickSize = 16384 := rfl
  have hword : kWord64 = 2 ^ 64 := rfl
  rw [Int.bmod_eq_of_le] <;> omega

theorem seqNum_inRange {n : Nat} (h : n < 2 ^ 63) : Int.bmod (n : Int) kWord64 = n := ssize_eq h

/-- A number that has been stored is one that can be stored. -/
theorem stamp_inRange (n : Nat) (u : MatchingEngineMarketUpdate) :
    Int.bmod (PublisherState.stamp n u).seqNum kWord64 = (PublisherState.stamp n u).seqNum := by
  dsimp only [PublisherState.stamp]
  exact Int.bmod_bmod

theorem kWord32_pos : 0 < kWord32 := by decide

theorem kWord64_pos : 0 < kWord64 := by decide

theorem mod_kWord64_lt (n : Nat) : n % kWord64 < kWord64 := Nat.mod_lt _ kWord64_pos

/-! ## 3. The messages of a call -/

/-- The fields of a resting order fit the messages about it. -/
structure Resting.InRange (o : Resting) : Prop where
  clientId : o.clientId < kWord32
  clientOrderId : o.clientOrderId < kWord64
  side : Side.ofByte o.side.toByte = o.side
  price : Int.bmod o.price kWord64 = o.price
  quantity : o.quantity < kWord32
  priority : o.priority < kWord64

/-- An order that has lost quantity. -/
theorem Resting.InRange.reduced {o o' : Resting} (h : o.InRange)
    (heq : o' = { o with quantity := o'.quantity }) (hle : o'.quantity ≤ o.quantity) :
    o'.InRange := by
  rw [heq]
  exact ⟨h.clientId, h.clientOrderId, h.side, h.price, hle.trans_lt h.quantity, h.priority⟩

/-- The maker of a trade fits, and the trade takes no more than the maker or the taker has. -/
structure Fill.InRange (f : Fill) : Prop where
  maker : f.maker.InRange
  executed : f.executed ≤ f.maker.quantity
  takerLeft : f.takerLeft < kWord32

/-- **The trades of a taker**, and the orders they leave. -/
theorem Sweeps.inRange {side : Side} {limit : Int} {l l' : List Resting} {q q' : Nat}
    {fs : List Fill} (hs : Sweeps side limit l q fs l' q') (hl : ∀ o ∈ l, o.InRange)
    (hq : q < kWord32) : (∀ f ∈ fs, f.InRange) ∧ (∀ o ∈ l', o.InRange) ∧ q' ≤ q := by
  induction hs with
  | done => exact ⟨fun _ hf => absurd hf List.not_mem_nil, hl, le_rfl⟩
  | @trade l l' q q' m fs _ hm _ ih =>
    have hleft : q - min q m.quantity < kWord32 := (Nat.sub_le _ _).trans_lt hq
    obtain ⟨hfills, hrest, hle⟩ := ih (fun o ho => by
      obtain ⟨o', ho', heq, hsame, hreduced⟩ := mem_takeFrom ho
      refine (hl o' ho').reduced heq ?_
      by_cases hmaker : o.arrival = m.arrival
      · rw [(hreduced hmaker).2]
        exact Nat.sub_le _ _
      · rw [hsame hmaker]) hleft
    refine ⟨fun f hf => ?_, hrest, hle.trans (Nat.sub_le _ _)⟩
    rcases List.mem_cons.mp hf with rfl | hf
    · exact ⟨hl m (bestMaker_mem hm).1, min_le_right _ _, hleft⟩
    · exact hfills f hf

section Messages

variable {symbolId : Nat} {f : Fill}

theorem Fill.InRange.updates (h : f.InRange) (hsymbol : symbolId < kWord32) :
    ∀ u ∈ f.updates symbolId, u.InRange := by
  have hexecuted : f.executed < kWord32 := h.executed.trans_lt h.maker.quantity
  have hid : f.maker.marketOrderId < kWord64 := mod_kWord64_lt _
  intro u hu
  rcases List.mem_cons.mp hu with rfl | hu
  · exact ⟨rfl, hsymbol, hid, h.maker.side, h.maker.price, hexecuted, kWord64_pos⟩
  · rw [List.mem_singleton.mp hu]
    split
    · exact ⟨rfl, hsymbol, hid, h.maker.side, h.maker.price, kWord32_pos, kWord64_pos⟩
    · exact ⟨rfl, hsymbol, hid, h.maker.side, h.maker.price,
        (Nat.sub_le _ _).trans_lt h.maker.quantity, h.maker.priority⟩

theorem Fill.InRange.responses (h : f.InRange) (hsymbol : symbolId < kWord32)
    {clientId clientOrderId marketOrderId : Nat} {side : Side} (hclient : clientId < kWord32)
    (hclientOrder : clientOrderId < kWord64) (hmarketOrder : marketOrderId < kWord64)
    (hside : Side.ofByte side.toByte = side) :
    ∀ r ∈ f.responses symbolId clientId clientOrderId marketOrderId side, r.InRange := by
  have hexecuted : f.executed < kWord32 := h.executed.trans_lt h.maker.quantity
  intro r hr
  rcases List.mem_cons.mp hr with rfl | hr
  · exact ⟨rfl, hclient, hsymbol, hclientOrder, hmarketOrder, hside, h.maker.price, hexecuted,
      h.takerLeft⟩
  · rw [List.mem_singleton.mp hr]
    exact ⟨rfl, h.maker.clientId, hsymbol, h.maker.clientOrderId, mod_kWord64_lt _, h.maker.side,
      h.maker.price, hexecuted, (Nat.sub_le _ _).trans_lt h.maker.quantity⟩

end Messages

/-- What a call passes on to its messages fits. -/
def BookCall.InRange : BookCall → Prop
  | .add clientId clientOrderId side price quantity =>
    clientId < kWord32 ∧ clientOrderId < kWord64 ∧ Side.ofByte side.toByte = side ∧
      Int.bmod price kWord64 = price ∧ quantity < kWord32
  | .cancel clientId clientOrderId => clientId < kWord32 ∧ clientOrderId < kWord64

namespace IndexedBook

variable {symbolId : Nat} {x : IndexedBook}

/-- The resting orders fit. -/
def InRange (x : IndexedBook) : Prop := ∀ o ∈ x.book.resting, o.InRange

/-- What a call emits fits, and the orders that rest behind it do. -/
structure Emits (symbolId : Nat) (x : IndexedBook) (call : BookCall) : Prop where
  updates : ∀ u ∈ x.updates symbolId call, u.InRange
  responses : ∀ r ∈ x.responses symbolId call, r.InRange
  resting : (x.step call).InRange

theorem InRange.add {clientId clientOrderId quantity : Nat} {side : Side} {price : Int}
    (h : x.InRange) (hsymbol : symbolId < kWord32)
    (hcall : (BookCall.add clientId clientOrderId side price quantity).InRange) :
    Emits symbolId x (.add clientId clientOrderId side price quantity) := by
  obtain ⟨hclient, hclientOrder, hside, hprice, hquantity⟩ := hcall
  obtain ⟨hfills, hresting, hle⟩ :=
    (sweep_sweeps side price x.book.resting quantity).inRange h hquantity
  have hleft : x.book.left side price quantity < kWord32 := hle.trans_lt hquantity
  refine ⟨fun u hu => ?_, fun r hr => ?_, ?_⟩
  · rcases List.mem_append.mp hu with hu | hu
    · obtain ⟨f, hf, hu⟩ := List.mem_flatMap.mp hu
      exact (hfills f hf).updates hsymbol u hu
    · split at hu
      · cases hu
      · rw [List.mem_singleton.mp hu]
        exact ⟨rfl, hsymbol, mod_kWord64_lt _, hside, hprice, hleft, mod_kWord64_lt _⟩
  · rcases List.mem_cons.mp hr with rfl | hr
    · exact ⟨rfl, hclient, hsymbol, hclientOrder, mod_kWord64_lt _, hside, hprice, kWord32_pos,
        hquantity⟩
    · obtain ⟨f, hf, hr⟩ := List.mem_flatMap.mp hr
      exact (hfills f hf).responses hsymbol hclient hclientOrder (mod_kWord64_lt _) hside r hr
  · rw [step_add]
    split
    · exact hresting
    · intro o ho
      rcases List.mem_append.mp ho with ho | ho
      · exact hresting o ho
      · rw [List.mem_singleton.mp ho]
        exact ⟨hclient, hclientOrder, hside, hprice, hleft, mod_kWord64_lt _⟩

theorem InRange.cancel {clientId clientOrderId : Nat} (h : x.InRange) (hsymbol : symbolId < kWord32)
    (hcall : (BookCall.cancel clientId clientOrderId).InRange) :
    Emits symbolId x (.cancel clientId clientOrderId) := by
  obtain ⟨hclient, hclientOrder⟩ := hcall
  refine ⟨fun u hu => ?_, fun r hr => ?_, fun o ho => h o (mem_step_cancel ho)⟩
  · simp only [IndexedBook.updates, ListBook.cancelUpdates] at hu
    split at hu
    · cases hu
    · next o hfind =>
      obtain ⟨_, -, hfind⟩ := Option.bind_eq_some_iff.mp hfind
      have ho := h o (List.mem_of_find?_eq_some hfind)
      rw [List.mem_singleton.mp hu]
      exact ⟨rfl, hsymbol, mod_kWord64_lt _, ho.side, ho.price, kWord32_pos, kWord64_pos⟩
  · simp only [IndexedBook.responses, ListBook.cancelResponses] at hr
    split at hr
    · rw [List.mem_singleton.mp hr]
      exact ⟨rfl, hclient, hsymbol, hclientOrder, kWord64_pos, rfl, rfl, kWord32_pos,
        kWord32_pos⟩
    · next o hfind =>
      obtain ⟨_, -, hfind⟩ := Option.bind_eq_some_iff.mp hfind
      have ho := h o (List.mem_of_find?_eq_some hfind)
      rw [List.mem_singleton.mp hr]
      exact ⟨rfl, hclient, hsymbol, hclientOrder, mod_kWord64_lt _, ho.side, ho.price, kWord32_pos,
        ho.quantity⟩

theorem InRange.call (h : x.InRange) (hsymbol : symbolId < kWord32) {call : BookCall}
    (hcall : call.InRange) : Emits symbolId x call := by
  cases call with
  | add => exact h.add hsymbol hcall
  | cancel => exact h.cancel hsymbol hcall

end IndexedBook

/-! ## 4. The messages of a run -/

namespace MatchingEngineClientRequest

variable {r : MatchingEngineClientRequest}

/-- A documented call fits, when a new order has a quantity of 32 bits. -/
theorem Documented.call_inRange {call : BookCall} (hdoc : r.Documented)
    (hquantity : r.type = .new → r.quantity < kWord32)
    (hcall : r.call? = some call) : call.InRange := by
  obtain ⟨-, call', hcall', hdocCall⟩ := hdoc
  obtain rfl := Option.some.inj (hcall.symm.trans hcall')
  have hclients : kMaxNumClients ≤ kWord32 := by decide
  have hids : kMaxOrderIds ≤ kWord64 := by decide
  unfold call? at hcall
  split at hcall
  · next htype =>
    obtain rfl := Option.some.inj hcall
    obtain ⟨hclient, hid, hside, hprice, -⟩ := hdocCall
    exact ⟨hclient.trans_le hclients, hid.trans_le hids, hside.inRange, hprice.inRange,
      hquantity htype⟩
  · obtain rfl := Option.some.inj hcall
    exact ⟨hdocCall.1.trans_le hclients, hdocCall.2.trans_le hids⟩
  · cases hcall
  · cases hcall

end MatchingEngineClientRequest

namespace IndexedBooks

variable {xs : IndexedBooks} {r : MatchingEngineClientRequest}

/-- The resting orders of all symbols fit. -/
def InRange (xs : IndexedBooks) : Prop := ∀ s, (xs s).InRange

theorem InRange.empty : InRange .empty := fun _ _ ho => absurd ho List.not_mem_nil

/-- **One request** of 32 bits: what it emits fits, and the orders that rest behind it do. -/
theorem InRange.request (h : xs.InRange) (hdoc : r.Documented)
    (hquantity : r.type = .new → r.quantity < kWord32) :
    (∀ u ∈ xs.updates r, u.InRange) ∧ (∀ a ∈ xs.responses r, a.InRange) ∧ (xs.step r).InRange := by
  obtain ⟨hsymbol, call, hcall, -⟩ := id hdoc
  have hemits := (h r.symbolId).call (hsymbol.trans_le (by decide : kMaxSymbols ≤ kWord32))
    (hdoc.call_inRange hquantity hcall)
  rw [updates_call xs hcall, responses_call xs hcall, step_call xs hcall]
  refine ⟨hemits.updates, hemits.responses, fun s => ?_⟩
  rcases eq_or_ne s r.symbolId with rfl | hne
  · rw [Function.update_self]
    exact hemits.resting
  · rw [Function.update_of_ne hne]
    exact h s

end IndexedBooks

namespace MatchingEngine

variable {requests : List MatchingEngineClientRequest} {m : MatchingEngine}

/-- What a run emits fits. -/
theorem run_inRange (hdoc : ∀ r ∈ requests, r.Documented)
    (hquantity : ∀ r ∈ requests, r.quantity < kWord32) (hrun : run requests = .ok m) :
    (∀ u ∈ m.outgoingMarketUpdates, u.InRange) ∧ ∀ a ∈ m.outgoingClientResponses, a.InRange := by
  obtain ⟨m', hrun', -, hresponses, hupdates⟩ := run_sim (run_simulates hdoc hrun).2
  obtain rfl := Except.ok.inj (hrun.symm.trans hrun')
  have halong : Run.AlongRun IndexedBooks.step
      (fun _ r => r.Documented ∧ (r.type = .new → r.quantity < kWord32)) .empty requests :=
    .of_forall fun r hr _ => ⟨hdoc r hr, fun _ => hquantity r hr⟩
  rw [hupdates, hresponses]
  exact ⟨halong.forall_outputs (fun _ _ h hr => (h.request hr.1 hr.2).2.2)
      (fun _ _ h hr => (h.request hr.1 hr.2).1) IndexedBooks.InRange.empty,
    halong.forall_outputs (fun _ _ h hr => (h.request hr.1 hr.2).2.2)
      (fun _ _ h hr => (h.request hr.1 hr.2).2.1) IndexedBooks.InRange.empty⟩

/-- **What the engine sends is what its clients read.**  In a run of documented requests of 32
bits, the records of its updates and of its responses are read back as they were sent, in any
selection and order.  Prices, remainders and priorities fit because they are those of the requests,
parts of their quantities, or counters that a run of any length within the ids cannot wrap;
sequence numbers are words of 64 bits and wrap with their record. -/
theorem messages_read_back (hdoc : ∀ r ∈ requests, r.Documented)
    (hquantity : ∀ r ∈ requests, r.quantity < kWord32) (hrun : run requests = .ok m) :
    (∀ rs : List MarketDataPublisherMarketUpdate,
      (∀ r ∈ rs, r ∈ PublisherState.stamped m.outgoingMarketUpdates) →
        incrementalCodec.frames (incrementalBytes rs) = rs ∧
          incrementalCodec.rest (incrementalBytes rs) = []) ∧
    ∀ rs : List OrderManagerClientResponse,
      (∀ r ∈ rs, r.seqNum < kWord64 ∧
        r.matchingEngineClientResponse ∈ m.outgoingClientResponses) →
        orderManagerClientResponseCodec.frames (orderManagerClientResponseCodec.encodeAll rs) = rs ∧
          orderManagerClientResponseCodec.rest (orderManagerClientResponseCodec.encodeAll rs) =
            [] := by
  obtain ⟨hupdates, hresponses⟩ := run_inRange hdoc hquantity hrun
  constructor
  · intro rs hrs
    refine frames_incrementalBytes fun r hr => ?_
    obtain ⟨⟨u, n⟩, hu, rfl⟩ := List.mem_map.mp (hrs r hr)
    exact ⟨stamp_inRange _ u, hupdates u (List.fst_mem_of_mem_zipIdx hu)⟩
  · intro rs hrs
    exact Codec.frames_encodeAll (by decide) fun r hr =>
      (hresponses _ (hrs r hr).2).representable (hrs r hr).1

/-- The trade and the rest of a sell, and what its owner hears. -/
theorem messages_read_back_partial : ∃ m,
    run [⟨.new, 1, 0, 1, .sell, 103, 5⟩, ⟨.new, 2, 0, 1, .buy, 105, 3⟩] = .ok m ∧
    PublisherState.stamped m.outgoingMarketUpdates =
      [⟨1, ⟨.add, 0, 1, .sell, 103, 5, 1⟩⟩, ⟨2, ⟨.trade, 0, 1, .sell, 103, 3, 0⟩⟩,
        ⟨3, ⟨.modify, 0, 1, .sell, 103, 2, 1⟩⟩] ∧
    incrementalCodec.frames (incrementalBytes
      [⟨3, ⟨.modify, 0, 1, .sell, 103, 2, 1⟩⟩, ⟨1, ⟨.add, 0, 1, .sell, 103, 5, 1⟩⟩]) =
      [⟨3, ⟨.modify, 0, 1, .sell, 103, 2, 1⟩⟩, ⟨1, ⟨.add, 0, 1, .sell, 103, 5, 1⟩⟩] ∧
    orderManagerClientResponseCodec.frames (orderManagerClientResponseCodec.encodeAll
      [⟨2, ⟨.filled, 1, 0, 1, 1, .sell, 103, 3, 2⟩⟩]) =
      [⟨2, ⟨.filled, 1, 0, 1, 1, .sell, 103, 3, 2⟩⟩] := by
  obtain ⟨m, hrun, hcheck⟩ : ∃ m, run [⟨.new, 1, 0, 1, .sell, 103, 5⟩,
      ⟨.new, 2, 0, 1, .buy, 105, 3⟩] = .ok m ∧
        decide (PublisherState.stamped m.outgoingMarketUpdates =
          [⟨1, ⟨.add, 0, 1, .sell, 103, 5, 1⟩⟩, ⟨2, ⟨.trade, 0, 1, .sell, 103, 3, 0⟩⟩,
            ⟨3, ⟨.modify, 0, 1, .sell, 103, 2, 1⟩⟩] ∧
          ⟨.filled, 1, 0, 1, 1, .sell, 103, 3, 2⟩ ∈ m.outgoingClientResponses) = true :=
    exists_of_returns (by decide +kernel)
  obtain ⟨hupdates, hresponse⟩ := of_decide_eq_true hcheck
  obtain ⟨hread, hread'⟩ := messages_read_back (by decide) (by decide) hrun
  rw [hupdates] at hread
  refine ⟨m, hrun, hupdates, (hread _ ?_).1, (hread' _ ?_).1⟩
  · decide
  · intro r hr
    rw [List.mem_singleton.mp hr]
    exact ⟨by decide, hresponse⟩

end MatchingEngine

end YQuant
