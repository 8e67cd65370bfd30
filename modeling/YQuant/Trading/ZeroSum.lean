/-
# The market is a zero-sum game

Every trade has a buyer and a seller, at one price and for one quantity.  So the fills that a run
sends to buyers are, in order, the fills it sends to sellers and the trades it publishes
(`fills_on_tape`), and what one client gains another one loses: when every client books its fills
and marks its position at the same quotes, positions and total profits add up to zero
(`profits_cancel`).

A client hears of its own fills only, and books them by itself with any quotes in between.  What
joins the accounts of all clients is the sum over clients of what each has heard of one side, which
is what the exchange has filled there (`sum_clients`); both sides are the tape, so quantities and
money cancel (`quantities_cancel`).  The total profit is the cash that has come in and the worth of
the position at the mark, and with one mark for all the worths cancel as well.

At different marks they do not, and neither do realised profits, since who closes a position and
who opens one is not symmetric.  The arithmetic is exact here.
-/
import Mathlib.Algebra.BigOperators.Ring.Finset
import YQuant.Matcher.LifeCycle
import YQuant.Matcher.Sharding
import YQuant.Trading.PositionKeeper

namespace YQuant

/-! ## 1. Fills and trades of a symbol -/

/-- Price and quantity of the fills of one side of a symbol. -/
def fillsOn (rs : List MatchingEngineClientResponse) (symbolId : Nat) (side : Side) :
    List (Int × Nat) :=
  (rs.filter fun r => r.type = .filled ∧ r.symbolId = symbolId ∧ r.side = side).map fun r =>
    (r.price, r.executedQuantity)

/-- Price and quantity of the trades of a symbol. -/
def tape (us : List MatchingEngineMarketUpdate) (symbolId : Nat) : List (Int × Nat) :=
  (us.filter fun u => u.type = .trade ∧ u.symbolId = symbolId).map fun u => (u.price, u.quantity)

section Tape

variable {rs rs' : List MatchingEngineClientResponse} {us us' : List MatchingEngineMarketUpdate}
  {symbolId : Nat} {side : Side}

theorem fillsOn_append :
    fillsOn (rs ++ rs') symbolId side = fillsOn rs symbolId side ++ fillsOn rs' symbolId side := by
  simp only [fillsOn, List.filter_append, List.map_append]

theorem tape_append : tape (us ++ us') symbolId = tape us symbolId ++ tape us' symbolId := by
  simp only [tape, List.filter_append, List.map_append]

/-- The other symbols do not count. -/
theorem fillsOn_filter :
    fillsOn (rs.filter fun r => r.symbolId = symbolId) symbolId side =
      fillsOn rs symbolId side := by
  unfold fillsOn
  rw [List.filter_filter]
  congr 1
  refine List.filter_congr fun r _ => ?_
  rw [← Bool.decide_and]
  exact decide_eq_decide.mpr (and_iff_left_of_imp fun h => h.2.1)

theorem tape_filter :
    tape (us.filter fun u => u.symbolId = symbolId) symbolId = tape us symbolId := by
  unfold tape
  rw [List.filter_filter]
  congr 1
  refine List.filter_congr fun u _ => ?_
  rw [← Bool.decide_and]
  exact decide_eq_decide.mpr (and_iff_left_of_imp fun h => h.2)

/-- **A trade is one fill on each side.** -/
theorem Fill.fillsOn_responses (clientId clientOrderId marketOrderId : Nat) {takerSide d : Side}
    (hside : takerSide.Directional) (hd : d.Directional) {f : Fill}
    (hmaker : f.maker.side = takerSide.opposite) :
    fillsOn (f.responses symbolId clientId clientOrderId marketOrderId takerSide) symbolId d =
      [(f.maker.price, f.executed)] := by
  unfold fillsOn responses
  rcases hside with rfl | rfl <;> rcases hd with rfl | rfl <;> simp [hmaker]

theorem Fill.tape_updates (f : Fill) :
    tape (f.updates symbolId) symbolId = [(f.maker.price, f.executed)] := by
  unfold tape updates
  split <;> simp

/-- **The trades of a taker.** -/
theorem Sweeps.fillsOn_eq {limit : Int} {l l' : List Resting} {q q' : Nat} {fs : List Fill}
    (clientId clientOrderId marketOrderId : Nat) (hside : side.Directional) {d : Side}
    (hd : d.Directional) (h : Sweeps side limit l q fs l' q') :
    fillsOn (fs.flatMap (Fill.responses symbolId clientId clientOrderId marketOrderId side))
      symbolId d = tape (fs.flatMap (Fill.updates symbolId)) symbolId := by
  induction h with
  | done => rfl
  | @trade l l' q q' m fs hq hm _ ih =>
    rw [List.flatMap_cons, List.flatMap_cons, fillsOn_append, tape_append, ih, Fill.tape_updates,
      Fill.fillsOn_responses clientId clientOrderId marketOrderId hside hd (bestMaker_mem hm).2.1]

/-- **One call.** -/
theorem IndexedBook.fillsOn_call (x : IndexedBook) {band : PriceBand} {call : BookCall}
    (hdoc : call.Documented band) {d : Side} (hd : d.Directional) :
    fillsOn (x.responses symbolId call) symbolId d = tape (x.updates symbolId call) symbolId := by
  cases call with
  | add clientId clientOrderId side price quantity =>
    simp only [responses, updates, ListBook.addResponses, ListBook.addUpdates]
    rw [← List.singleton_append, fillsOn_append, tape_append]
    -- neither the acceptance nor the remainder is a trade
    have haccepted : fillsOn [⟨.accepted, clientId, symbolId, clientOrderId,
        (x.book.arrivals + 1) % kWord64, side, price, 0, quantity⟩] symbolId d = [] := by
      simp [fillsOn]
    have hadd : tape (if x.book.left side price quantity = 0 then [] else
        [⟨.add, symbolId, (x.book.arrivals + 1) % kWord64, side, price,
          x.book.left side price quantity,
          ((x.book.traded side price quantity).queued side price + 1) % kWord64⟩]) symbolId =
          [] := by
      split <;> simp [tape]
    rw [haccepted, hadd, List.nil_append, List.append_nil]
    exact (sweep_sweeps side price x.book.resting quantity).fillsOn_eq clientId clientOrderId _
      hdoc.2.2.1 hd
  | cancel clientId clientOrderId =>
    simp only [responses, updates]
    cases x.find clientId clientOrderId <;>
      simp [ListBook.cancelResponses, ListBook.cancelUpdates, fillsOn, tape]

/-- **A run.** -/
theorem IndexedBook.fillsOn_run {band : PriceBand} {d : Side} (hd : d.Directional) :
    ∀ {calls : List BookCall} {x : IndexedBook}, (∀ call ∈ calls, call.Documented band) →
      fillsOn (Run.outputs IndexedBook.step (responses symbolId) x calls) symbolId d =
        tape (Run.outputs IndexedBook.step (updates symbolId) x calls) symbolId
  | [], _, _ => rfl
  | call :: calls, x, hdoc => by
    rw [Run.outputs_cons, Run.outputs_cons, fillsOn_append, tape_append,
      x.fillsOn_call (hdoc call List.mem_cons_self) hd,
      fillsOn_run hd fun c hc => hdoc c (List.mem_cons_of_mem call hc)]

end Tape

/-! ## 2. Whom the fills are for -/

/-- A fill is for a client of the exchange, on one of the two sides. -/
structure MatchingEngineClientResponse.Addressed (r : MatchingEngineClientResponse) : Prop where
  client : r.clientId < kMaxNumClients
  side : r.type = .filled → r.side.Directional
  executed : r.type = .filled → 0 < r.executedQuantity

theorem Sweeps.executed_pos {band : PriceBand} {side : Side} {limit : Int} {l l' : List Resting}
    {q q' : Nat} {fs : List Fill} (h : Sweeps side limit l q fs l' q') (hl : Orderly band l) :
    ∀ f ∈ fs, 0 < f.executed := by
  induction h with
  | done => exact fun f hf => absurd hf List.not_mem_nil
  | @trade l l' q q' m fs hq hm _ ih =>
    have hmem := (bestMaker_mem hm).1
    have hpos := hl.positive m hmem
    intro f hf
    rcases List.mem_cons.mp hf with rfl | hf
    · exact Nat.lt_min.mpr ⟨hq, hpos⟩
    · exact ih (hl.takeFrom hmem (min_le_right _ _)) f hf

/-- **The responses of a call.** -/
theorem IndexedBook.Inv.addressed {band : PriceBand} {x : IndexedBook} (h : Inv band x)
    {symbolId : Nat} {call : BookCall} (hdoc : call.Documented band) :
    ∀ r ∈ x.responses symbolId call, r.Addressed := by
  intro r hr
  have hclient : r.clientId < kMaxNumClients := by
    rcases client_of_mem hr with ⟨o, ho, hclient⟩ | hclient
    · rw [hclient]
      exact (h.keys o ho).1
    · rw [hclient]
      cases call <;> exact hdoc.1
  refine ⟨hclient, fun htype => ?_, fun htype => ?_⟩
  · rcases filled_of_mem hr htype with ⟨o, ho, -, hside⟩ | ⟨price, quantity, rfl⟩
    · rw [← hside]
      exact h.orderly.sides o ho
    · exact hdoc.2.2.1
  · cases call with
    | add clientId clientOrderId side price quantity =>
      rcases List.mem_cons.mp hr with rfl | hr
      · cases htype
      · obtain ⟨f, hf, hr⟩ := List.mem_flatMap.mp hr
        have hpos := (sweep_sweeps side price x.book.resting quantity).executed_pos h.orderly f hf
        simp only [Fill.responses, List.mem_cons, List.not_mem_nil, or_false] at hr
        rcases hr with rfl | rfl <;> exact hpos
    | cancel clientId clientOrderId =>
      simp only [responses, ListBook.cancelResponses] at hr
      split at hr <;> rw [List.mem_singleton.mp hr] at htype <;> cases htype

theorem IndexedBooks.Inv.addressed {xs : IndexedBooks} (h : xs.Inv)
    {r : MatchingEngineClientRequest} (hdoc : r.Documented) :
    ∀ x ∈ xs.responses r, x.Addressed := by
  obtain ⟨hsymbol, call, hcall, hcalldoc⟩ := hdoc
  rw [IndexedBooks.responses_call xs hcall]
  exact (h r.symbolId hsymbol).addressed hcalldoc

/-- **The responses of a run.** -/
theorem MatchingEngine.addressed_of_run {requests : List MatchingEngineClientRequest}
    {m : MatchingEngine} (hdoc : ∀ r ∈ requests, r.Documented) (hrun : run requests = .ok m) :
    ∀ r ∈ m.outgoingClientResponses, r.Addressed := by
  obtain ⟨m', hrun', -, hresponses, -⟩ := run_sim (run_simulates hdoc hrun).2
  obtain rfl := Except.ok.inj (hrun.symm.trans hrun')
  rw [hresponses]
  have halong : Run.AlongRun IndexedBooks.step (fun _ r => r.Documented) .empty requests :=
    Run.AlongRun.of_forall fun r hr _ => hdoc r hr
  exact Run.AlongRun.forall_outputs (I := IndexedBooks.Inv) (fun xs r h hr => h.next hr)
    (fun xs r h hr => h.addressed hr) IndexedBooks.Inv.empty halong

/-! ## 3. What all clients book together -/

/-- A list cut up by a bounded key adds up to the same. -/
theorem sum_filter_key {α M : Type} [AddCommMonoid M] (key : α → Nat) (w : α → M) {n : Nat} :
    ∀ {l : List α}, (∀ a ∈ l, key a < n) →
      ∑ c ∈ Finset.range n, ((l.filter fun a => key a = c).map w).sum = (l.map w).sum
  | [], _ => by simp
  | a :: l, h => by
    have hsplit (c : Nat) : (((a :: l).filter fun a => key a = c).map w).sum =
        (if key a = c then w a else 0) + ((l.filter fun a => key a = c).map w).sum := by
      by_cases hc : key a = c
      · simp [hc]
      · simp [hc]
    simp only [hsplit, Finset.sum_add_distrib, sum_filter_key key w fun b hb =>
      h b (List.mem_cons_of_mem a hb)]
    rw [Finset.sum_ite_eq, if_pos (Finset.mem_range.mpr (h a List.mem_cons_self)), List.map_cons,
      List.sum_cons]

namespace Trading

/-- The fills among the events of a position. -/
def heardFills (events : List PositionEvent) : List MatchingEngineClientResponse :=
  events.filterMap fun e => match e with
    | .fill r => some r
    | .bbo _ => none

theorem heardFills_map_fill (rs : List MatchingEngineClientResponse) :
    heardFills (rs.map PositionEvent.fill) = rs := by
  induction rs with
  | nil => rfl
  | cons r rs ih => exact congrArg (r :: ·) ih

/-- The fills of a client in a symbol. -/
def fillsOf (rs : List MatchingEngineClientResponse) (clientId symbolId : Nat) :
    List MatchingEngineClientResponse :=
  rs.filter fun r => r.type = .filled ∧ r.clientId = clientId ∧ r.symbolId = symbolId

/-- Only the fills of its side weigh in a sum over events. -/
theorem sum_heardFills {M : Type} [AddCommMonoid M] {side : Side} {g : PositionEvent → M}
    {v : Int → Nat → M}
    (hfill : ∀ r, g (.fill r) = if r.side = side then v r.price r.executedQuantity else 0)
    (hbbo : ∀ b, g (.bbo b) = 0) : ∀ events : List PositionEvent, (events.map g).sum =
      (((heardFills events).filter fun r => r.side = side).map fun r =>
        v r.price r.executedQuantity).sum
  | [] => rfl
  | .bbo b :: events => by
    rw [List.map_cons, List.sum_cons, hbbo, zero_add, sum_heardFills hfill hbbo events]
    rfl
  | .fill r :: events => by
    have hheard : heardFills (.fill r :: events) = r :: heardFills events := rfl
    rw [List.map_cons, List.sum_cons, hfill, sum_heardFills hfill hbbo events, hheard]
    by_cases hside : r.side = side
    · simp [hside]
    · simp [hside]

/-- **What all clients hear of one side** is what the exchange has filled there. -/
theorem sum_clients {M : Type} [AddCommMonoid M] {rs : List MatchingEngineClientResponse}
    (hrs : ∀ r ∈ rs, r.Addressed) {symbolId : Nat} {side : Side} {g : PositionEvent → M}
    {v : Int → Nat → M}
    (hfill : ∀ r, g (.fill r) = if r.side = side then v r.price r.executedQuantity else 0)
    (hbbo : ∀ b, g (.bbo b) = 0) {events : Nat → List PositionEvent}
    (hheard : ∀ c, c < kMaxNumClients → heardFills (events c) = fillsOf rs c symbolId) :
    ∑ c ∈ Finset.range kMaxNumClients, ((events c).map g).sum =
      ((fillsOn rs symbolId side).map fun pq => v pq.1 pq.2).sum := by
  have hclient (c : Nat) (hc : c ∈ Finset.range kMaxNumClients) : ((events c).map g).sum =
      (((rs.filter fun r => r.type = .filled ∧ r.symbolId = symbolId ∧ r.side = side).filter
        fun r => r.clientId = c).map fun r => v r.price r.executedQuantity).sum := by
    rw [sum_heardFills hfill hbbo, hheard c (Finset.mem_range.mp hc), fillsOf, List.filter_filter,
      List.filter_filter]
    congr 2
    refine List.filter_congr fun r _ => ?_
    rw [← Bool.decide_and, ← Bool.decide_and]
    exact decide_eq_decide.mpr (by tauto)
  rw [Finset.sum_congr rfl hclient,
    sum_filter_key MatchingEngineClientResponse.clientId _ fun r hr =>
    (hrs r (List.mem_filter.mp hr).1).client, fillsOn, List.map_map]
  rfl

end Trading

/-! ## 4. Runs of the engine -/

namespace MatchingEngine

variable {requests : List MatchingEngineClientRequest} {m : MatchingEngine}

/-- **Buyers, sellers and the tape.**  The fills sent to the buyers of a symbol, those sent to its
sellers and its published trades are one list of prices and quantities.  A trade writes two fills
and one update, and a buyer's fill is the taker's or the maker's according to who came first; the
order in which they are written is the same in all three places. -/
theorem fills_on_tape (hdoc : ∀ r ∈ requests, r.Documented) (hrun : run requests = .ok m)
    (symbolId : Nat) :
    fillsOn m.outgoingClientResponses symbolId .buy = tape m.outgoingMarketUpdates symbolId ∧
      fillsOn m.outgoingClientResponses symbolId .sell = tape m.outgoingMarketUpdates symbolId := by
  obtain ⟨m', hrun', -, hresponses, hupdates⟩ := run_sim (run_simulates hdoc hrun).2
  obtain rfl := Except.ok.inj (hrun.symm.trans hrun')
  have hside (d : Side) (hd : d.Directional) :
      fillsOn m.outgoingClientResponses symbolId d = tape m.outgoingMarketUpdates symbolId := by
    rw [← fillsOn_filter, ← tape_filter, hresponses, hupdates,
      IndexedBooks.responses_callsOf symbolId hdoc, IndexedBooks.updates_callsOf symbolId hdoc]
    exact IndexedBook.fillsOn_run hd (IndexedBooks.callsOf_documented symbolId hdoc)
  exact ⟨hside .buy (.inl rfl), hside .sell (.inr rfl)⟩

open Trading (PositionEvent ProfitInfo Balanced heardFills fillsOf netQuantity cash currentMark)

/-- One trade, of three. -/
theorem fills_on_tape_interleaved : ∃ m, run interleaved = .ok m ∧
    fillsOn m.outgoingClientResponses 0 .buy = tape m.outgoingMarketUpdates 0 ∧
    fillsOn m.outgoingClientResponses 0 .sell = tape m.outgoingMarketUpdates 0 := by
  have hdoc : ∀ r ∈ interleaved, r.Documented := by decide
  obtain ⟨m, -, hrun, -⟩ := run_published hdoc (by decide)
  exact ⟨m, hrun, fills_on_tape hdoc hrun 0⟩

/-- **What the buyers have bought the sellers have sold, for the same money.** -/
theorem quantities_cancel (hdoc : ∀ r ∈ requests, r.Documented) (hrun : run requests = .ok m)
    {symbolId : Nat} {events : Nat → List PositionEvent}
    (hheard : ∀ c, c < kMaxNumClients →
      heardFills (events c) = fillsOf m.outgoingClientResponses c symbolId) :
    ∑ c ∈ Finset.range kMaxNumClients, netQuantity (events c) = 0 ∧
      ∑ c ∈ Finset.range kMaxNumClients, cash (events c) = 0 := by
  have haddressed := addressed_of_run hdoc hrun
  obtain ⟨hbuy, hsell⟩ := fills_on_tape hdoc hrun symbolId
  have hexecuted (d : Side) :
      ∑ c ∈ Finset.range kMaxNumClients, ((events c).map (PositionEvent.executed d)).sum =
        ((fillsOn m.outgoingClientResponses symbolId d).map fun pq => pq.2).sum :=
    Trading.sum_clients haddressed (v := fun _ q => q) (fun _ => rfl) (fun _ => rfl) hheard
  have hamount (d : Side) :
      ∑ c ∈ Finset.range kMaxNumClients, ((events c).map (PositionEvent.amount d)).sum =
        ((fillsOn m.outgoingClientResponses symbolId d).map fun pq => (pq.1 * pq.2 : Rat)).sum :=
    Trading.sum_clients haddressed (v := fun p q => (p * q : Rat)) (fun _ => rfl) (fun _ => rfl)
      hheard
  constructor
  · simp only [netQuantity, Finset.sum_sub_distrib, ← Nat.cast_sum, hexecuted, hbuy, hsell,
      sub_self]
  · simp only [cash, Finset.sum_sub_distrib, hamount, hbuy, hsell, sub_self]

/-- **The market is a zero-sum game.**  Each client books its fills of a symbol, with any best bids
and offers in between, and all end on the same quotes: no booking fails, the positions add up to
zero, and so do the total profits.  Integers and prices are exact, as in `profits_balance`: neither
the flip test of the code, which can overflow, nor its floating point numbers would keep the sum at
zero.  The realised profits alone need not cancel. -/
theorem profits_cancel (hdoc : ∀ r ∈ requests, r.Documented) (hrun : run requests = .ok m)
    {symbolId : Nat} {events : Nat → List PositionEvent}
    (hheard : ∀ c, c < kMaxNumClients →
      heardFills (events c) = fillsOf m.outgoingClientResponses c symbolId)
    {b : BBO} (hbid : b.bidQty ≠ 0) (hask : b.askQty ≠ 0) :
    ∃ p : Nat → ProfitInfo,
      (∀ c, c < kMaxNumClients →
        (events c ++ [PositionEvent.bbo b]).foldlM ProfitInfo.step .empty = .ok (p c)) ∧
      ∑ c ∈ Finset.range kMaxNumClients, (p c).position = 0 ∧
      ∑ c ∈ Finset.range kMaxNumClients, (p c).totalPnl = 0 := by
  have haddressed := addressed_of_run hdoc hrun
  have : Nonempty ProfitInfo := ⟨.empty⟩
  have hbalanced (c : Nat) (hc : c < kMaxNumClients) : ∃ p : ProfitInfo,
      (events c ++ [PositionEvent.bbo b]).foldlM ProfitInfo.step .empty = .ok p ∧
        Balanced (events c ++ [PositionEvent.bbo b]) p := by
    refine Run.exists_foldlM_of_history (I := Balanced) Balanced.empty
      (fun _ _ _ hbal he => hbal.step he) _ fun e he => ?_
    rcases List.mem_append.mp he with he | he
    · cases e with
      | bbo => trivial
      | fill r =>
        have hr : r ∈ heardFills (events c) := List.mem_filterMap.mpr ⟨_, he, rfl⟩
        rw [hheard c hc] at hr
        obtain ⟨hr, hfilled⟩ := List.mem_filter.mp hr
        have htype := (of_decide_eq_true hfilled).1
        exact ⟨(haddressed r hr).executed htype, (haddressed r hr).side htype⟩
    · rw [List.mem_singleton.mp he]
      trivial
  choose! p hp hbal using hbalanced
  obtain ⟨hquantity, hcash⟩ := quantities_cancel hdoc hrun hheard
  have hmark (c : Nat) : currentMark (events c ++ [PositionEvent.bbo b]) =
      ((b.bidPrice + b.askPrice) / 2 : Rat) := by
    rw [Trading.currentMark_append]
    exact if_pos ⟨hbid, hask⟩
  have hposition (c : Nat) (hc : c ∈ Finset.range kMaxNumClients) :
      (p c).position = netQuantity (events c) := by
    rw [(hbal c (Finset.mem_range.mp hc)).position, (Trading.append_bbo _ _).1]
  have htotal (c : Nat) (hc : c ∈ Finset.range kMaxNumClients) : (p c).totalPnl =
      cash (events c) + netQuantity (events c) * ((b.bidPrice + b.askPrice) / 2 : Rat) := by
    rw [(hbal c (Finset.mem_range.mp hc)).totalPnl, hmark, hposition c hc,
      (Trading.append_bbo _ _).2]
  refine ⟨p, hp, ?_, ?_⟩
  · rw [Finset.sum_congr rfl hposition, hquantity]
  · rw [Finset.sum_congr rfl htotal, Finset.sum_add_distrib, hcash, ← Finset.sum_mul,
      ← Int.cast_sum, hquantity]
    simp

/-- The buyer and the seller of three, when the quotes are 100 and 104. -/
theorem profits_cancel_interleaved : ∃ m, run interleaved = .ok m ∧ ∃ p : Nat → ProfitInfo,
    (∀ c, c < kMaxNumClients →
      ((fillsOf m.outgoingClientResponses c 0).map PositionEvent.fill ++
        [PositionEvent.bbo ⟨100, 104, 1, 1⟩]).foldlM ProfitInfo.step .empty = .ok (p c)) ∧
    ∑ c ∈ Finset.range kMaxNumClients, (p c).position = 0 ∧
    ∑ c ∈ Finset.range kMaxNumClients, (p c).totalPnl = 0 := by
  have hdoc : ∀ r ∈ interleaved, r.Documented := by decide
  obtain ⟨m, -, hrun, -⟩ := run_published hdoc (by decide)
  exact ⟨m, hrun, profits_cancel hdoc hrun (fun c _ => Trading.heardFills_map_fill _)
    (by decide) (by decide)⟩

end MatchingEngine

end YQuant
