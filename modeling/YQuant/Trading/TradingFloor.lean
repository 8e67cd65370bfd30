/-
# A strategy on the exchange

A thread that runs a real strategy, the exchange with its other clients, and the responses on their
way.  The thread processes responses and market updates in any interleaving; the updates are any
that a feed can deliver (`Deliverable`), behind the exchange by any delay.

`TradingSystem` has an arbitrary strategy in the place of the thread.  Every run here is a run
there (`refines_system`): a market update is a call of `moveOrders` with quotes of the band, or
nothing.  So the position at the exchange stays within the limit (`position_within`), and on top of
it the position keeper books exactly what the thread has heard.

What has to be added to the trading system is everything that makes the thread's own functions
succeed: the books of the thread mirror what has been delivered to them, the best prices of a book
are prices of the band because orders come from updates (`inBand`), and positions and quantities
are such that the 64-bit integers are exact (`Fits`, `Sound`).  Two threads of the same client
would break it, as would a client that sends by hand.
-/
import YQuant.Trading.OutOfBand
import YQuant.Trading.PositionLimit
import YQuant.Trading.TradeThread

namespace YQuant

namespace Trading

open MarketOrderBook (Applicable)

/-! ## 1. The system -/

/-- The live orders of a symbol that a list of updates describes. -/
def liveOrders (us : List MatchingEngineMarketUpdate) (symbolId : Nat) : List LiveOrder :=
  (us.filter fun u => u.symbolId = symbolId).foldl replay []

instance (l : List LiveOrder) : (u : MatchingEngineMarketUpdate) → Decidable (Applicable l u)
  | ⟨.add, _, _, _, _, _, _⟩ => inferInstanceAs (Decidable (_ ∧ _ ∧ _ ∧ _))
  | ⟨.modify, _, _, _, _, _, _⟩ | ⟨.cancel, _, _, _, _, _, _⟩ =>
    inferInstanceAs (Decidable (∃ o ∈ l, _ ∧ _ ∧ _))
  | ⟨.clear, _, _, _, _, _, _⟩ | ⟨.trade, _, _, _, _, _, _⟩ | ⟨.invalid, _, _, _, _, _, _⟩
  | ⟨.snapshotStart, _, _, _, _, _, _⟩ | ⟨.snapshotEnd, _, _, _, _, _, _⟩
  | ⟨.other _, _, _, _, _, _, _⟩ => isTrue trivial

/-- An update that a feed can deliver where it arrives. -/
def Deliverable (us : List MatchingEngineMarketUpdate) (u : MatchingEngineMarketUpdate) : Prop :=
  u.symbolId < kMaxSymbols ∧ Applicable (liveOrders us u.symbolId) u ∧
    (u.type = .add → kDefaultPriceBand.InBand u.price)

instance (us : List MatchingEngineMarketUpdate) (u : MatchingEngineMarketUpdate) :
    Decidable (Deliverable us u) :=
  inferInstanceAs (Decidable (_ ∧ _ ∧ _))

structure TradingFloor where
  engine : MatchingEngine
  thread : TradeThread
  responses : List MatchingEngineClientResponse
  /-- The market updates the thread has processed. -/
  delivered : List MatchingEngineMarketUpdate

namespace TradingFloor

def init (clientId : Nat) (algo : AlgoType) (tickerCfg : Nat → TradeEngineCfg)
    (maxLoss : Nat → ℚ) : Except Fault TradingFloor := do
  let engine ← MatchingEngine.init
  .ok ⟨engine, .init clientId algo tickerCfg maxLoss, [], []⟩

/-- What a `TradingSystem` sees. -/
def system (s : TradingFloor) : TradingSystem := ⟨s.engine, s.thread.trader, s.responses⟩

/-- The exchange processes a request. -/
def process (s : TradingFloor) (r : MatchingEngineClientRequest) : Except Fault TradingFloor := do
  let sys ← s.system.process r
  .ok { s with
    engine := sys.engine
    responses := sys.responses }

inductive Event where
  /-- The thread takes the next response. -/
  | takeResponse
  /-- The thread takes a market update. -/
  | takeUpdate (update : MatchingEngineMarketUpdate)
  /-- The exchange takes the next request of the thread. -/
  | takeRequest
  /-- The exchange takes a request of another client. -/
  | otherRequest (request : MatchingEngineClientRequest)
  /-- The thread is told to stop. -/
  | stop

def step (s : TradingFloor) : Event → Except Fault TradingFloor
  | .takeResponse =>
    match s.responses with
    | [] => .ok s
    | r :: rest => do
      let thread ← s.thread.onOrderUpdate r
      .ok { s with
        thread := thread
        responses := rest }
  | .takeUpdate u => do
    let thread ← s.thread.onMarketUpdate u
    .ok { s with
      thread := thread
      delivered := s.delivered ++ [u] }
  | .takeRequest =>
    match s.thread.outgoingOgwRequests with
    | [] => .ok s
    | r :: rest => process { s with thread := { s.thread with outgoingOgwRequests := rest } } r
  | .otherRequest r => s.process r
  | .stop => .ok { s with thread := s.thread.stop }

def Allowed (s : TradingFloor) : Event → Prop
  | .takeUpdate u => Deliverable s.delivered u
  | .otherRequest r => r.Documented ∧ r.clientId ≠ s.thread.clientId
  | .takeResponse | .takeRequest | .stop => True

instance (s : TradingFloor) : (e : Event) → Decidable (s.Allowed e)
  | .takeUpdate _ => inferInstanceAs (Decidable (Deliverable _ _))
  | .otherRequest _ => inferInstanceAs (Decidable (_ ∧ _))
  | .takeResponse | .takeRequest | .stop => isTrue trivial

end TradingFloor

/-- What the widths of the fields and the choice of an algorithm promise. -/
structure Configured (algo : AlgoType) (tickerCfg : Nat → TradeEngineCfg) : Prop where
  trades : algo = .maker ∨ algo = .taker
  clip : ∀ b, (tickerCfg b).clip < kWord32
  maxPosition : ∀ b, (tickerCfg b).riskCfg.maxPosition < kWord32

/-! ## 2. Quotes of the band -/

namespace OrderManager

variable {t t' : TradeEngine} {b clip : Nat} {bid ask : Option Int} {lossTooLarge : Bool}

@[simp] theorem bandPrice_bandPrice (price : Option Int) :
    bandPrice (bandPrice price) = bandPrice price := by
  cases hprice : bandPrice price with
  | none => rfl
  | some p =>
    obtain rfl := bandPrice_eq_some hprice
    exact hprice

/-- A price out of the band is no quote to begin with. -/
theorem moveOrders_bandPrice : moveOrders t b (bandPrice bid) (bandPrice ask) clip lossTooLarge =
    moveOrders t b bid ask clip lossTooLarge := by
  simp only [moveOrders, moveOrder, bandPrice_bandPrice]

/-- A price next to one of the band is either of the band or no quote. -/
theorem inBand_of_near {best p : Int} (hbest : kDefaultPriceBand.InBand best)
    (hlow : best - 1 ≤ p) (hhigh : p ≤ best + 1) (h : bandPrice (some p) = some p) :
    kDefaultPriceBand.InBand p := by
  rcases (bandPrice_some_iff p).mp h with hband | ⟨k, hk, hge, -⟩
  · exact hband
  · -- the aliases of the band are far away from it
    obtain ⟨-, hmax, -⟩ := hbest
    simp only [kDefaultPriceBand, kTickCount, kMaxPriceLevels] at hmax
    omega

/-- The order manager leaves the rest of the engine as it is. -/
theorem moveOrders_frame (h : moveOrders t b bid ask clip lossTooLarge = .ok t') :
    t'.clientId = t.clientId ∧ t'.riskCfg = t.riskCfg ∧ t'.tickerPosition = t.tickerPosition := by
  obtain ⟨-, -, h⟩ := bind_ok h
  obtain ⟨t₁, hbid, hask⟩ := bind_ok h
  have hframe {t t' : TradeEngine} {d : Side} {price : Option Int}
      (h : moveOrder t b price d clip lossTooLarge = .ok t') :
      t'.clientId = t.clientId ∧ t'.riskCfg = t.riskCfg ∧ t'.tickerPosition = t.tickerPosition := by
    cases moveOrder_cases h with
    | kept => exact ⟨rfl, rfl, rfl⟩
    | canceled => exact ⟨rfl, rfl, rfl⟩
    | entered => exact ⟨rfl, rfl, rfl⟩
  obtain ⟨hclient, hcfg, hposition⟩ := hframe hbid
  obtain ⟨hclient', hcfg', hposition'⟩ := hframe hask
  exact ⟨hclient'.trans hclient, hcfg'.trans hcfg, hposition'.trans hposition⟩

end OrderManager

/-! ## 3. The order manager in the thread -/

namespace TradeThread

variable {t t' : TradeThread} {r : MatchingEngineClientResponse} {u : MatchingEngineMarketUpdate}
  {m : MarketOrderBook} {p : ProfitInfo}

theorem trader_withTrader {e : TradeEngine} (hclient : e.clientId = t.clientId)
    (hcfg : e.riskCfg = t.trader.riskCfg) (hposition : e.tickerPosition = t.trader.tickerPosition) :
    (t.withTrader e).trader = e := by
  cases e
  cases hclient
  cases hcfg
  cases hposition
  rfl

/-- Positions that the risk manager reads alike. -/
theorem toPositionInfo_update {b : Nat}
    (hp : p.toPositionInfo = (t.positionKeeper b).toPositionInfo) :
    (fun b' => (Function.update t.positionKeeper b p b').toPositionInfo) =
      fun b' => (t.positionKeeper b').toPositionInfo := by
  funext b'
  rcases eq_or_ne b' b with rfl | hne
  · rw [Function.update_self, hp]
  · rw [Function.update_of_ne hne]

theorem info_marked {bbo : BBO} {p' : ProfitInfo} (h : p.marked u bbo = .ok p') :
    p'.toPositionInfo = p.toPositionInfo := by
  unfold ProfitInfo.marked at h
  split at h
  · exact info_updateBBO h
  · cases h
    rfl

/-- A market update changes nothing that the order manager reads. -/
theorem trader_noted (hp : (t.positionKeeper u.symbolId).marked u m.bbo = .ok p) :
    (t.noted u m p).trader = t.trader := by
  unfold trader noted
  rw [toPositionInfo_update (info_marked hp)]

/-- **What the strategy wants is what `moveOrders` is called with.** -/
theorem moveOrders_trader {b : Nat} {quotes : Option Quotes} (h : t.moveOrders b quotes = .ok t') :
    (quotes = none ∧ t' = t) ∨ ∃ q e, quotes = some q ∧ t' = t.withTrader e ∧ e = t'.trader ∧
      OrderManager.moveOrders t.trader b q.bidPrice q.askPrice q.clip (t.lossTooLarge b) =
        .ok e := by
  cases quotes with
  | none =>
    cases h
    exact .inl ⟨rfl, rfl⟩
  | some q =>
    obtain ⟨e, he, hdone⟩ := bind_ok h
    cases hdone
    obtain ⟨hclient, hcfg, hposition⟩ := OrderManager.moveOrders_frame he
    exact .inr ⟨q, e, rfl, rfl, (trader_withTrader hclient hcfg hposition).symm, he⟩

/-- The calls of the order manager change no book, no position and no setting. -/
structure SameBut (t t' : TradeThread) : Prop where
  clientId : t'.clientId = t.clientId
  algo : t'.algo = t.algo
  tickerCfg : t'.tickerCfg = t.tickerCfg
  maxLoss : t'.maxLoss = t.maxLoss
  tickerOrderBook : t'.tickerOrderBook = t.tickerOrderBook
  positionKeeper : t'.positionKeeper = t.positionKeeper
  stopping : t'.stopping = t.stopping

theorem moveOrders_same {b : Nat} {quotes : Option Quotes} (h : t.moveOrders b quotes = .ok t') :
    t.SameBut t' := by
  rcases moveOrders_trader h with ⟨-, rfl⟩ | ⟨q, e, -, rfl, -, -⟩
  · exact ⟨rfl, rfl, rfl, rfl, rfl, rfl, rfl⟩
  · exact ⟨rfl, rfl, rfl, rfl, rfl, rfl, rfl⟩

def withPositions (t : TradeThread) (ps : Nat → ProfitInfo) : TradeThread :=
  { t with positionKeeper := ps }

/-- The position keeper after a response. -/
def Books (t : TradeThread) (r : MatchingEngineClientResponse) (ps : Nat → ProfitInfo) : Prop :=
  if r.type = .filled then r.symbolId < kMaxSymbols ∧
    ∃ p, (t.positionKeeper r.symbolId).addFill int64 r = .ok p ∧
      ps = Function.update t.positionKeeper r.symbolId p
  else ps = t.positionKeeper

/-- **A response** is booked and reaches the order manager. -/
theorem onOrderUpdate_cases (htrades : t.algo = .maker ∨ t.algo = .taker)
    (h : t.onOrderUpdate r = .ok t') : ∃ ps e, t.Books r ps ∧
      OrderManager.onOrderUpdate (t.withPositions ps).trader r = .ok e ∧
      t' = (t.withPositions ps).withTrader e := by
  obtain ⟨t₁, hbooked, h⟩ := bind_ok h
  obtain ⟨ps, hps, rfl⟩ : ∃ ps, t.Books r ps ∧ t₁ = t.withPositions ps := by
    unfold Books
    split at hbooked
    · next htype =>
      obtain ⟨_, hticker, hbooked⟩ := bind_ok hbooked
      obtain ⟨p, hp, hbooked⟩ := bind_ok hbooked
      cases hbooked
      refine ⟨_, ?_, rfl⟩
      rw [if_pos htype]
      exact ⟨TradeEngine.checkTicker_ok hticker, p, hp, rfl⟩
    · next htype =>
      cases hbooked
      exact ⟨t.positionKeeper, by rw [if_neg htype], rfl⟩
  have hsame : (t.withPositions ps).algo = t.algo := rfl
  rw [hsame] at h
  rcases htrades with halgo | halgo <;> rw [halgo] at h <;> dsimp only at h
  · obtain ⟨e, he, hdone⟩ := bind_ok h
    cases hdone
    exact ⟨ps, e, hps, he, rfl⟩
  · obtain ⟨e, he, hdone⟩ := bind_ok h
    cases hdone
    exact ⟨ps, e, hps, he, rfl⟩

/-- A fill that the 64-bit integers can hold. -/
structure Fits (t : TradeThread) (r : MatchingEngineClientResponse) : Prop where
  position : (t.positionKeeper r.symbolId).position.natAbs < kWord32
  quantity : r.executedQuantity < kWord32
  side : r.side.Directional

theorem Books.trader {ps : Nat → ProfitInfo} (h : t.Books r ps)
    (hfits : r.type = .filled → t.Fits r) : (t.withPositions ps).trader =
      { t.trader with tickerPosition := TradingSystem.positionsAfter t.trader r } := by
  unfold Books at h
  unfold TradingSystem.positionsAfter
  split at h
  · next htype =>
    obtain ⟨-, p, hp, rfl⟩ := h
    have hfit := hfits htype
    obtain ⟨p', hp', hinfo⟩ := info_addFill hfit.position hfit.quantity hfit.side
    obtain rfl := Except.ok.inj (hp.symm.trans hp')
    rw [if_pos htype]
    simp only [withPositions, TradeThread.trader, TradeEngine.mk.injEq, and_true, true_and]
    funext b
    rcases eq_or_ne b r.symbolId with rfl | hne
    · rw [Function.update_self, Function.update_self, hinfo]
    · rw [Function.update_of_ne hne, Function.update_of_ne hne]
  · next htype =>
    rw [if_neg htype, h]
    rfl

/-- **The thread takes a response as the order manager and the risk manager do.** -/
theorem onOrderUpdate_trader (htrades : t.algo = .maker ∨ t.algo = .taker)
    (hfits : r.type = .filled → t.Fits r) (h : t.onOrderUpdate r = .ok t') :
    t.trader.onOrderUpdate r = .ok t'.trader := by
  obtain ⟨ps, e, hps, he, rfl⟩ := onOrderUpdate_cases htrades h
  have htrader := hps.trader hfits
  have hframe : e.clientId = (t.withPositions ps).clientId ∧
      e.riskCfg = (t.withPositions ps).trader.riskCfg ∧
      e.tickerPosition = (t.withPositions ps).trader.tickerPosition := by
    rcases OrderManager.onOrderUpdate_cases he with ⟨rfl, -⟩ | ⟨d, -, rfl⟩
    · exact ⟨rfl, rfl, rfl⟩
    · exact ⟨rfl, rfl, rfl⟩
  rw [trader_withTrader hframe.1 hframe.2.1 hframe.2.2, ← he, htrader, TradeEngine.onOrderUpdate]
  unfold Books at hps
  unfold TradingSystem.positionsAfter
  split at hps
  · next htype =>
    simp only [htype, if_true, TradeEngine.addFill, TradeEngine.checkTicker, hps.1, ok_bind]
  · next htype =>
    simp only [htype, if_false, ok_bind]

end TradeThread

/-! ## 4. The books of the thread -/

/-- A book shows live orders, which are all at prices of the band. -/
structure Follows (m : MarketOrderBook) (l : List LiveOrder) : Prop where
  mirrors : ∃ addr ladder, m.Mirrors addr ladder l
  shows : m.Shows l
  prices : ∀ o ∈ l, kDefaultPriceBand.InBand o.price

namespace Follows

variable {m : MarketOrderBook} {l : List LiveOrder} {u : MatchingEngineMarketUpdate}

theorem init : Follows .init [] :=
  ⟨⟨id, _, MarketOrderBook.mirrors_init id⟩, MarketOrderBook.shows_init,
    fun _ ho => absurd ho List.not_mem_nil⟩

/-- Prices come from updates that add orders. -/
theorem prices_replay (h : ∀ o ∈ l, kDefaultPriceBand.InBand o.price)
    (hadd : u.type = .add → kDefaultPriceBand.InBand u.price) :
    ∀ o ∈ replay l u, kDefaultPriceBand.InBand o.price := by
  intro o ho
  unfold replay at ho
  cases htype : u.type with
  | add =>
    simp only [htype, List.mem_append, List.mem_singleton] at ho
    rcases ho with ho | rfl
    · exact h o ho
    · exact hadd htype
  | modify =>
    simp only [htype, List.mem_map] at ho
    obtain ⟨o', ho', rfl⟩ := ho
    split <;> exact h o' ho'
  | cancel =>
    simp only [htype, List.mem_filter] at ho
    exact h o ho.1
  | clear => simp [htype] at ho
  | invalid | trade | snapshotStart | snapshotEnd | other =>
    simp only [htype] at ho
    exact h o ho

theorem step (h : Follows m l) (happ : Applicable l u)
    (hadd : u.type = .add → kDefaultPriceBand.InBand u.price) :
    ∃ m', m.onMarketUpdate u = .ok m' ∧ Follows m' (replay l u) := by
  obtain ⟨addr, ladder, hm⟩ := h.mirrors
  obtain ⟨m', addr', ladder', hrun, hm', hshow'⟩ := hm.onMarketUpdate h.shows happ
  exact ⟨m', hrun, ⟨addr', ladder', hm'⟩, hshow', prices_replay h.prices hadd⟩

/-- **The best prices are prices of the band**, where a side has any. -/
theorem inBand (h : Follows m l) : (m.bbo.bidQty ≠ 0 → kDefaultPriceBand.InBand m.bbo.bidPrice) ∧
    (m.bbo.askQty ≠ 0 → kDefaultPriceBand.InBand m.bbo.askPrice) := by
  have hside (d : Side) (hd : d.Directional) (hqty : (m.bbo.side d).2 ≠ 0) :
      kDefaultPriceBand.InBand (m.bbo.side d).1 := by
    rcases h.shows d hd with ⟨hzero, -⟩ | ⟨⟨o, ho, -, hprice⟩, -, -⟩
    · exact absurd (congrArg Prod.snd hzero) hqty
    · rw [← hprice]
      exact h.prices o ho
  exact ⟨hside .buy (.inl rfl), hside .sell (.inr rfl)⟩

end Follows

/-- What a symbol's updates are among those delivered. -/
theorem liveOrders_snoc (us : List MatchingEngineMarketUpdate) (u : MatchingEngineMarketUpdate)
    (b : Nat) : liveOrders (us ++ [u]) b =
      if u.symbolId = b then replay (liveOrders us b) u else liveOrders us b := by
  unfold liveOrders
  rw [List.filter_append, List.foldl_append]
  split
  · next h => simp [h]
  · next h => simp [h]

/-! ## 5. Refinement -/

namespace TradingSystem

variable {c : Nat} {s s' : TradingSystem} {xs xs' : IndexedBooks} {riskCfg : Nat → RiskCfg}
  {e : TradingSystem.Event}

/-- Every order of a slot has a quantity of 32 bits left. -/
def Sized (s : TradingSystem) : Prop := ∀ b d, s.trader.exposure b d < kWord32

/-- The quantity of a call of `moveOrders` has 32 bits. -/
def ClipFits : TradingSystem.Event → Prop
  | .moveOrders _ _ _ clip _ => clip < kWord32
  | .takeRequest | .otherRequest _ | .takeResponse => True

theorem Sized.moveOrder {b clip : Nat} {price : Option Int} {d : Side} {lossTooLarge : Bool}
    {t t' : TradeEngine} (h : ∀ b d, t.exposure b d < kWord32) (hclip : clip < kWord32)
    (hmove : OrderManager.moveOrder t b price d clip lossTooLarge = .ok t') :
    ∀ b d, t'.exposure b d < kWord32 := by
  intro b' d'
  cases OrderManager.moveOrder_cases hmove with
  | kept => exact h b' d'
  | canceled hlive =>
    rw [TradeEngine.exposure_cancelOrder hlive]
    exact h b' d'
  | entered =>
    rw [TradeEngine.exposure_entered]
    split
    · exact hclip
    · exact h b' d'

theorem Sized.next (h : Sized s) (hs : Synced c s xs) (hclip : ClipFits e)
    (hout : Outcome s xs e s' xs') : Sized s' := by
  cases hout with
  | idle => exact h
  | moved _ hbid hask => exact Sized.moveOrder (Sized.moveOrder h hclip hbid) hclip hask
  | taken => exact h
  | other => exact h
  | @heard x _ _ hqueue hupdate =>
    intro b d
    have hs' := hs.withPositions (positionsAfter s.trader x)
    have hlinked := hs'.linked
    dsimp only at hlinked
    rw [hqueue] at hlinked
    have hle := TradeEngine.exposure_hear hlinked hs'.trader hupdate b d
    exact (Nat.le_add_left _ _).trans_lt (hle.trans_lt (h b d))

/-- What holds of the exchange and the engine in every state of a run. -/
structure Sound (c : Nat) (riskCfg : Nat → RiskCfg) (s : TradingSystem) : Prop where
  synced : ∃ xs, Synced c s xs
  limited : Limited c riskCfg s
  sized : Sized s
  symbols : ∀ x ∈ s.responses, x.symbolId < kMaxSymbols

/-- What holds of every answer to a documented request holds of the responses on their way. -/
theorem forall_responses {P : MatchingEngineClientResponse → Prop} (hs : Synced c s xs)
    (hP : ∀ r : MatchingEngineClientRequest, r.Documented → ∀ x ∈ xs.responses r, P x)
    (h : ∀ x ∈ s.responses, P x) (hout : Outcome s xs e s' xs') : ∀ x ∈ s'.responses, P x := by
  have hanswers {r : MatchingEngineClientRequest} (hdoc : r.Documented) :
      ∀ x ∈ s.responses ++ (xs.responses r).filter fun x => x.clientId =
        s.trader.clientId, P x := by
    intro x hx
    rcases List.mem_append.mp hx with hx | hx
    · exact h x hx
    · exact hP r hdoc x (List.mem_filter.mp hx).1
  cases hout with
  | idle | moved => exact h
  | taken hqueue _ _ => exact hanswers (hs.trader.requests _ (hqueue ▸ List.mem_cons_self)).2
  | other hdoc _ _ _ => exact hanswers hdoc
  | heard hqueue _ =>
    intro x hx
    exact h x (hqueue ▸ List.mem_cons_of_mem _ hx)

theorem Sound.step (h : Sound c riskCfg s) (hc : c < kMaxNumClients) (he : s.Allowed e)
    (hclip : ClipFits e) (hstep : s.step e = .ok s') : Sound c riskCfg s' := by
  obtain ⟨xs, hs⟩ := h.synced
  obtain ⟨xs', hout⟩ := hs.outcome he hstep
  refine ⟨⟨xs', hs.next hc he hout⟩, h.limited.next hs hout, h.sized.next hs hclip hout, ?_⟩
  refine forall_responses hs (fun r hdoc x hx => ?_) h.symbols hout
  rw [IndexedBooks.responses_symbol hx]
  exact hdoc.1

theorem Sound.position_le (h : Sound c riskCfg s) (b : Nat) :
    (s.trader.tickerPosition b).position.natAbs ≤ (riskCfg b).maxPosition := by
  have hlong := h.limited.long b
  have hshort := h.limited.short b
  omega

/-- A fill on its way is of a slot's side and of 32 bits. -/
theorem Sound.fill_fits (h : Sound c riskCfg s) {x : MatchingEngineClientResponse}
    (hx : x ∈ s.responses) (htype : x.type = .filled) :
    x.executedQuantity < kWord32 ∧ x.side.Directional := by
  obtain ⟨xs, hs⟩ := h.synced
  obtain ⟨hclient, hplaced⟩ := hs.linked.filled x hx
  refine ⟨lt_of_le_of_lt ?_ (h.sized x.symbolId x.side), (hs.trader.slots _ _ (hplaced htype).1).1⟩
  refine le_trans ?_ (TradeEngine.executedOn_le_exposure hs.linked)
  obtain ⟨l, l', hsplit⟩ := List.append_of_mem hx
  rw [hsplit, executedOn_append, executedOn_cons, executedOn_single htype hclient]
  omega

end TradingSystem

namespace TradingFloor

open TradingSystem (Sound)

variable {c : Nat} {algo : AlgoType} {cfg : Nat → TradeEngineCfg} {maxLoss : Nat → ℚ}
  {s s' : TradingFloor} {e : Event}

/-- What holds in every state of a run. -/
structure Inv (c : Nat) (algo : AlgoType) (cfg : Nat → TradeEngineCfg) (s : TradingFloor) :
    Prop where
  sound : Sound c (fun b => (cfg b).riskCfg) s.system
  algo : s.thread.algo = algo
  tickerCfg : s.thread.tickerCfg = cfg
  books : ∀ b, b < kMaxSymbols → Follows (s.thread.tickerOrderBook b) (liveOrders s.delivered b)

theorem Inv.fits (h : Inv c algo cfg s) (hcfg : Configured algo cfg)
    {r : MatchingEngineClientResponse} (hr : r ∈ s.responses) (htype : r.type = .filled) :
    s.thread.Fits r := by
  obtain ⟨hqty, hside⟩ := h.sound.fill_fits hr htype
  exact ⟨(h.sound.position_le r.symbolId).trans_lt (hcfg.maxPosition _), hqty, hside⟩

/-- A market update is delivered: its book takes it, and its position can be marked. -/
theorem Inv.update (h : Inv c algo cfg s) {u : MatchingEngineMarketUpdate}
    (hu : Deliverable s.delivered u) : ∃ m,
      (s.thread.tickerOrderBook u.symbolId).onMarketUpdate u = .ok m ∧
        Follows m (replay (liveOrders s.delivered u.symbolId) u) :=
  (h.books u.symbolId hu.1).step hu.2.1 hu.2.2

/-- The queue of the gateway without its head. -/
def dropped (s : TradingFloor) (rest : List MatchingEngineClientRequest) : TradingFloor :=
  { s with thread := { s.thread with outgoingOgwRequests := rest } }

/-- **What a step can do.** -/
inductive Outcome (s : TradingFloor) : Event → TradingFloor → Prop
  | idle {e : Event} (hqueue : e = .takeResponse ∧ s.responses = [] ∨
      e = .takeRequest ∧ s.thread.outgoingOgwRequests = []) : Outcome s e s
  | heard {r : MatchingEngineClientResponse} {rest : List MatchingEngineClientResponse}
      {t : TradeThread} (hqueue : s.responses = r :: rest) (ht : s.thread.onOrderUpdate r = .ok t) :
      Outcome s .takeResponse { s with
        thread := t
        responses := rest }
  | noted {u : MatchingEngineMarketUpdate} {m : MarketOrderBook} {p : ProfitInfo} {t : TradeThread}
      (hm : (s.thread.tickerOrderBook u.symbolId).onMarketUpdate u = .ok m)
      (hp : (s.thread.positionKeeper u.symbolId).marked u m.bbo = .ok p)
      (hmove : (s.thread.noted u m p).moveOrders u.symbolId (s.thread.wanted u m.bbo) = .ok t) :
      Outcome s (.takeUpdate u) { s with
        thread := t
        delivered := s.delivered ++ [u] }
  | taken {r : MatchingEngineClientRequest} {rest : List MatchingEngineClientRequest}
      {sys : TradingSystem} (hqueue : s.thread.outgoingOgwRequests = r :: rest)
      (hsys : (s.dropped rest).system.process r = .ok sys) :
      Outcome s .takeRequest { s.dropped rest with
        engine := sys.engine
        responses := sys.responses }
  | other {r : MatchingEngineClientRequest} {sys : TradingSystem}
      (hsys : s.system.process r = .ok sys) :
      Outcome s (.otherRequest r) { s with
        engine := sys.engine
        responses := sys.responses }
  | stopped : Outcome s .stop { s with thread := s.thread.stop }

theorem outcome (hstep : s.step e = .ok s') : Outcome s e s' := by
  cases e with
  | stop =>
    cases hstep
    exact .stopped
  | otherRequest r =>
    obtain ⟨sys, hsys, hdone⟩ := bind_ok hstep
    cases hdone
    exact .other hsys
  | takeUpdate u =>
    obtain ⟨t, ht, hdone⟩ := bind_ok hstep
    cases hdone
    obtain ⟨-, m, p, hm, hp, hmove⟩ := TradeThread.onMarketUpdate_cases ht
    exact .noted hm hp hmove
  | takeRequest =>
    unfold step at hstep
    cases hqueue : s.thread.outgoingOgwRequests with
    | nil =>
      rw [hqueue] at hstep
      cases hstep
      exact .idle (.inr ⟨rfl, hqueue⟩)
    | cons r rest =>
      rw [hqueue] at hstep
      obtain ⟨sys, hsys, hdone⟩ := bind_ok hstep
      cases hdone
      exact .taken hqueue hsys
  | takeResponse =>
    unfold step at hstep
    cases hqueue : s.responses with
    | nil =>
      rw [hqueue] at hstep
      cases hstep
      exact .idle (.inl ⟨rfl, hqueue⟩)
    | cons r rest =>
      rw [hqueue] at hstep
      obtain ⟨t, ht, hdone⟩ := bind_ok hstep
      cases hdone
      exact .heard hqueue ht

/-- The exchange changes nothing of the engine. -/
theorem trader_of_process {sys sys' : TradingSystem} {r : MatchingEngineClientRequest}
    (h : sys.process r = .ok sys') : sys' = ⟨sys'.engine, sys.trader, sys'.responses⟩ := by
  obtain ⟨engine, -, hdone⟩ := bind_ok h
  cases hdone
  rfl

/-- **A market update moves orders within the band**, if it moves any. -/
theorem Inv.moved (h : Inv c algo cfg s) (hcfg : Configured algo cfg)
    {u : MatchingEngineMarketUpdate} (hu : Deliverable s.delivered u) {m : MarketOrderBook}
    {p : ProfitInfo} {t : TradeThread}
    (hm : (s.thread.tickerOrderBook u.symbolId).onMarketUpdate u = .ok m)
    (hp : (s.thread.positionKeeper u.symbolId).marked u m.bbo = .ok p)
    (hmove : (s.thread.noted u m p).moveOrders u.symbolId (s.thread.wanted u m.bbo) = .ok t) :
    t.trader = s.thread.trader ∨ ∃ bid ask clip lossTooLarge, clip < kWord32 ∧
      (∀ p ∈ bid, kDefaultPriceBand.InBand p) ∧ (∀ p ∈ ask, kDefaultPriceBand.InBand p) ∧
      OrderManager.moveOrders s.thread.trader u.symbolId bid ask clip lossTooLarge =
        .ok t.trader := by
  obtain ⟨m', hm', hfollows⟩ := h.update hu
  obtain rfl := Except.ok.inj (hm.symm.trans hm')
  have htrader := TradeThread.trader_noted (m := m) hp
  rcases TradeThread.moveOrders_trader hmove with ⟨-, rfl⟩ | ⟨q, e, hq, -, rfl, he⟩
  · exact .inl htrader
  · obtain ⟨-, hbid, hask, hclip, hnear⟩ := TradeThread.wanted_near hq
    have hpriced {price : Option Int} (hprice : price = q.bidPrice ∨ price = q.askPrice) :
        ∀ p ∈ OrderManager.bandPrice price, kDefaultPriceBand.InBand p := by
      intro p hp
      have hsome := OrderManager.bandPrice_eq_some hp
      rw [hsome] at hp hprice
      obtain ⟨best, hbest, hlow, hhigh⟩ := hnear p (hprice.imp Eq.symm Eq.symm)
      refine OrderManager.inBand_of_near ?_ hlow hhigh hp
      rcases hbest with rfl | rfl
      · exact hfollows.inBand.1 hbid
      · exact hfollows.inBand.2 hask
    refine .inr ⟨_, _, q.clip, (s.thread.noted u m p).lossTooLarge u.symbolId, ?_,
      hpriced (.inl rfl), hpriced (.inr rfl), ?_⟩
    · rw [hclip, h.tickerCfg]
      exact hcfg.clip _
    · rw [htrader] at he
      rw [OrderManager.moveOrders_bandPrice, he]

/-- **A step of the floor is a step of the system**, or none. -/
theorem Inv.sim (h : Inv c algo cfg s) (hcfg : Configured algo cfg) (he : s.Allowed e)
    (hout : Outcome s e s') : s'.system = s.system ∨
      ∃ e, s.system.Allowed e ∧ TradingSystem.ClipFits e ∧ s.system.step e = .ok s'.system := by
  cases hout with
  | idle | stopped => exact .inl rfl
  | @other r sys hsys =>
    refine .inr ⟨.otherRequest r, he, trivial, hsys.trans ?_⟩
    rw [trader_of_process hsys]
    rfl
  | @taken r rest sys hqueue hsys =>
    have hqueue' : s.system.trader.outgoingOgwRequests = r :: rest := hqueue
    have hdropped : (s.dropped rest).system =
        { s.system with trader := s.system.trader.dropRequest } := by
      unfold TradeEngine.dropRequest
      rw [hqueue']
      rfl
    refine .inr ⟨.takeRequest, trivial, trivial, ?_⟩
    simp only [TradingSystem.step, hqueue', ← hdropped, hsys]
    rw [trader_of_process hsys]
    rfl
  | @noted u m p t hm hp hmove =>
    rcases h.moved hcfg he hm hp hmove with hkept |
      ⟨bid, ask, clip, loss, hclip, hbid, hask, hmoved⟩
    · left
      simp only [system, hkept]
    · refine .inr ⟨.moveOrders u.symbolId bid ask clip loss, ⟨hbid, hask⟩, hclip, ?_⟩
      simp only [TradingSystem.step, system, hmoved, ok_bind]
  | @heard r rest t hqueue ht =>
    have hr : r ∈ s.responses := hqueue ▸ List.mem_cons_self
    have htrades : s.thread.algo = .maker ∨ s.thread.algo = .taker := h.algo ▸ hcfg.trades
    have htrader : s.system.trader.onOrderUpdate r = .ok t.trader :=
      TradeThread.onOrderUpdate_trader htrades (h.fits hcfg hr) ht
    have hqueue' : s.system.responses = r :: rest := hqueue
    refine .inr ⟨.takeResponse, trivial, trivial, ?_⟩
    simp only [TradingSystem.step, hqueue', htrader, ok_bind]
    rfl

/-- What the thread does to its books and its settings. -/
theorem Inv.frame (h : Inv c algo cfg s) (hcfg : Configured algo cfg) (he : s.Allowed e)
    (hout : Outcome s e s') : s'.thread.algo = algo ∧ s'.thread.tickerCfg = cfg ∧
      ∀ b, b < kMaxSymbols →
        Follows (s'.thread.tickerOrderBook b) (liveOrders s'.delivered b) := by
  cases hout with
  | idle | stopped | other | taken => exact ⟨h.algo, h.tickerCfg, h.books⟩
  | heard _ ht =>
    have htrades : s.thread.algo = .maker ∨ s.thread.algo = .taker := h.algo ▸ hcfg.trades
    obtain ⟨ps, e, -, -, rfl⟩ := TradeThread.onOrderUpdate_cases htrades ht
    exact ⟨h.algo, h.tickerCfg, h.books⟩
  | @noted u m p t hm hp hmove =>
    obtain ⟨m', hm', hfollows⟩ := h.update he
    obtain rfl := Except.ok.inj (hm.symm.trans hm')
    have hsame := TradeThread.moveOrders_same hmove
    refine ⟨hsame.algo.trans h.algo, hsame.tickerCfg.trans h.tickerCfg, fun b hb => ?_⟩
    rw [hsame.tickerOrderBook, liveOrders_snoc]
    change Follows (Function.update s.thread.tickerOrderBook u.symbolId m b) _
    split
    · next heq =>
      obtain rfl := heq
      rw [Function.update_self]
      exact hfollows
    · next hne =>
      rw [Function.update_of_ne (Ne.symm hne)]
      exact h.books b hb

/-- **Every step keeps the invariant**, and refines. -/
theorem Inv.step (h : Inv c algo cfg s) (hc : c < kMaxNumClients) (hcfg : Configured algo cfg)
    (he : s.Allowed e) (hstep : s.step e = .ok s') : Inv c algo cfg s' ∧
      (s'.system = s.system ∨ ∃ e, s.system.Allowed e ∧ s.system.step e = .ok s'.system) := by
  obtain ⟨halgo, htickerCfg, hbooks⟩ := h.frame hcfg he (outcome hstep)
  rcases h.sim hcfg he (outcome hstep) with hidle | ⟨e', he', hclip, hmove⟩
  · exact ⟨⟨hidle ▸ h.sound, halgo, htickerCfg, hbooks⟩, .inl hidle⟩
  · exact ⟨⟨h.sound.step hc he' hclip hmove, halgo, htickerCfg, hbooks⟩, .inr ⟨e', he', hmove⟩⟩

theorem init_inv (hinit : init c algo cfg maxLoss = .ok s) : Inv c algo cfg s ∧
    TradingSystem.init c (fun b => (cfg b).riskCfg) = .ok s.system := by
  obtain ⟨engine, hengine, hdone⟩ := bind_ok hinit
  cases hdone
  have hsystem : TradingSystem.init c (fun b => (cfg b).riskCfg) =
      .ok (system ⟨engine, .init c algo cfg maxLoss, [], []⟩) := by
    rw [TradingSystem.init, hengine, ok_bind]
    rfl
  obtain ⟨hsynced, -, -, -⟩ := TradingSystem.init_synced hsystem
  refine ⟨⟨⟨⟨_, hsynced⟩, TradingSystem.init_limited hsystem, fun _ _ => ?_,
    fun x hx => absurd hx List.not_mem_nil⟩, rfl, rfl, fun _ _ => Follows.init⟩, hsystem⟩
  exact (by decide : 0 < kWord32)

/-- A market maker with a limit of ten meets a bid and an offer of another client, quotes beside
them, and is hit. -/
def quotedAndHit : List Event :=
  [.otherRequest ⟨.new, 2, 0, 1, .buy, 100, 4⟩, .otherRequest ⟨.new, 2, 0, 2, .sell, 104, 4⟩,
    .takeUpdate ⟨.add, 0, 1, .buy, 100, 4, 1⟩, .takeUpdate ⟨.add, 0, 2, .sell, 104, 4, 1⟩,
    .takeRequest, .takeRequest, .otherRequest ⟨.new, 3, 0, 1, .sell, 100, 9⟩, .takeResponse,
    .takeResponse, .takeResponse, .stop]

/-- What the market maker trades with. -/
def makerCfg : Nat → TradeEngineCfg := fun _ => ⟨10, 1, ⟨10, 10⟩⟩

theorem makerCfg_configured : Configured .maker makerCfg :=
  ⟨.inl rfl, fun _ => (by decide : 10 < kWord32), fun _ => (by decide : 10 < kWord32)⟩

section Runs

variable {events : List Event}

theorem run_inv (hc : c < kMaxNumClients) (hcfg : Configured algo cfg)
    (hinit : init c algo cfg maxLoss = .ok s) (hallowed : Run.EachStep step Allowed s events) :
    Run.Always step (Inv c algo cfg) s events :=
  hallowed.always (fun _ _ _ h he hstep => (h.step hc hcfg he hstep).1) (init_inv hinit).1

/-- **A strategy on the exchange refines the trading system**, whose strategy is arbitrary: every
run here is a run there.  A market update becomes at most one call of `moveOrders`, whose prices
are in the band or next to it; one that is next to it is no quote for either
(`bandPrice_bandPrice`).  Steps that touch neither orders nor responses stand still there. -/
theorem refines_system (hc : c < kMaxNumClients) (hcfg : Configured algo cfg)
    (hinit : init c algo cfg maxLoss = .ok s) (hallowed : Run.EachStep step Allowed s events)
    (hrun : events.foldlM step s = .ok s') :
    TradingSystem.init c (fun b => (cfg b).riskCfg) = .ok s.system ∧
      ∃ es, Run.EachStep TradingSystem.step TradingSystem.Allowed s.system es ∧
        es.foldlM TradingSystem.step s.system = .ok s'.system := by
  obtain ⟨hinv, hsystem⟩ := init_inv hinit
  exact ⟨hsystem, hallowed.refinement (fun _ _ _ h he hstep => h.step hc hcfg he hstep) hinv hrun⟩

/-- The market maker's run, checked once. -/
theorem quotedAndHit_runs : ∃ s s', init 1 .maker makerCfg (fun _ => -1000) = .ok s ∧
    Run.EachStep step Allowed s quotedAndHit ∧ quotedAndHit.foldlM step s = .ok s' ∧
    executedPosition s'.engine.outgoingClientResponses 1 0 = 5 ∧
    s'.thread.orderManager.nextOrderId = 3 ∧ s'.thread.stopping = true := by
  obtain ⟨s, hinit, hcheck⟩ : ∃ s, init 1 .maker makerCfg (fun _ => -1000) = .ok s ∧
      (decide (Run.EachStep step Allowed s quotedAndHit) &&
        returns (fun s' => decide (executedPosition s'.engine.outgoingClientResponses 1 0 = 5 ∧
          s'.thread.orderManager.nextOrderId = 3 ∧ s'.thread.stopping = true))
          (quotedAndHit.foldlM step s)) = true :=
    exists_of_returns (by decide +kernel)
  rw [Bool.and_eq_true] at hcheck
  obtain ⟨s', hrun, hend⟩ := exists_of_returns hcheck.2
  exact ⟨s, s', hinit, of_decide_eq_true hcheck.1, hrun, of_decide_eq_true hend⟩

theorem refines_system_quoted_and_hit : ∃ s s', init 1 .maker makerCfg (fun _ => -1000) = .ok s ∧
    quotedAndHit.foldlM step s = .ok s' ∧
    TradingSystem.init 1 (fun b => (makerCfg b).riskCfg) = .ok s.system ∧
      ∃ es, Run.EachStep TradingSystem.step TradingSystem.Allowed s.system es ∧
        es.foldlM TradingSystem.step s.system = .ok s'.system := by
  obtain ⟨s, s', hinit, hallowed, hrun, -⟩ := quotedAndHit_runs
  exact ⟨s, s', hinit, hrun, refines_system (by decide) makerCfg_configured hinit hallowed hrun⟩

/-- **The position limit, for a real strategy**: what the exchange has executed stays within the
limit, and the position keeper counts it exactly, but for the fills that are still on their way.
The first part is `position_limit` through the refinement; the second is about the thread's own
64-bit integers, which the limit keeps exact. -/
theorem position_within (hc : c < kMaxNumClients) (hcfg : Configured algo cfg)
    (hinit : init c algo cfg maxLoss = .ok s) (hallowed : Run.EachStep step Allowed s events) :
    Run.Always step (fun s => ∀ b,
      (executedPosition s.engine.outgoingClientResponses c b).natAbs ≤ (cfg b).riskCfg.maxPosition ∧
      (s.thread.positionKeeper b).position.natAbs ≤ (cfg b).riskCfg.maxPosition ∧
      (s.thread.positionKeeper b).position =
        executedPosition s.engine.outgoingClientResponses c b - executedPosition s.responses c b)
      s events := by
  refine (run_inv hc hcfg hinit hallowed).mono fun s h b => ?_
  obtain ⟨xs, hs⟩ := h.sound.synced
  refine ⟨h.sound.limited.position_le hs b, h.sound.position_le b, ?_⟩
  have hbooked := h.sound.limited.booked b
  change _ = (s.thread.positionKeeper b).position + executedPosition s.responses c b at hbooked
  change _ = executedPosition s.engine.outgoingClientResponses c b - _
  have hengine : s.system.engine = s.engine := rfl
  rw [hengine] at hbooked
  omega

/-- Half of its order is bought when the limit is ten. -/
theorem position_within_quoted_and_hit : ∃ s s', init 1 .maker makerCfg (fun _ => -1000) = .ok s ∧
    quotedAndHit.foldlM step s = .ok s' ∧
    executedPosition s'.engine.outgoingClientResponses 1 0 = 5 ∧ ∀ b,
      (executedPosition s'.engine.outgoingClientResponses 1 b).natAbs ≤ 10 ∧
      (s'.thread.positionKeeper b).position.natAbs ≤ 10 ∧
      (s'.thread.positionKeeper b).position =
        executedPosition s'.engine.outgoingClientResponses 1 b -
          executedPosition s'.responses 1 b := by
  obtain ⟨s, s', hinit, hallowed, hrun, hexecuted, -⟩ := quotedAndHit_runs
  have hall := position_within (by decide) makerCfg_configured hinit hallowed
  exact ⟨s, s', hinit, hrun, hexecuted, hall.of_foldlM hrun⟩

end Runs

end TradingFloor

end Trading

end YQuant
