/-
# The thread of a trade engine

`trading/strategy/trade_engine.h` and `.cpp`, with `market_maker.h`, `liquidity_taker.h`,
`feature_engine.h` and `risk_manager.h`.  One thread owns the books of all symbols, the features,
the position keeper and the order manager.  A market update changes a book, marks the position,
refreshes a feature and asks the strategy for quotes; a response is booked if it is a fill and goes
to the order manager.

The risk manager reads the position keeper through a pointer, so there is one table of positions
here and `trader` is what the order manager sees of it.  Prices of features are floating point
numbers in the source and exact here, as in the modules of the single components.

The strategies compute from the book they see, and only from it: `wanted` is a function of the
update and of the thread's own tables, and the prices it gives are those of the best levels or one
tick off (`TradeThread.wanted_near`).  Of a book with an empty side nothing is wanted, as there is
no fair price.

`stop` is a flag that the thread looks at between two messages.  What is queued then is processed,
and the strategy is not asked any more; fills are booked and slots follow their orders as before.
-/
import Mathlib.Tactic.Linarith
import YQuant.Trading.PositionArithmetic
import YQuant.Trading.TradeSignal

namespace YQuant

namespace Trading

/-! ## 1. Features and strategies -/

inductive AlgoType where
  | invalid
  | random
  | maker
  | taker
deriving DecidableEq, Repr

/-- Both features. -/
structure Features extends FeatureEngine where
  /-- `none` is `Feature_INVALID`. -/
  mktPrice : Option ℚ

namespace Features

def init : Features := ⟨⟨none⟩, none⟩

/-- The best prices, each weighted by the quantity of the other side. -/
def fairPrice (bbo : BBO) : ℚ :=
  (bbo.bidPrice * bbo.askQty + bbo.askPrice * bbo.bidQty) / ((bbo.bidQty : ℚ) + bbo.askQty)

/-- `FeatureEngine::onOrderBookUpdate`. -/
def onOrderBookUpdate (f : Features) (bbo : BBO) : Features :=
  if bbo.bidQty ≠ 0 ∧ bbo.askQty ≠ 0 then { f with mktPrice := some (fairPrice bbo) }
  else { f with mktPrice := none }

def onTradeUpdate (f : Features) (u : MatchingEngineMarketUpdate) (bbo : BBO) : Features :=
  { f with toFeatureEngine := f.toFeatureEngine.onTradeUpdate u bbo }

end Features

/-- The market maker and the feature engine it reads. -/
structure MarketMaker where
  featureEngine : Features
  tickerCfg : Nat → TradeEngineCfg

/-- `MarketMaker::onOrderBookUpdate` up to its call of `moveOrders`: the best prices, each a tick
away from the fair price where it is closer than the threshold. -/
def MarketMaker.quotes (a : MarketMaker) (tickerId : Nat) (bbo : BBO) :
    Except Fault (Option Quotes) :=
  match a.featureEngine.mktPrice with
  | none => .ok none
  | some fairPrice =>
    if bbo.bidQty ≠ 0 ∧ bbo.askQty ≠ 0 then do
      TradeEngine.checkTicker tickerId
      let cfg := a.tickerCfg tickerId
      let bidPrice := bbo.bidPrice - if cfg.threshold ≤ fairPrice - bbo.bidPrice then 0 else 1
      let askPrice := bbo.askPrice + if cfg.threshold ≤ bbo.askPrice - fairPrice then 0 else 1
      .ok (some ⟨some bidPrice, some askPrice, cfg.clip⟩)
    else .ok none

/-! ## 2. The thread -/

structure TradeThread where
  clientId : Nat
  algo : AlgoType
  tickerCfg : Nat → TradeEngineCfg
  /-- `max_loss_` of each symbol. -/
  maxLoss : Nat → ℚ
  tickerOrderBook : Nat → MarketOrderBook
  outgoingOgwRequests : List MatchingEngineClientRequest
  featureEngine : Features
  positionKeeper : Nat → ProfitInfo
  orderManager : OrderManager
  stopping : Bool

namespace TradeThread

def init (clientId : Nat) (algo : AlgoType) (tickerCfg : Nat → TradeEngineCfg)
    (maxLoss : Nat → ℚ) : TradeThread where
  clientId := clientId
  algo := algo
  tickerCfg := tickerCfg
  maxLoss := maxLoss
  tickerOrderBook := fun _ => .init
  outgoingOgwRequests := []
  featureEngine := .init
  positionKeeper := fun _ => .empty
  orderManager := ⟨fun _ _ => {}, 1⟩
  stopping := false

/-- What the order manager and the risk manager see. -/
def trader (t : TradeThread) : TradeEngine where
  clientId := t.clientId
  outgoingOgwRequests := t.outgoingOgwRequests
  tickerPosition := fun b => (t.positionKeeper b).toPositionInfo
  riskCfg := fun b => (t.tickerCfg b).riskCfg
  orderManager := t.orderManager

/-- What the order manager changes. -/
def withTrader (t : TradeThread) (e : TradeEngine) : TradeThread :=
  { t with
    outgoingOgwRequests := e.outgoingOgwRequests
    orderManager := e.orderManager }

/-- The last of the pre-trade checks. -/
def lossTooLarge (t : TradeThread) (tickerId : Nat) : Bool :=
  decide ((t.positionKeeper tickerId).totalPnl < t.maxLoss tickerId)

/-- `moveOrders`, as the strategies call it. -/
def moveOrders (t : TradeThread) (tickerId : Nat) : Option Quotes → Except Fault TradeThread
  | none => .ok t
  | some q => do
    let e ← OrderManager.moveOrders t.trader tickerId q.bidPrice q.askPrice q.clip
      (t.lossTooLarge tickerId)
    .ok (t.withTrader e)

/-- `algoOnOrderBookUpdate_`: the market maker quotes, and the others only log. -/
def algoOnOrderBookUpdate (t : TradeThread) (tickerId : Nat) (bbo : BBO) :
    Except Fault TradeThread :=
  match t.algo with
  | .maker => do
    let quotes ← MarketMaker.quotes ⟨t.featureEngine, t.tickerCfg⟩ tickerId bbo
    t.moveOrders tickerId quotes
  | .invalid | .random | .taker => .ok t

/-- `algoOnTradeUpdate_`. -/
def algoOnTradeUpdate (t : TradeThread) (u : MatchingEngineMarketUpdate) (bbo : BBO) :
    Except Fault TradeThread :=
  match t.algo with
  | .taker => do
    let quotes ← LiquidityTaker.quotes ⟨t.featureEngine.toFeatureEngine, t.tickerCfg⟩ u bbo
    t.moveOrders u.symbolId quotes
  | .invalid | .random | .maker => .ok t

/-- `PositionKeeper::addFill`. -/
def addFill (t : TradeThread) (r : MatchingEngineClientResponse) : Except Fault TradeThread := do
  TradeEngine.checkTicker r.symbolId
  let p ← (t.positionKeeper r.symbolId).addFill int64 r
  .ok { t with positionKeeper := Function.update t.positionKeeper r.symbolId p }

/-- `PositionKeeper::updateBBO`. -/
def updateBBO (t : TradeThread) (tickerId : Nat) (bbo : BBO) : Except Fault TradeThread := do
  TradeEngine.checkTicker tickerId
  let p ← (t.positionKeeper tickerId).updateBBO int64 bbo
  .ok { t with positionKeeper := Function.update t.positionKeeper tickerId p }

/-- `TradeEngine::onOrderBookUpdate`. -/
def onOrderBookUpdate (t : TradeThread) (tickerId : Nat) (bbo : BBO) :
    Except Fault TradeThread := do
  let t ← t.updateBBO tickerId bbo
  let t := { t with featureEngine := t.featureEngine.onOrderBookUpdate bbo }
  if t.stopping then .ok t else t.algoOnOrderBookUpdate tickerId bbo

/-- `TradeEngine::onTradeUpdate`. -/
def onTradeUpdate (t : TradeThread) (u : MatchingEngineMarketUpdate) (bbo : BBO) :
    Except Fault TradeThread :=
  let t := { t with featureEngine := t.featureEngine.onTradeUpdate u bbo }
  if t.stopping then .ok t else t.algoOnTradeUpdate u bbo

/-- `TradeEngine::onOrderUpdate`.  The default algorithm only logs. -/
def onOrderUpdate (t : TradeThread) (r : MatchingEngineClientResponse) :
    Except Fault TradeThread := do
  let t ← (if r.type = .filled then t.addFill r else .ok t)
  match t.algo with
  | .maker | .taker => do
    let e ← OrderManager.onOrderUpdate t.trader r
    .ok (t.withTrader e)
  | .invalid | .random => .ok t

/-- A market update, as `run` and `MarketOrderBook::onMarketUpdate` process it. -/
def onMarketUpdate (t : TradeThread) (u : MatchingEngineMarketUpdate) :
    Except Fault TradeThread := do
  assertThat (decide (u.symbolId < kMaxSymbols)) "Unknown ticker-id on update:"
  let m ← (t.tickerOrderBook u.symbolId).onMarketUpdate u
  let t := { t with tickerOrderBook := Function.update t.tickerOrderBook u.symbolId m }
  match u.type with
  | .trade => t.onTradeUpdate u m.bbo
  | .invalid | .snapshotStart | .snapshotEnd => .ok t
  | .add | .modify | .cancel | .clear | .other _ => t.onOrderBookUpdate u.symbolId m.bbo

/-- `stop`: what is still queued is processed, without the strategy. -/
def stop (t : TradeThread) : TradeThread := { t with stopping := true }

end TradeThread

/-! ## 3. What a strategy wants -/

/-- The update is told to the strategy as one of the book.  One of an unknown type is, though it
changes nothing. -/
def changesBook (u : MatchingEngineMarketUpdate) : Bool :=
  match u.type with
  | .add | .modify | .cancel | .clear | .other _ => true
  | .trade | .invalid | .snapshotStart | .snapshotEnd => false

/-- The quotes of the market maker for the book it sees. -/
def makerQuotes (cfg : TradeEngineCfg) (bbo : BBO) : Quotes where
  bidPrice := some (bbo.bidPrice -
    if cfg.threshold ≤ Features.fairPrice bbo - bbo.bidPrice then 0 else 1)
  askPrice := some (bbo.askPrice +
    if cfg.threshold ≤ bbo.askPrice - Features.fairPrice bbo then 0 else 1)
  clip := cfg.clip

/-- The quotes of the liquidity taker for a trade and the book it sees. -/
def takerQuotes (cfg : TradeEngineCfg) (u : MatchingEngineMarketUpdate) (bbo : BBO) :
    Option Quotes :=
  if u.side = .buy then
    if cfg.threshold ≤ (u.quantity : ℚ) / bbo.askQty then
      some ⟨some bbo.askPrice, none, cfg.clip⟩
    else none
  else if cfg.threshold ≤ (u.quantity : ℚ) / bbo.bidQty then
    some ⟨none, some bbo.bidPrice, cfg.clip⟩
  else none

/-- What the strategy of a thread wants after an update. -/
def TradeThread.wanted (t : TradeThread) (u : MatchingEngineMarketUpdate) (bbo : BBO) :
    Option Quotes :=
  if t.stopping ∨ bbo.bidQty = 0 ∨ bbo.askQty = 0 then none
  else match t.algo with
    | .maker => if changesBook u then some (makerQuotes (t.tickerCfg u.symbolId) bbo) else none
    | .taker => if u.type = .trade then takerQuotes (t.tickerCfg u.symbolId) u bbo else none
    | .invalid | .random => none

section Quotes

variable {bbo : BBO} {u : MatchingEngineMarketUpdate} {cfg : TradeEngineCfg} {q : Quotes}

/-- **The fair price lies inside the spread.** -/
theorem Features.fairPrice_between (hbid : bbo.bidQty ≠ 0) (hask : bbo.askQty ≠ 0)
    (hspread : bbo.bidPrice < bbo.askPrice) :
    (bbo.bidPrice : ℚ) < fairPrice bbo ∧ fairPrice bbo < bbo.askPrice := by
  have hbid' : (0 : ℚ) < bbo.bidQty := Nat.cast_pos.mpr (Nat.pos_of_ne_zero hbid)
  have hask' : (0 : ℚ) < bbo.askQty := Nat.cast_pos.mpr (Nat.pos_of_ne_zero hask)
  have hspread' : (bbo.bidPrice : ℚ) < bbo.askPrice := Int.cast_lt.mpr hspread
  have hsum : (0 : ℚ) < bbo.bidQty + bbo.askQty := add_pos hbid' hask'
  constructor
  · have hmul : (bbo.bidPrice : ℚ) * bbo.bidQty < bbo.askPrice * bbo.bidQty :=
      mul_lt_mul_of_pos_right hspread' hbid'
    rw [fairPrice, lt_div_iff₀ hsum]
    linarith
  · have hmul : (bbo.bidPrice : ℚ) * bbo.askQty < bbo.askPrice * bbo.askQty :=
      mul_lt_mul_of_pos_right hspread' hask'
    rw [fairPrice, div_lt_iff₀ hsum]
    linarith

/-- What the feature engine has just computed is what the market maker quotes around. -/
theorem MarketMaker.quotes_eq (f : Features) (tickerCfg : Nat → TradeEngineCfg) {tickerId : Nat}
    (hticker : tickerId < kMaxSymbols) :
    MarketMaker.quotes ⟨f.onOrderBookUpdate bbo, tickerCfg⟩ tickerId bbo =
      .ok (if bbo.bidQty = 0 ∨ bbo.askQty = 0 then none
        else some (makerQuotes (tickerCfg tickerId) bbo)) := by
  unfold MarketMaker.quotes Features.onOrderBookUpdate
  by_cases hqty : bbo.bidQty ≠ 0 ∧ bbo.askQty ≠ 0
  · simp [hqty, TradeEngine.checkTicker, hticker, makerQuotes, ok_bind]
  · have hempty : bbo.bidQty = 0 ∨ bbo.askQty = 0 := by tauto
    simp [hqty, hempty]

theorem LiquidityTaker.quotes_eq (f : FeatureEngine) (tickerCfg : Nat → TradeEngineCfg)
    (hticker : u.symbolId < kMaxSymbols) :
    LiquidityTaker.quotes ⟨f.onTradeUpdate u bbo, tickerCfg⟩ u bbo =
      .ok (if bbo.bidQty = 0 ∨ bbo.askQty = 0 then none
        else takerQuotes (tickerCfg u.symbolId) u bbo) := by
  unfold LiquidityTaker.quotes FeatureEngine.onTradeUpdate takerQuotes
  by_cases hqty : bbo.bidQty ≠ 0 ∧ bbo.askQty ≠ 0
  · simp only [hqty, ne_eq, not_false_eq_true, and_self, if_true, or_self, if_false,
      LiquidityTaker.cfgAt, TradeEngine.checkTicker, hticker, ok_bind]
    by_cases hside : u.side = .buy
    · simp only [hside, if_true]
      split <;> rfl
    · simp only [hside, if_false]
      split <;> rfl
  · have hempty : bbo.bidQty = 0 ∨ bbo.askQty = 0 := by tauto
    simp [hqty, hempty]

/-- **Wanted prices are close to the best ones**, and the strategy wants nothing of a one-sided
book. -/
theorem TradeThread.wanted_near {t : TradeThread} (h : t.wanted u bbo = some q) :
    t.stopping = false ∧ bbo.bidQty ≠ 0 ∧ bbo.askQty ≠ 0 ∧
      q.clip = (t.tickerCfg u.symbolId).clip ∧
      ∀ p, q.bidPrice = some p ∨ q.askPrice = some p →
        ∃ best, (best = bbo.bidPrice ∨ best = bbo.askPrice) ∧ best - 1 ≤ p ∧ p ≤ best + 1 := by
  unfold TradeThread.wanted at h
  split at h
  · cases h
  · next hopen =>
    simp only [not_or, Bool.not_eq_true] at hopen
    refine ⟨hopen.1, hopen.2.1, hopen.2.2, ?_⟩
    cases halgo : t.algo with
    | invalid | random => simp [halgo] at h
    | maker =>
      simp only [halgo] at h
      split at h
      · cases h
        refine ⟨rfl, fun p hp => ?_⟩
        simp only [makerQuotes, Option.some.injEq] at hp
        rcases hp with hp | hp
        · refine ⟨bbo.bidPrice, .inl rfl, ?_⟩
          split at hp <;> omega
        · refine ⟨bbo.askPrice, .inr rfl, ?_⟩
          split at hp <;> omega
      · cases h
    | taker =>
      simp only [halgo] at h
      split at h
      · unfold takerQuotes at h
        split at h
        · split at h
          · cases h
            refine ⟨rfl, fun p hp => ⟨bbo.askPrice, .inr rfl, ?_⟩⟩
            simp only [Option.some.injEq, reduceCtorEq, or_false] at hp
            omega
          · cases h
        · split at h
          · cases h
            refine ⟨rfl, fun p hp => ⟨bbo.bidPrice, .inl rfl, ?_⟩⟩
            simp only [Option.some.injEq, reduceCtorEq, false_or] at hp
            omega
          · cases h
      · cases h

end Quotes

/-! ## 4. What an update and a response do -/

/-- A position after a market update. -/
def ProfitInfo.marked (p : ProfitInfo) (u : MatchingEngineMarketUpdate) (bbo : BBO) :
    Except Fault ProfitInfo :=
  if changesBook u then p.updateBBO int64 bbo else .ok p

/-- The features after a market update. -/
def Features.after (f : Features) (u : MatchingEngineMarketUpdate) (bbo : BBO) : Features :=
  if changesBook u then f.onOrderBookUpdate bbo
  else if u.type = .trade then f.onTradeUpdate u bbo
  else f

namespace TradeThread

variable {t t' : TradeThread} {u : MatchingEngineMarketUpdate} {m : MarketOrderBook}
    {p : ProfitInfo}

/-- What a market update leaves behind before the strategy is asked. -/
def noted (t : TradeThread) (u : MatchingEngineMarketUpdate) (m : MarketOrderBook)
    (p : ProfitInfo) : TradeThread :=
  { t with
    tickerOrderBook := Function.update t.tickerOrderBook u.symbolId m
    positionKeeper := Function.update t.positionKeeper u.symbolId p
    featureEngine := t.featureEngine.after u m.bbo }

/-- **A market update** changes a book, marks a position, and then moves the orders as wanted. -/
theorem onMarketUpdate_eq (hsymbol : u.symbolId < kMaxSymbols)
    (hm : (t.tickerOrderBook u.symbolId).onMarketUpdate u = .ok m)
    (hp : (t.positionKeeper u.symbolId).marked u m.bbo = .ok p) :
    t.onMarketUpdate u = (t.noted u m p).moveOrders u.symbolId (t.wanted u m.bbo) := by
  unfold ProfitInfo.marked at hp
  simp only [onMarketUpdate, hsymbol, decide_true, assertThat_true, ok_bind, hm]
  cases hchanges : changesBook u with
  | true =>
    have hupdate : (t.positionKeeper u.symbolId).updateBBO int64 m.bbo = .ok p := by
      simpa [hchanges] using hp
    have hbook : (match u.type with
        | .trade => onTradeUpdate { t with
            tickerOrderBook := Function.update t.tickerOrderBook u.symbolId m } u m.bbo
        | .invalid | .snapshotStart | .snapshotEnd => .ok { t with
            tickerOrderBook := Function.update t.tickerOrderBook u.symbolId m }
        | .add | .modify | .cancel | .clear | .other _ => onOrderBookUpdate { t with
            tickerOrderBook := Function.update t.tickerOrderBook u.symbolId m } u.symbolId m.bbo) =
        onOrderBookUpdate { t with
          tickerOrderBook := Function.update t.tickerOrderBook u.symbolId m } u.symbolId m.bbo := by
      cases htype : u.type <;> simp [changesBook, htype] at hchanges <;> rfl
    have htype : u.type ≠ .trade := by
      intro htype
      simp [changesBook, htype] at hchanges
    rw [hbook]
    simp only [onOrderBookUpdate, TradeThread.updateBBO, TradeEngine.checkTicker, hsymbol, if_true,
      ok_bind, hupdate, wanted, noted, Features.after, hchanges, algoOnOrderBookUpdate,
      MarketMaker.quotes_eq t.featureEngine t.tickerCfg hsymbol]
    cases hstop : t.stopping with
    | true => simp [moveOrders]
    | false =>
      cases t.algo with
      | maker =>
        by_cases hempty : m.bbo.bidQty = 0 ∨ m.bbo.askQty = 0 <;> simp [hempty]
      | invalid | random => simp [moveOrders]
      | taker => simp [htype, moveOrders]
  | false =>
    obtain rfl : t.positionKeeper u.symbolId = p := by simpa [hchanges] using hp
    have hsame : Function.update t.positionKeeper u.symbolId (t.positionKeeper u.symbolId) =
        t.positionKeeper := Function.update_eq_self _ _
    cases htype : u.type with
    | add | modify | cancel | clear | other => simp [changesBook, htype] at hchanges
    | invalid | snapshotStart | snapshotEnd =>
      simp only [wanted, noted, Features.after, hchanges, htype, hsame]
      cases t.algo <;> simp [moveOrders]
    | trade =>
      simp only [onTradeUpdate, wanted, noted, Features.after, hchanges, htype, hsame,
        algoOnTradeUpdate]
      cases hstop : t.stopping with
      | true => simp [moveOrders]
      | false =>
        cases t.algo with
        | taker =>
          have hquotes := @LiquidityTaker.quotes_eq m.bbo u t.featureEngine.toFeatureEngine
            t.tickerCfg hsymbol
          simp only [Features.onTradeUpdate, hquotes, ok_bind]
          by_cases hempty : m.bbo.bidQty = 0 ∨ m.bbo.askQty = 0 <;> simp [hempty]
        | invalid | random | maker => simp [moveOrders]

/-- Every market update that is processed is one of these. -/
theorem onMarketUpdate_cases (h : t.onMarketUpdate u = .ok t') : u.symbolId < kMaxSymbols ∧
    ∃ m p, (t.tickerOrderBook u.symbolId).onMarketUpdate u = .ok m ∧
      (t.positionKeeper u.symbolId).marked u m.bbo = .ok p ∧
      (t.noted u m p).moveOrders u.symbolId (t.wanted u m.bbo) = .ok t' := by
  have hrun := h
  obtain ⟨_, hassert, h⟩ := bind_ok h
  have hsymbol : u.symbolId < kMaxSymbols := by
    by_contra hge
    rw [decide_eq_false hge] at hassert
    cases hassert
  obtain ⟨m, hm, h⟩ := bind_ok h
  obtain ⟨p, hp⟩ : ∃ p, (t.positionKeeper u.symbolId).marked u m.bbo = .ok p := by
    unfold ProfitInfo.marked
    cases hchanges : changesBook u with
    | false => exact ⟨_, rfl⟩
    | true =>
      have hbook : onOrderBookUpdate { t with
          tickerOrderBook := Function.update t.tickerOrderBook u.symbolId m } u.symbolId m.bbo =
            .ok t' := by
        cases htype : u.type <;> simp [changesBook, htype] at hchanges <;> rw [htype] at h <;>
          exact h
      obtain ⟨_, hupdate, -⟩ := bind_ok hbook
      obtain ⟨_, -, hupdate⟩ := bind_ok hupdate
      obtain ⟨p, hp, -⟩ := bind_ok hupdate
      exact ⟨p, hp⟩
  refine ⟨hsymbol, m, p, hm, hp, ?_⟩
  rw [← onMarketUpdate_eq hsymbol hm hp, hrun]

end TradeThread

end Trading

end YQuant
