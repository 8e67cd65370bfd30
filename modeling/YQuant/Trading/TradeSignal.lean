/-
# The signal of a trade

`trading/strategy/feature_engine.h` and `liquidity_taker.h`, as far as they deal with trades; the
engine that hands a trade to both is in `TradeThread.lean`.  The exchange publishes a trade under
the side of the maker, and before the maker is reduced: when the trade arrives, the client still
shows the maker at the best price of its side (`IndexedBook.Inv.trade_atTop`), and the executed
quantity is at most what it shows there.

Both components read the side as the one that took the initiative.  The feature divides by the
quantity of the other side than the maker's, and the algorithm quotes on the maker's side.  So the
signal is the intended one exactly when both best quantities are the same and the algorithm stays
out (`signal_iff`).

Ratios and thresholds are floating point numbers in the source and exact here.

`Signal` is what the two comments of the source say together: the ratio is the executed quantity
over what it was executed against, and the quotes are on the side of the aggressor.  The code's
ratio is over the aggressor's own side, so it is right when both sides show the same quantity; the
code's quotes are on the other side than they should be, so they are right when there are none.
-/
import Mathlib.Algebra.Order.Field.Basic
import Mathlib.Algebra.Order.Field.Rat
import YQuant.Trading.BestBidOffer
import YQuant.Trading.TradeEngine

namespace YQuant

/-! ## 1. The feature and the algorithm -/

namespace Trading

structure TradeEngineCfg where
  clip : Nat
  threshold : ℚ
  riskCfg : RiskCfg

structure FeatureEngine where
  /-- `none` is `Feature_INVALID`, which is no number. -/
  aggTradeQtyRatio : Option ℚ

/-- `FeatureEngine::onTradeUpdate`. -/
def FeatureEngine.onTradeUpdate (f : FeatureEngine) (u : MatchingEngineMarketUpdate) (bbo : BBO) :
    FeatureEngine :=
  if bbo.bidQty ≠ 0 ∧ bbo.askQty ≠ 0 then
    let qty : Nat := if u.side = .buy then bbo.askQty else bbo.bidQty
    { f with aggTradeQtyRatio := some ((u.quantity : ℚ) / qty) }
  else { f with aggTradeQtyRatio := none }

/-- The prices and the quantity of a call of `moveOrders`. -/
structure Quotes where
  bidPrice : Option Int
  askPrice : Option Int
  clip : Nat

def Quotes.side (q : Quotes) (side : Side) : Option Int :=
  if side = .buy then q.bidPrice else q.askPrice

/-- The liquidity taker and the feature engine it reads. -/
structure LiquidityTaker where
  featureEngine : FeatureEngine
  tickerCfg : Nat → TradeEngineCfg

namespace LiquidityTaker

/-- `ticker_cfg_.at(symbolId)`. -/
def cfgAt (a : LiquidityTaker) (symbolId : Nat) : Except Fault TradeEngineCfg := do
  TradeEngine.checkTicker symbolId
  .ok (a.tickerCfg symbolId)

/-- `LiquidityTaker::onTradeUpdate` up to its call of `moveOrders`. -/
def quotes (a : LiquidityTaker) (u : MatchingEngineMarketUpdate) (bbo : BBO) :
    Except Fault (Option Quotes) :=
  match a.featureEngine.aggTradeQtyRatio with
  | none => .ok none
  | some ratio =>
    if bbo.bidQty ≠ 0 ∧ bbo.askQty ≠ 0 then do
      let cfg ← a.cfgAt u.symbolId
      if cfg.threshold ≤ ratio then
        if u.side = .buy then .ok (some ⟨some bbo.askPrice, none, cfg.clip⟩)
        else .ok (some ⟨none, some bbo.bidPrice, cfg.clip⟩)
      else .ok none
    else .ok none

/-- The feature is computed before the algorithm is asked. -/
def observe (a : LiquidityTaker) (u : MatchingEngineMarketUpdate) (bbo : BBO) : LiquidityTaker :=
  { a with featureEngine := a.featureEngine.onTradeUpdate u bbo }

end LiquidityTaker

/-! ## 2. What a trade signals -/

/-- **The signal of a trade**: the traded part of the quantity it was executed against, and quotes
on the side of the aggressor alone when that part reaches the threshold. -/
structure LiquidityTaker.Signal (a : LiquidityTaker) (aggressor : Side)
    (u : MatchingEngineMarketUpdate) (bbo : BBO) : Prop where
  ratio : (a.featureEngine.onTradeUpdate u bbo).aggTradeQtyRatio =
    some ((u.quantity : ℚ) / (bbo.side aggressor.opposite).2)
  bounds : ∀ r, (a.featureEngine.onTradeUpdate u bbo).aggTradeQtyRatio = some r → 0 < r ∧ r ≤ 1
  quotes : ∀ r cfg, (a.featureEngine.onTradeUpdate u bbo).aggTradeQtyRatio = some r →
    a.cfgAt u.symbolId = .ok cfg → cfg.threshold ≤ r →
    ∃ q, (a.observe u bbo).quotes u bbo = .ok (some q) ∧ q.side aggressor ≠ none ∧
      q.side aggressor.opposite = none

section Signal

variable {a : LiquidityTaker} {aggressor : Side} {u : MatchingEngineMarketUpdate} {bbo : BBO}

/-- The feature divides by the quantity of the aggressor's own side. -/
theorem FeatureEngine.onTradeUpdate_ratio (f : FeatureEngine) (hs : aggressor.Directional)
    (hu : u.side = aggressor.opposite) (hbid : bbo.bidQty ≠ 0) (hask : bbo.askQty ≠ 0) :
    (f.onTradeUpdate u bbo).aggTradeQtyRatio =
      some ((u.quantity : ℚ) / (bbo.side aggressor).2) := by
  rw [onTradeUpdate, if_pos ⟨hbid, hask⟩, hu]
  rcases hs with rfl | rfl <;> simp [BBO.side]

/-- The algorithm quotes on the side of the maker. -/
theorem LiquidityTaker.quotes_maker {r : ℚ} {cfg : TradeEngineCfg} (hs : aggressor.Directional)
    (hu : u.side = aggressor.opposite) (hbid : bbo.bidQty ≠ 0) (hask : bbo.askQty ≠ 0)
    (hr : a.featureEngine.aggTradeQtyRatio = some r) (hcfg : a.cfgAt u.symbolId = .ok cfg)
    (hreach : cfg.threshold ≤ r) :
    ∃ q, a.quotes u bbo = .ok (some q) ∧ q.side aggressor = none := by
  simp only [quotes, hr, if_pos (And.intro hbid hask), hcfg, ok_bind, if_pos hreach, hu]
  rcases hs with rfl | rfl <;> simp [Quotes.side]

/-- **When the signal is the intended one**, for a trade that the client can see on the maker's
side. -/
theorem LiquidityTaker.signal_iff_of_shown (hs : aggressor.Directional)
    (hu : u.side = aggressor.opposite) (hpos : 0 < u.quantity)
    (hle : u.quantity ≤ (bbo.side aggressor.opposite).2) (hown : (bbo.side aggressor).2 ≠ 0) :
    a.Signal aggressor u bbo ↔ bbo.bidQty = bbo.askQty ∧
      ∀ cfg, a.cfgAt u.symbolId = .ok cfg → (u.quantity : ℚ) < cfg.threshold * bbo.bidQty := by
  have hother : (bbo.side aggressor.opposite).2 ≠ 0 := (hpos.trans_le hle).ne'
  have hqty : bbo.bidQty ≠ 0 ∧ bbo.askQty ≠ 0 := by
    rcases hs with rfl | rfl
    · exact ⟨hown, hother⟩
    · exact ⟨hother, hown⟩
  have hsame : bbo.bidQty = bbo.askQty ↔
      (bbo.side aggressor).2 = (bbo.side aggressor.opposite).2 := by
    rcases hs with rfl | rfl
    · exact Iff.rfl
    · exact eq_comm
  have hratio := a.featureEngine.onTradeUpdate_ratio hs hu hqty.1 hqty.2
  have hbidQty : bbo.bidQty = bbo.askQty → bbo.bidQty = (bbo.side aggressor).2 := fun heq => by
    rcases hs with rfl | rfl
    · rfl
    · exact heq
  have hown' : (0 : ℚ) < (bbo.side aggressor).2 := Nat.cast_pos.mpr (Nat.pos_of_ne_zero hown)
  have hpos' : (0 : ℚ) < u.quantity := Nat.cast_pos.mpr hpos
  constructor
  · intro hsignal
    have heq := Option.some.inj (hratio.symm.trans hsignal.ratio)
    have hqtys : (bbo.side aggressor).2 = (bbo.side aggressor.opposite).2 := by
      rw [div_eq_mul_inv, div_eq_mul_inv] at heq
      exact Nat.cast_injective (inv_inj.mp (mul_left_cancel₀ hpos'.ne' heq))
    refine ⟨hsame.mpr hqtys, fun cfg hcfg => ?_⟩
    rw [hbidQty (hsame.mpr hqtys)]
    by_contra hreach
    have hreach' : cfg.threshold ≤ u.quantity / (bbo.side aggressor).2 :=
      (le_div_iff₀ hown').mpr (not_lt.mp hreach)
    -- the algorithm would quote, and on the wrong side
    obtain ⟨q, hq, hside, -⟩ := hsignal.quotes _ cfg hratio hcfg hreach'
    obtain ⟨q', hq', hnone⟩ := quotes_maker (a := a.observe u bbo) hs hu hqty.1 hqty.2 hratio hcfg
      hreach'
    obtain rfl := Option.some.inj (Except.ok.inj (hq.symm.trans hq'))
    exact hside hnone
  · rintro ⟨hqtys, hout⟩
    have hother' := hsame.mp hqtys
    refine ⟨hratio.trans (by rw [hother']), fun r hr => ?_, fun r cfg hr hcfg hreach => ?_⟩
    · obtain rfl := Option.some.inj (hratio.symm.trans hr)
      exact ⟨div_pos hpos' hown', (div_le_one hown').mpr (Nat.cast_le.mpr (hother' ▸ hle))⟩
    · obtain rfl := Option.some.inj (hratio.symm.trans hr)
      have hlt := hout cfg hcfg
      rw [hbidQty hqtys] at hlt
      exact absurd ((le_div_iff₀ hown').mp hreach) (not_le.mpr hlt)

end Signal

end Trading

/-! ## 3. What the client shows when a trade arrives -/

/-- A trade names the side a taker met, and the best price there. -/
def AtTop (aggressor : Side) (l : List LiveOrder) (u : MatchingEngineMarketUpdate) : Prop :=
  u.type = .trade → u.side = aggressor.opposite ∧ ∀ o ∈ l, o.side = u.side →
    o.price = u.price ∨ MarketOrderBook.addAfter u.side o.price u.price = true

theorem bestMaker_addAfter {l : List Resting} {side : Side} {limit : Int} {m o : Resting}
    (hm : bestMaker l side limit = some m) (ho : o ∈ l) (hside : o.side = m.side) :
    o.price = m.price ∨ MarketOrderBook.addAfter m.side o.price m.price = true := by
  obtain ⟨-, hmside, hlimit⟩ := bestMaker_mem hm
  have hrank := bestMaker_rank_le hm ho
  rw [hmside] at hside ⊢
  unfold Resting.CrossedBy takerRank at hrank
  by_cases hbuy : side = .buy
  · simp only [hbuy, if_true, Side.opposite_buy] at hlimit hrank hside ⊢
    rw [MarketOrderBook.addAfter_iff (.inr rfl)]
    simp only [reduceCtorEq, if_false]
    have hle : o.price ≤ limit → m.price ≤ o.price := fun h => hrank ⟨hside, h⟩
    omega
  · have hopposite : side.opposite = .buy := if_neg hbuy
    simp only [hbuy, if_false, hopposite] at hlimit hrank hside ⊢
    rw [MarketOrderBook.addAfter_iff (.inl rfl)]
    simp only [if_true]
    have hle : limit ≤ o.price → -m.price ≤ -o.price := fun h => hrank ⟨hside, h⟩
    omega

/-- **The trades of a taker** are made at the top of the other side. -/
theorem Sweeps.atTop {band : PriceBand} {side : Side} {limit : Int} {l l' : List Resting}
    {q q' : Nat} {fs : List Fill} (symbolId : Nat) (h : Sweeps side limit l q fs l' q')
    (hl : Orderly band l) (hsmall : ∀ o ∈ l, o.arrival < kMaxOrderIds) :
    Run.AlongRun replay (AtTop side) (l.map Resting.live) (fs.flatMap (Fill.updates symbolId)) := by
  induction h with
  | done => trivial
  | @trade l l' q q' m fs hq hm _ ih =>
    obtain ⟨hmem, hmside, -⟩ := bestMaker_mem hm
    have hpos := hl.positive m hmem
    obtain ⟨-, hfold⟩ := fill_published symbolId (q - min q m.quantity) hl hsmall hmem
      (by omega) (min_le_right q m.quantity)
    have hrest := ih (hl.takeFrom hmem (min_le_right _ _)) (takeFrom_small hsmall)
    rw [List.flatMap_cons, Run.alongRun_append, hfold]
    refine ⟨⟨fun _ => ⟨hmside, fun o ho hside => ?_⟩, ?_, trivial⟩, hrest⟩
    · obtain ⟨r, hr, rfl⟩ := List.mem_map.mp ho
      exact bestMaker_addAfter hm hr hside
    · -- what becomes of the maker is no trade
      intro htype
      dsimp only at htype
      split at htype <;> cases htype

/-- **A trade comes from a new order**, which meets the best price of the other side. -/
theorem IndexedBook.Inv.trade_atTop {band : PriceBand} {x : IndexedBook} {call : BookCall}
    {us us' : List MatchingEngineMarketUpdate} {u : MatchingEngineMarketUpdate} (symbolId : Nat)
    (h : Inv band x) (hsmall : x.Small) (hupdates : x.updates symbolId call = us ++ u :: us')
    (htype : u.type = .trade) :
    ∃ clientId clientOrderId aggressor price quantity,
      call = .add clientId clientOrderId aggressor price quantity ∧
        AtTop aggressor (us.foldl replay x.live) u := by
  cases call with
  | add clientId clientOrderId side price quantity =>
    refine ⟨clientId, clientOrderId, side, price, quantity, rfl, ?_⟩
    have htop : Run.AlongRun replay (AtTop side) x.live
        (x.updates symbolId (.add clientId clientOrderId side price quantity)) := by
      refine Run.alongRun_append.mpr ⟨(sweep_sweeps side price x.book.resting quantity).atTop
        symbolId h.orderly hsmall, ?_⟩
      split
      · trivial
      · refine ⟨?_, trivial⟩
        intro hadd
        cases hadd
    rw [hupdates, Run.alongRun_append] at htop
    exact htop.2.1
  | cancel clientId clientOrderId =>
    have hu : u ∈ x.updates symbolId (.cancel clientId clientOrderId) := by
      rw [hupdates]
      exact List.mem_append_right _ List.mem_cons_self
    simp only [updates, ListBook.cancelUpdates] at hu
    split at hu
    · cases hu
    · rw [List.mem_singleton.mp hu] at htype
      cases htype

/-- No total of a side and price reaches `2 ^ 32`. -/
def TotalsFit (l : List LiveOrder) : Prop :=
  ∀ side price, queuedQuantity (restingAt l side price) < kWord32

/-- No part is more than everything. -/
theorem TotalsFit.of_lt {l : List LiveOrder} (h : queuedQuantity l < kWord32) : TotalsFit l :=
  fun _ _ => ((List.filter_sublist.map _).sum_le_sum fun _ _ => Nat.zero_le _).trans_lt h

theorem TotalsFit.totalQty_eq {l : List LiveOrder} (h : TotalsFit l) (side : Side) (price : Int) :
    MarketOrderBook.totalQty (restingAt l side price) =
      queuedQuantity (restingAt l side price) := by
  rw [MarketOrderBook.totalQty_eq fun o ho => (le_queuedQuantity ho).trans_lt (h side price)]
  exact Nat.mod_eq_of_lt (h side price)

/-- The top of a side shows at least what one order at its price has. -/
theorem MarketOrderBook.IsTop.quantity_le {l : List LiveOrder} {side : Side} {t : Int × Nat}
    (h : IsTop l side t) (hfits : TotalsFit l) {o : LiveOrder} (ho : o ∈ l)
    (hat : o.At side t.1) : o.quantity ≤ t.2 := by
  rcases h with ⟨-, hempty⟩ | ⟨-, -, hqty⟩
  · exact absurd hat.1 (hempty o ho)
  · rw [hqty, hfits.totalQty_eq]
    exact le_queuedQuantity (mem_restingAt.mpr ⟨ho, hat⟩)

/-- A side that is not empty shows a quantity. -/
theorem MarketOrderBook.IsTop.quantity_ne_zero {l : List LiveOrder} {side : Side} {t : Int × Nat}
    (h : IsTop l side t) (hfits : TotalsFit l) (hpos : ∀ o ∈ l, 0 < o.quantity)
    (hne : ∃ o ∈ l, o.side = side) : t.2 ≠ 0 := by
  have htop := h
  rcases h with ⟨-, hempty⟩ | ⟨⟨o, ho, hat⟩, -⟩
  · obtain ⟨o, ho, hside⟩ := hne
    exact absurd hside (hempty o ho)
  · exact ((hpos o ho).trans_le (htop.quantity_le hfits ho hat)).ne'

/-- Published updates leave no live order without a quantity. -/
theorem Published.positive {band : PriceBand} {l : List LiveOrder}
    {u : MatchingEngineMarketUpdate} (hl : ∀ o ∈ l, 0 < o.quantity) (h : Published band l u) :
    ∀ o ∈ replay l u, 0 < o.quantity := by
  unfold Published at h
  unfold replay
  cases htype : u.type with
  | add =>
    simp only [htype] at h
    intro o ho
    rcases List.mem_append.mp ho with ho | ho
    · exact hl o ho
    · rw [List.mem_singleton.mp ho]
      exact h.2.2.2.2.1
  | modify =>
    simp only [htype] at h
    obtain ⟨-, -, -, -, -, -, hpos, -⟩ := h
    intro o ho
    obtain ⟨o', ho', rfl⟩ := List.mem_map.mp ho
    split
    · exact hpos
    · exact hl o' ho'
  | cancel => exact fun o ho => hl o (List.mem_filter.mp ho).1
  | clear => exact fun o ho => absurd ho List.not_mem_nil
  | invalid | trade | snapshotStart | snapshotEnd | other => exact hl

/-! ## 4. Runs -/

/-- The call after `done` publishes `u`, behind the updates `us` of the run. -/
def BookCore.EmittedBy (symbolId : Nat) (done : List BookCall) (call : BookCall)
    (us : List MatchingEngineMarketUpdate) (u : MatchingEngineMarketUpdate) : Prop :=
  ∃ b b', run symbolId kDefaultPriceBand done = .ok b ∧ b.apply call = .ok b' ∧
    b.outgoingMarketUpdates <+: us ∧ us ++ [u] <+: b'.outgoingMarketUpdates

/-- **What the client shows when a trade arrives**: the trade was made by a new order, at the best
price the client shows on the other side, and for no more than it shows there. -/
theorem BookCore.run_trade (symbolId : Nat) {calls : List BookCall}
    (hdoc : ∀ call ∈ calls, call.Documented kDefaultPriceBand)
    (hfew : IndexedBook.adds calls < kMaxOrderIds) :
    ∃ full, run symbolId kDefaultPriceBand calls = .ok full ∧
      ∀ us u us', full.outgoingMarketUpdates = us ++ u :: us' → u.type = .trade →
        ∃ m done clientId clientOrderId aggressor price quantity rest,
          us.foldlM MarketOrderBook.onMarketUpdate .init = .ok m ∧
          calls = done ++ .add clientId clientOrderId aggressor price quantity :: rest ∧
          EmittedBy symbolId done (.add clientId clientOrderId aggressor price quantity) us u ∧
          aggressor.Directional ∧ u.side = aggressor.opposite ∧ m.Shows (us.foldl replay []) ∧
          (∀ o ∈ us.foldl replay [], 0 < o.quantity) ∧ 0 < u.quantity ∧
          (TotalsFit (us.foldl replay []) → u.quantity ≤ (m.bbo.side aggressor.opposite).2) := by
  have hfew' : IndexedBook.empty.book.arrivals + IndexedBook.adds calls < kMaxOrderIds :=
    (Nat.zero_add _).trans_lt hfew
  have hadmits := IndexedBook.Inv.empty.admits_of_few hdoc hfew'
  obtain ⟨full, hrun, -, -, hupdates⟩ := run_sim symbolId (by decide) hadmits
  obtain ⟨hpub, -⟩ := IndexedBook.Inv.empty.run_published symbolId hdoc hfew'
  refine ⟨full, hrun, fun us u us' hsplit htype => ?_⟩
  rw [hupdates] at hsplit
  obtain ⟨done, call, rest, vs, vs', rfl, hcall, rfl⟩ := Run.outputs_eq_append_cons hsplit
  rw [hsplit, Run.alongRun_append] at hpub
  obtain ⟨hpubs, hpubu, -⟩ := hpub
  -- the book before the call
  rw [Run.alongRun_append] at hadmits
  obtain ⟨hdone, hadmit, -⟩ := hadmits
  obtain ⟨b, hb, hsim, -, hbefore⟩ := run_sim symbolId (by decide) hdone
  obtain ⟨b', hb', -, hemits⟩ := hsim.step hadmit
  have hfewDone : IndexedBook.empty.book.arrivals + IndexedBook.adds done < kMaxOrderIds := by
    rw [IndexedBook.adds_append] at hfew'
    exact (Nat.add_le_add_left (Nat.le_add_right _ _) _).trans_lt hfew'
  have hsmall : (done.foldl IndexedBook.step .empty).Small :=
    hsim.inv.small ((IndexedBook.arrivals_foldl done .empty).trans_lt hfewDone)
  obtain ⟨-, hfold⟩ := IndexedBook.Inv.empty.run_published symbolId
    (fun c hc => hdoc c (List.mem_append_left _ hc)) hfewDone
  obtain ⟨clientId, clientOrderId, aggressor, price, quantity, rfl, htop⟩ :=
    hsim.inv.trade_atTop symbolId hsmall hcall htype
  have hlive : (Run.outputs IndexedBook.step (IndexedBook.updates symbolId) .empty done ++ vs).foldl
      replay [] = vs.foldl replay (done.foldl IndexedBook.step .empty).live := by
    rw [List.foldl_append]
    exact congrArg (fun l => vs.foldl replay l) hfold
  obtain ⟨m, addr, ladder, hm, -, hshows⟩ := (MarketOrderBook.mirrors_init id).foldlM
    MarketOrderBook.shows_init (applicable_of_published (Consistent.nil _) hpubs)
  obtain ⟨hside, hbest⟩ := htop htype
  -- the maker that the trade names
  unfold Published at hpubu
  simp only [htype] at hpubu
  obtain ⟨o, ho, -, hoside, hoprice, hpos, hle⟩ := hpubu
  rw [← hlive] at hbest
  have hmaker : MarketOrderBook.IsTop _ u.side
      (u.price, MarketOrderBook.totalQty (restingAt _ u.side u.price)) :=
    .inr ⟨⟨o, ho, hoside, hoprice⟩, hbest, rfl⟩
  have hdirectional : u.side.Directional := by
    rw [hside]
    rcases hadmit.1.2.2.1 with rfl | rfl
    · exact .inr rfl
    · exact .inl rfl
  refine ⟨m, done, clientId, clientOrderId, aggressor, price, quantity, rest, hm, rfl,
    ⟨b, b', hb, hb', ?_, ?_⟩, hadmit.1.2.2.1, hside, hshows, ?_, hpos, fun hfits => ?_⟩
  · rw [hbefore]
    exact List.prefix_append _ _
  · rw [hemits.updates, hbefore, hcall, List.append_assoc, List.append_cons vs u vs']
    exact (List.prefix_append_right_inj _).mpr (List.prefix_append _ _)
  · exact hpubs.inv (I := fun l => ∀ o ∈ l, 0 < o.quantity)
      (fun _ _ hl h => Published.positive hl h) fun o ho => absurd ho List.not_mem_nil
  · rw [← hside, (hshows u.side hdirectional).unique hdirectional hmaker]
    exact hle.trans (hmaker.quantity_le hfits ho ⟨hoside, hoprice⟩)

namespace Trading

/-- When the signal is the intended one, for a client that shows the live orders. -/
theorem LiquidityTaker.signal_iff_of_shows {a : LiquidityTaker} {aggressor : Side}
    {u : MatchingEngineMarketUpdate} {m : MarketOrderBook} {l : List LiveOrder}
    (hs : aggressor.Directional) (hu : u.side = aggressor.opposite) (hpos : 0 < u.quantity)
    (hle : u.quantity ≤ (m.bbo.side aggressor.opposite).2) (hshows : m.Shows l)
    (hpositive : ∀ o ∈ l, 0 < o.quantity) (hfits : TotalsFit l) (hbids : ∃ o ∈ l, o.side = .buy)
    (hasks : ∃ o ∈ l, o.side = .sell) :
    a.Signal aggressor u m.bbo ↔ m.bbo.bidQty = m.bbo.askQty ∧
      ∀ cfg, a.cfgAt u.symbolId = .ok cfg → (u.quantity : ℚ) < cfg.threshold * m.bbo.bidQty := by
  refine signal_iff_of_shown hs hu hpos hle ?_
  refine (hshows aggressor hs).quantity_ne_zero hfits hpositive ?_
  rcases hs with rfl | rfl
  · exact hbids
  · exact hasks

/-- **When a trade means the same on both ends**, in every run and for every trade of it: the best
bid and the best ask that the client shows have one quantity, and the traded part stays below the
threshold.  A trade is published under the side of its maker, and both the feature and the
algorithm take it for that of the aggressor; with equal quantities the ratio does not notice, and
below the threshold there are no quotes on the wrong side.  Ratios are exact rationals here. -/
theorem LiquidityTaker.signal_iff (a : LiquidityTaker) (symbolId : Nat) (calls : List BookCall)
    (hdoc : ∀ call ∈ calls, call.Documented kDefaultPriceBand)
    (hfew : IndexedBook.adds calls < kMaxOrderIds) :
    ∃ full, BookCore.run symbolId kDefaultPriceBand calls = .ok full ∧
      ∀ us u us', full.outgoingMarketUpdates = us ++ u :: us' → u.type = .trade →
        ∃ m done clientId clientOrderId aggressor price quantity rest,
          us.foldlM MarketOrderBook.onMarketUpdate .init = .ok m ∧
          calls = done ++ .add clientId clientOrderId aggressor price quantity :: rest ∧
          BookCore.EmittedBy symbolId done
            (.add clientId clientOrderId aggressor price quantity) us u ∧
          ((∃ o ∈ us.foldl replay [], o.side = .buy) → (∃ o ∈ us.foldl replay [], o.side = .sell) →
            TotalsFit (us.foldl replay []) →
            (a.Signal aggressor u m.bbo ↔ m.bbo.bidQty = m.bbo.askQty ∧
              ∀ cfg, a.cfgAt u.symbolId = .ok cfg →
                (u.quantity : ℚ) < cfg.threshold * m.bbo.bidQty)) := by
  obtain ⟨full, hrun, htrade⟩ := BookCore.run_trade symbolId hdoc hfew
  refine ⟨full, hrun, fun us u us' hsplit htype => ?_⟩
  obtain ⟨m, done, clientId, clientOrderId, aggressor, price, quantity, rest, hm, hcalls, hemitted,
    hs, hside, hshows, hpositive, hpos, hle⟩ := htrade us u us' hsplit htype
  refine ⟨m, done, clientId, clientOrderId, aggressor, price, quantity, rest, hm, hcalls, hemitted,
    fun hbids hasks hfits => signal_iff_of_shows hs hside hpos (hle hfits) hshows hpositive hfits
      hbids hasks⟩

/-- Ten bid, ten offered, and four of them bought. -/
theorem LiquidityTaker.signal_iff_one_trade :
    ∃ full, BookCore.run 0 kDefaultPriceBand [.add 1 1 .buy 100 10, .add 1 2 .sell 101 10,
        .add 2 1 .buy 101 4] = .ok full ∧
      ∀ us u us', full.outgoingMarketUpdates = us ++ u :: us' → u.type = .trade →
        ∃ m done clientId clientOrderId aggressor price quantity rest,
          us.foldlM MarketOrderBook.onMarketUpdate .init = .ok m ∧
          [.add 1 1 .buy 100 10, .add 1 2 .sell 101 10, .add 2 1 .buy 101 4] =
            done ++ .add clientId clientOrderId aggressor price quantity :: rest ∧
          BookCore.EmittedBy 0 done
            (.add clientId clientOrderId aggressor price quantity) us u ∧
          ((∃ o ∈ us.foldl replay [], o.side = .buy) → (∃ o ∈ us.foldl replay [], o.side = .sell) →
            TotalsFit (us.foldl replay []) →
            (Signal ⟨⟨none⟩, fun _ => ⟨100, 1 / 2, ⟨100, 100⟩⟩⟩ aggressor u m.bbo ↔
              m.bbo.bidQty = m.bbo.askQty ∧
              ∀ cfg, cfgAt ⟨⟨none⟩, fun _ => ⟨100, 1 / 2, ⟨100, 100⟩⟩⟩ u.symbolId = .ok cfg →
                (u.quantity : ℚ) < cfg.threshold * m.bbo.bidQty)) :=
  signal_iff ⟨⟨none⟩, fun _ => ⟨100, 1 / 2, ⟨100, 100⟩⟩⟩ 0 _ (by decide) (by decide)

/-- **One bid, ten offered, and five of them bought**: the feature is five, not a half. -/
theorem LiquidityTaker.not_signal : ¬ ∀ (a : LiquidityTaker) (symbolId : Nat)
    (calls : List BookCall) (full : BookCore) (m : MarketOrderBook)
    (us us' : List MatchingEngineMarketUpdate) (u : MatchingEngineMarketUpdate)
    (done rest : List BookCall) (clientId clientOrderId : Nat) (aggressor : Side) (price : Int)
    (quantity : Nat), (∀ call ∈ calls, call.Documented kDefaultPriceBand) →
    IndexedBook.adds calls < kMaxOrderIds →
    BookCore.run symbolId kDefaultPriceBand calls = .ok full →
    full.outgoingMarketUpdates = us ++ u :: us' → u.type = .trade →
    us.foldlM MarketOrderBook.onMarketUpdate .init = .ok m →
    calls = done ++ .add clientId clientOrderId aggressor price quantity :: rest →
    BookCore.EmittedBy symbolId done (.add clientId clientOrderId aggressor price quantity) us u →
    (∃ o ∈ us.foldl replay [], o.side = .buy) → (∃ o ∈ us.foldl replay [], o.side = .sell) →
    TotalsFit (us.foldl replay []) → a.Signal aggressor u m.bbo := by
  intro hsignal
  let calls : List BookCall := [.add 1 1 .buy 100 1, .add 1 2 .sell 101 10, .add 2 1 .buy 101 5]
  let us : List MatchingEngineMarketUpdate :=
    [⟨.add, 0, 1, .buy, 100, 1, 1⟩, ⟨.add, 0, 2, .sell, 101, 10, 1⟩]
  let u : MatchingEngineMarketUpdate := ⟨.trade, 0, 2, .sell, 101, 5, 0⟩
  let us' : List MatchingEngineMarketUpdate := [⟨.modify, 0, 2, .sell, 101, 5, 1⟩]
  let a : LiquidityTaker := ⟨⟨none⟩, fun _ => ⟨100, 1 / 2, ⟨100, 100⟩⟩⟩
  have hdoc : ∀ call ∈ calls, call.Documented kDefaultPriceBand := by decide
  have hfew : IndexedBook.adds calls < kMaxOrderIds := by decide
  obtain ⟨full, hrun, htrade⟩ := BookCore.run_trade 0 hdoc hfew
  obtain ⟨full', hrun', hcheck⟩ : ∃ b, BookCore.run 0 kDefaultPriceBand calls = .ok b ∧
      decide (b.outgoingMarketUpdates = us ++ u :: us') = true :=
    exists_of_returns (by decide +kernel)
  obtain rfl := Except.ok.inj (hrun.symm.trans hrun')
  have hsplit := of_decide_eq_true hcheck
  obtain ⟨m, done, clientId, clientOrderId, aggressor, price, quantity, rest, hm, hcalls, hemitted,
    hs, hside, hshows, hpositive, hpos, hle⟩ := htrade us u us' hsplit rfl
  obtain ⟨m', hm', hbbo⟩ : ∃ m, us.foldlM MarketOrderBook.onMarketUpdate .init = .ok m ∧
      decide (m.bbo = ⟨100, 101, 1, 10⟩) = true := exists_of_returns (by decide +kernel)
  obtain rfl := Except.ok.inj (hm.symm.trans hm')
  have hfits : TotalsFit (us.foldl replay []) := TotalsFit.of_lt (by decide)
  have hbids : ∃ o ∈ us.foldl replay [], o.side = .buy := by decide
  have hasks : ∃ o ∈ us.foldl replay [], o.side = .sell := by decide
  obtain ⟨hsame, -⟩ := (signal_iff_of_shows hs hside hpos (hle hfits) hshows hpositive hfits hbids
    hasks).mp (hsignal a 0 calls full m us us' u done rest clientId clientOrderId aggressor price
    quantity hdoc hfew hrun hsplit rfl hm hcalls hemitted hbids hasks hfits)
  rw [of_decide_eq_true hbbo] at hsame
  exact absurd hsame (by decide)

end Trading

end YQuant
