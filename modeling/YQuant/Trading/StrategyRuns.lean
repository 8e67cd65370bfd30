/-
# What a strategy does in a run

Four results about a thread on the exchange (`TradingFloor`), for every run and every step of it.
The market maker never improves on the best price it sees and never reaches the other side
(`maker_passive`).  The thread cannot fail before it runs out of order ids (`thread_goes_on`).  Its
profits balance with the fills the exchange has sent it (`profits_kept`).  And once it is told to
stop it sends nothing any more, while it books what still comes in (`stopped_settles`).

The first, the second and the last are consequences of one analysis of a step: what a step sends is
what the strategy wanted of the book it saw (`Inv.sends`), a step of a stopped thread sends
nothing, and what the invariant of the floor says of books, positions and slots is what a step
needs to succeed.  The third follows the position keeper through a run, event by event (`Kept`);
the fills it has not heard of are the ones on their way.

Profits, averages and fair prices are exact rationals here, as in the modules of the single
components, and positions are the 64-bit integers of the code, which the limit keeps from
overflowing.  Nothing is said of a run that has used up the order ids: `newOrder` ends the process
then, and the second result is about runs before that.  Nor is it said that a strategy makes a
profit.
-/
import YQuant.Trading.TradingFloor
import YQuant.Trading.ZeroSum

namespace YQuant

namespace Trading

/-! ## 1. What is sent -/

namespace OrderManager

variable {t t' : TradeEngine} {b qty : Nat} {d : Side} {lossTooLarge : Bool}

/-- A move appends to the queue, and a new order of it is the one that was wanted. -/
theorem moveOrder_sends {price : Option Int} (h : moveOrder t b price d qty lossTooLarge = .ok t') :
    ∃ sent, t'.outgoingOgwRequests = t.outgoingOgwRequests ++ sent ∧
      ∀ r ∈ sent, r.type = .new →
        r.symbolId = b ∧ r.side = d ∧ price = some r.price ∧ r.quantity = qty := by
  cases moveOrder_cases h with
  | kept => exact ⟨[], (List.append_nil _).symm, fun _ hr => absurd hr List.not_mem_nil⟩
  | canceled hlive =>
    refine ⟨[_], rfl, ?_⟩
    intro r hr htype
    rw [List.mem_singleton.mp hr] at htype
    cases htype
  | entered hempty hprice hid hallowed =>
    refine ⟨[_], rfl, ?_⟩
    intro r hr _
    rw [List.mem_singleton.mp hr]
    exact ⟨rfl, rfl, hprice, rfl⟩

theorem moveOrders_sends {bid ask : Option Int}
    (h : moveOrders t b bid ask qty lossTooLarge = .ok t') :
    ∃ sent, t'.outgoingOgwRequests = t.outgoingOgwRequests ++ sent ∧
      ∀ r ∈ sent, r.type = .new → r.symbolId = b ∧ r.quantity = qty ∧
        (r.side = .buy ∧ bid = some r.price ∨ r.side = .sell ∧ ask = some r.price) := by
  obtain ⟨-, -, h⟩ := bind_ok h
  obtain ⟨t₁, hbid, hask⟩ := bind_ok h
  obtain ⟨sent₁, hqueue₁, hsent₁⟩ := moveOrder_sends hbid
  obtain ⟨sent₂, hqueue₂, hsent₂⟩ := moveOrder_sends hask
  refine ⟨sent₁ ++ sent₂, by rw [hqueue₂, hqueue₁, List.append_assoc], ?_⟩
  intro r hr htype
  rcases List.mem_append.mp hr with hr | hr
  · obtain ⟨hsymbol, hside, hprice, hqty⟩ := hsent₁ r hr htype
    exact ⟨hsymbol, hqty, .inl ⟨hside, hprice⟩⟩
  · obtain ⟨hsymbol, hside, hprice, hqty⟩ := hsent₂ r hr htype
    exact ⟨hsymbol, hqty, .inr ⟨hside, hprice⟩⟩

/-- A response sends nothing. -/
theorem onOrderUpdate_sends {r : MatchingEngineClientResponse} (h : onOrderUpdate t r = .ok t') :
    t'.outgoingOgwRequests = t.outgoingOgwRequests := by
  rcases onOrderUpdate_cases h with ⟨rfl, -⟩ | ⟨d, -, rfl⟩ <;> rfl

/-- A move succeeds as long as there are order ids. -/
theorem moveOrder_ok (price : Option Int) (hid : t.orderManager.nextOrderId < kMaxOrderIds) :
    ∃ t', moveOrder t b price d qty lossTooLarge = .ok t' ∧
      t'.orderManager.nextOrderId ≤ t.orderManager.nextOrderId + 1 := by
  have hnew : ∀ p, ∃ t', (if t.checkPreTradeRisk b d qty lossTooLarge = .allowed then
      newOrder t b p d qty else .ok t) = .ok t' ∧
      t'.orderManager.nextOrderId ≤ t.orderManager.nextOrderId + 1 := by
    intro p
    split
    · refine ⟨entered t b p d qty, ?_, Nat.le_refl _⟩
      simp only [newOrder, hid, decide_true, assertThat_true, ok_bind]
      rfl
    · exact ⟨t, rfl, Nat.le_succ _⟩
  unfold moveOrder
  dsimp only
  cases (t.order b d).orderState with
  | live =>
    dsimp only
    split
    · exact ⟨_, rfl, Nat.le_succ _⟩
    · exact ⟨t, rfl, Nat.le_succ _⟩
  | pendingNew | pendingCancel => exact ⟨t, rfl, Nat.le_succ _⟩
  | invalid | dead =>
    cases bandPrice price with
    | none => exact ⟨t, rfl, Nat.le_succ _⟩
    | some p => exact hnew p

theorem moveOrders_ok (bid ask : Option Int) (hb : b < kMaxSymbols)
    (hid : t.orderManager.nextOrderId + 1 < kMaxOrderIds) :
    ∃ t', moveOrders t b bid ask qty lossTooLarge = .ok t' := by
  obtain ⟨t₁, hbid, hnext⟩ := @moveOrder_ok t b qty .buy lossTooLarge bid (by omega)
  obtain ⟨t', hask, -⟩ := @moveOrder_ok t₁ b qty .sell lossTooLarge ask (by omega)
  refine ⟨t', ?_⟩
  simp only [moveOrders, TradeEngine.checkTicker, hb, if_true, ok_bind, hbid, hask]

theorem onOrderUpdate_ok {r : MatchingEngineClientResponse} (hb : r.symbolId < kMaxSymbols) :
    ∃ t', onOrderUpdate t r = .ok t' := by
  unfold onOrderUpdate
  split
  · exact ⟨t, rfl⟩
  · simp only [TradeEngine.checkTicker, hb, if_true, ok_bind]
    split <;> exact ⟨_, rfl⟩

end OrderManager

/-! ## 2. What a position has heard -/

theorem fillsOf_append {rs rs' : List MatchingEngineClientResponse} {c b : Nat} :
    fillsOf (rs ++ rs') c b = fillsOf rs c b ++ fillsOf rs' c b :=
  List.filter_append ..

/-- What is sent to other clients is no fill of the client. -/
theorem fillsOf_filter (rs : List MatchingEngineClientResponse) (c b : Nat) :
    fillsOf (rs.filter fun x => x.clientId = c) c b = fillsOf rs c b := by
  unfold fillsOf
  rw [List.filter_filter]
  refine List.filter_congr fun x _ => ?_
  by_cases hclient : x.clientId = c <;> simp [hclient]

theorem heardFills_append (heard heard' : List PositionEvent) :
    heardFills (heard ++ heard') = heardFills heard ++ heardFills heard' :=
  List.filterMap_append

/-- An update of a book marks the position at the best prices of the book. -/
theorem Balanced.marked {heard : List PositionEvent} {p p' : ProfitInfo}
    {u : MatchingEngineMarketUpdate} {bbo : BBO} (h : Balanced heard p)
    (hold : p.position.natAbs < kWord32) (hp : p.marked u bbo = .ok p') :
    Balanced (heard ++ if changesBook u then [.bbo bbo] else []) p' := by
  unfold ProfitInfo.marked at hp
  split at hp
  · next hchanges =>
    rw [updateBBO_int64_eq hold] at hp
    obtain ⟨p₁, hp₁, hbalanced⟩ := h.step (e := .bbo bbo) trivial
    obtain rfl := Except.ok.inj (hp.symm.trans hp₁)
    rw [if_pos hchanges]
    exact hbalanced
  · next hsame =>
    cases hp
    rw [if_neg hsame, List.append_nil]
    exact h

/-- A fill is booked as with exact integers. -/
theorem Balanced.filled {heard : List PositionEvent} {p p' : ProfitInfo} {maxPosition : Nat}
    {r : MatchingEngineClientResponse} (h : Balanced heard p) (hmax : maxPosition ≤ 3037000500)
    (hold : p.position.natAbs ≤ maxPosition) (hqty : r.executedQuantity < kWord32)
    (hpos : 0 < r.executedQuantity) (hd : r.side.Directional) (hp : p.addFill int64 r = .ok p') :
    Balanced (heard ++ [.fill r]) p' := by
  have hold' : p.position.natAbs < kWord32 := by
    unfold kWord32
    omega
  rw [addFill_int64_eq ((exactFill_iff hold' hqty).mpr (flipTestFits_of_le hmax hold hpos))
    hd] at hp
  obtain ⟨p₁, hp₁, hbalanced⟩ := h.step (e := .fill r) ⟨hpos, hd⟩
  obtain rfl := Except.ok.inj (hp.symm.trans hp₁)
  exact hbalanced

namespace TradingFloor

variable {c : Nat} {algo : AlgoType} {cfg : Nat → TradeEngineCfg} {maxLoss : Nat → ℚ}
  {s s' s'' : TradingFloor} {e : Event} {events : List Event}

/-- The requests that are in the queue after a step and were there before. -/
def kept (s : TradingFloor) : Event → List MatchingEngineClientRequest
  | .takeRequest => s.thread.outgoingOgwRequests.tail
  | .takeResponse | .takeUpdate _ | .otherRequest _ | .stop => s.thread.outgoingOgwRequests

/-- New orders among the requests are what the strategy wanted of the book it saw. -/
def WantedBy (s s' : TradingFloor) (e : Event) (r : MatchingEngineClientRequest) : Prop :=
  ∃ u q, e = .takeUpdate u ∧
    s.thread.wanted u (s'.thread.tickerOrderBook u.symbolId).bbo = some q ∧
    r.symbolId = u.symbolId ∧ r.quantity = q.clip ∧
    (r.side = .buy ∧ q.bidPrice = some r.price ∨ r.side = .sell ∧ q.askPrice = some r.price)

/-- **What a step sends**: only a market update makes the thread send new orders. -/
theorem Inv.sends (h : Inv c algo cfg s) (hcfg : Configured algo cfg) (hstep : s.step e = .ok s') :
    ∃ sent, s'.thread.outgoingOgwRequests = s.kept e ++ sent ∧
      ∀ r ∈ sent, r.type = .new → WantedBy s s' e r := by
  have hnothing (hqueue : s'.thread.outgoingOgwRequests = s.kept e) :
      ∃ sent, s'.thread.outgoingOgwRequests = s.kept e ++ sent ∧
        ∀ r ∈ sent, r.type = .new → WantedBy s s' e r :=
    ⟨[], by rw [hqueue, List.append_nil], fun _ hr => absurd hr List.not_mem_nil⟩
  cases outcome hstep with
  | idle hidle =>
    refine hnothing ?_
    rcases hidle with ⟨rfl, -⟩ | ⟨rfl, hqueue⟩
    · rfl
    · rw [kept, hqueue]
      rfl
  | other | stopped => exact hnothing rfl
  | taken hqueue _ =>
    refine hnothing ?_
    rw [kept, hqueue]
    rfl
  | heard _ ht =>
    refine hnothing ?_
    have htrades : s.thread.algo = .maker ∨ s.thread.algo = .taker := h.algo ▸ hcfg.trades
    obtain ⟨ps, e, -, he, rfl⟩ := TradeThread.onOrderUpdate_cases htrades ht
    exact OrderManager.onOrderUpdate_sends he
  | @noted u m p t hm hp hmove =>
    have hbook : t.tickerOrderBook u.symbolId = m := by
      rw [(TradeThread.moveOrders_same hmove).tickerOrderBook]
      exact Function.update_self ..
    rcases TradeThread.moveOrders_trader hmove with ⟨-, rfl⟩ | ⟨q, e, hq, -, rfl, he⟩
    · exact hnothing rfl
    · obtain ⟨sent, hqueue, hsent⟩ := OrderManager.moveOrders_sends he
      refine ⟨sent, hqueue, ?_⟩
      intro r hr htype
      obtain ⟨hsymbol, hqty, hprice⟩ := hsent r hr htype
      refine ⟨u, q, rfl, ?_, hsymbol, hqty, hprice⟩
      rw [hbook]
      exact hq

/-! ## 3. The market maker is passive -/

/-- **A passive order** joins the best price of its own side or stays one tick behind it. -/
structure Passive (l : List LiveOrder) (r : MatchingEngineClientRequest) : Prop where
  /-- Some order of its side is at least as good. -/
  behind : ∃ o ∈ l, o.side = r.side ∧ if r.side = .buy then r.price ≤ o.price else o.price ≤ r.price
  /-- None is better by more than a tick. -/
  close : ∀ o ∈ l, o.side = r.side →
    if r.side = .buy then o.price ≤ r.price + 1 else r.price ≤ o.price + 1

/-- No bid reaches an offer. -/
def Uncrossed (l : List LiveOrder) : Prop :=
  ∀ o ∈ l, ∀ o' ∈ l, o.side = .buy → o'.side = .sell → o.price < o'.price

/-- **A passive order meets nothing** among live orders that do not meet each other. -/
theorem Passive.meets_nothing {l : List LiveOrder} {r : MatchingEngineClientRequest}
    (h : Passive l r) (hl : Uncrossed l) (hr : r.side.Directional) :
    ∀ o ∈ l, o.side = r.side.opposite →
      if r.side = .buy then r.price < o.price else o.price < r.price := by
  intro o ho hside
  obtain ⟨o', ho', hside', hbehind⟩ := h.behind
  rcases hr with hr | hr
  · simp only [hr, if_true] at hbehind ⊢
    have hlt := hl o' ho' o ho (hside'.trans hr) (by simpa [hr] using hside)
    omega
  · simp only [hr, reduceCtorEq, if_false] at hbehind ⊢
    have hlt := hl o ho o' ho' (by simpa [hr] using hside) (hside'.trans hr)
    omega

/-- What the market maker wants of a book is passive. -/
theorem passive_of_makerQuotes {m : MarketOrderBook} {l : List LiveOrder}
    {tickerCfg : TradeEngineCfg}
    {r : MatchingEngineClientRequest} (hshows : m.Shows l) (hbid : m.bbo.bidQty ≠ 0)
    (hask : m.bbo.askQty ≠ 0)
    (hprice : r.side = .buy ∧ (makerQuotes tickerCfg m.bbo).bidPrice = some r.price ∨
      r.side = .sell ∧ (makerQuotes tickerCfg m.bbo).askPrice = some r.price) : Passive l r := by
  have htop {d : Side} (hd : d.Directional) (hqty : (m.bbo.side d).2 ≠ 0) :
      (∃ o ∈ l, o.side = d ∧ o.price = (m.bbo.side d).1) ∧ ∀ o ∈ l, o.side = d →
        o.price = (m.bbo.side d).1 ∨
          MarketOrderBook.addAfter d o.price (m.bbo.side d).1 = true := by
    rcases hshows d hd with ⟨hzero, -⟩ | ⟨⟨o, ho, hat⟩, hbest, -⟩
    · exact absurd (congrArg Prod.snd hzero) hqty
    · exact ⟨⟨o, ho, hat⟩, hbest⟩
  rcases hprice with ⟨hside, hprice⟩ | ⟨hside, hprice⟩
  · obtain ⟨⟨o, ho, hoside, hoprice⟩, hbest⟩ := htop (.inl rfl) (d := .buy) hbid
    have hquote : m.bbo.bidPrice - 1 ≤ r.price ∧ r.price ≤ m.bbo.bidPrice := by
      have heq := Option.some.inj hprice
      split at heq <;> omega
    have hfirst : (m.bbo.side .buy).1 = m.bbo.bidPrice := rfl
    refine ⟨⟨o, ho, hoside.trans hside.symm, ?_⟩, ?_⟩
    · rw [if_pos hside]
      omega
    · intro o' ho' hoside'
      rw [if_pos hside]
      have := hbest o' ho' (hoside'.trans hside)
      rw [MarketOrderBook.addAfter_iff (.inl rfl)] at this
      simp only [if_true] at this
      omega
  · obtain ⟨⟨o, ho, hoside, hoprice⟩, hbest⟩ := htop (.inr rfl) (d := .sell) hask
    have hquote : m.bbo.askPrice ≤ r.price ∧ r.price ≤ m.bbo.askPrice + 1 := by
      have heq := Option.some.inj hprice
      split at heq <;> omega
    have hfirst : (m.bbo.side .sell).1 = m.bbo.askPrice := rfl
    have hsell : r.side ≠ .buy := by
      rw [hside]
      decide
    refine ⟨⟨o, ho, hoside.trans hside.symm, ?_⟩, ?_⟩
    · rw [if_neg hsell]
      omega
    · intro o' ho' hoside'
      rw [if_neg hsell]
      have := hbest o' ho' (hoside'.trans hside)
      rw [MarketOrderBook.addAfter_iff (.inr rfl)] at this
      simp only [reduceCtorEq, if_false] at this
      omega

/-- **The market maker is passive**, in every state that is reached: an order it sends joins the
best price it sees or stays one tick behind it, and meets no order of an uncrossed book.  The book
it sees is that of the updates it has taken, so an order may still meet something by the time it
arrives at the exchange.  Which of the two prices it picks depends on a floating point comparison;
either is passive. -/
theorem maker_passive (hc : c < kMaxNumClients) (hcfg : Configured .maker cfg)
    (hinit : init c .maker cfg maxLoss = .ok s) (hallowed : Run.EachStep step Allowed s events)
    (hrun : events.foldlM step s = .ok s') (he : s'.Allowed e) (hstep : s'.step e = .ok s'') :
    ∃ sent, s''.thread.outgoingOgwRequests = s'.kept e ++ sent ∧
      ∀ r ∈ sent, r.type = .new → r.side.Directional ∧
        Passive (liveOrders s''.delivered r.symbolId) r ∧
        (Uncrossed (liveOrders s''.delivered r.symbolId) →
          ∀ o ∈ liveOrders s''.delivered r.symbolId, o.side = r.side.opposite →
            if r.side = .buy then r.price < o.price else o.price < r.price) := by
  have hinv : Inv c .maker cfg s' := (run_inv hc hcfg hinit hallowed).of_foldlM hrun
  obtain ⟨sent, hqueue, hsent⟩ := hinv.sends hcfg hstep
  refine ⟨sent, hqueue, ?_⟩
  intro r hr htype
  obtain ⟨u, q, rfl, hwanted, hsymbol, -, hprice⟩ := hsent r hr htype
  have hside : r.side.Directional := hprice.imp And.left And.left
  have hfollows := (hinv.step hc hcfg he hstep).1.books u.symbolId he.1
  obtain ⟨-, hbid, hask, -, -⟩ := TradeThread.wanted_near hwanted
  have hquotes : q = makerQuotes (s'.thread.tickerCfg u.symbolId)
      (s''.thread.tickerOrderBook u.symbolId).bbo := by
    simp only [TradeThread.wanted, hinv.algo] at hwanted
    split at hwanted
    · cases hwanted
    · split at hwanted
      · exact (Option.some.inj hwanted).symm
      · cases hwanted
  rw [hquotes] at hprice
  have hpassive := passive_of_makerQuotes hfollows.shows hbid hask hprice
  rw [hsymbol]
  exact ⟨hside, hpassive, fun hl => hpassive.meets_nothing hl hside⟩

/-- A quiet book, and the market maker's first two orders. -/
theorem maker_passive_first_quotes : ∃ s s' s'', init 1 .maker makerCfg (fun _ => -1000) = .ok s ∧
    [Event.takeUpdate ⟨.add, 0, 1, .buy, 100, 4, 1⟩].foldlM step s = .ok s' ∧
    s'.step (.takeUpdate ⟨.add, 0, 2, .sell, 104, 4, 1⟩) = .ok s'' ∧
    s''.thread.outgoingOgwRequests =
      [⟨.new, 1, 0, 1, .buy, 100, 10⟩, ⟨.new, 1, 0, 2, .sell, 104, 10⟩] ∧
    ∃ sent, s''.thread.outgoingOgwRequests =
        s'.kept (.takeUpdate ⟨.add, 0, 2, .sell, 104, 4, 1⟩) ++ sent ∧
      ∀ r ∈ sent, r.type = .new → r.side.Directional ∧
        Passive (liveOrders s''.delivered r.symbolId) r ∧
        (Uncrossed (liveOrders s''.delivered r.symbolId) →
          ∀ o ∈ liveOrders s''.delivered r.symbolId, o.side = r.side.opposite →
            if r.side = .buy then r.price < o.price else o.price < r.price) := by
  obtain ⟨s, hinit, hcheck⟩ : ∃ s, init 1 .maker makerCfg (fun _ => -1000) = .ok s ∧
      (decide (Run.EachStep step Allowed s [.takeUpdate ⟨.add, 0, 1, .buy, 100, 4, 1⟩]) &&
        returns (fun s' => decide (s'.Allowed (.takeUpdate ⟨.add, 0, 2, .sell, 104, 4, 1⟩)) &&
          returns (fun s'' => decide (s''.thread.outgoingOgwRequests =
            [⟨.new, 1, 0, 1, .buy, 100, 10⟩, ⟨.new, 1, 0, 2, .sell, 104, 10⟩]))
            (s'.step (.takeUpdate ⟨.add, 0, 2, .sell, 104, 4, 1⟩)))
          ([.takeUpdate ⟨.add, 0, 1, .buy, 100, 4, 1⟩].foldlM step s)) = true :=
    exists_of_returns (by decide +kernel)
  rw [Bool.and_eq_true] at hcheck
  obtain ⟨s', hrun, hlast⟩ := exists_of_returns hcheck.2
  rw [Bool.and_eq_true] at hlast
  obtain ⟨s'', hstep, hsent⟩ := exists_of_returns hlast.2
  exact ⟨s, s', s'', hinit, hrun, hstep, of_decide_eq_true hsent,
    maker_passive (by decide) makerCfg_configured hinit (of_decide_eq_true hcheck.1) hrun
      (of_decide_eq_true hlast.1) hstep⟩

/-! ## 4. The thread goes on -/

/-- The thread itself takes the step. -/
def Event.OfThread : Event → Prop
  | .takeResponse | .takeUpdate _ | .stop => True
  | .takeRequest | .otherRequest _ => False

theorem Inv.position_lt (h : Inv c algo cfg s) (hcfg : Configured algo cfg) (b : Nat) :
    (s.thread.positionKeeper b).position.natAbs < kWord32 :=
  (h.sound.position_le b).trans_lt (hcfg.maxPosition b)

theorem marked_ok {p : ProfitInfo} (hold : p.position.natAbs < kWord32)
    (u : MatchingEngineMarketUpdate) (bbo : BBO) : ∃ p', p.marked u bbo = .ok p' := by
  unfold ProfitInfo.marked
  split
  · exact updateBBO_ok hold bbo
  · exact ⟨p, rfl⟩

/-- A response that is there and an update that is delivered go through. -/
theorem Inv.goes_on (h : Inv c algo cfg s) (hcfg : Configured algo cfg) (he : s.Allowed e)
    (hthread : e.OfThread) (hid : s.thread.orderManager.nextOrderId + 1 < kMaxOrderIds) :
    ∃ s', s.step e = .ok s' := by
  cases e with
  | takeRequest | otherRequest => exact absurd hthread not_false
  | stop => exact ⟨_, rfl⟩
  | takeUpdate u =>
    obtain ⟨m, hm, -⟩ := h.update he
    obtain ⟨p, hp⟩ := marked_ok (h.position_lt hcfg u.symbolId) u m.bbo
    have hupdate := TradeThread.onMarketUpdate_eq he.1 hm hp
    obtain ⟨t, ht⟩ : ∃ t, (s.thread.noted u m p).moveOrders u.symbolId
        (s.thread.wanted u m.bbo) = .ok t := by
      cases s.thread.wanted u m.bbo with
      | none => exact ⟨_, rfl⟩
      | some q =>
        obtain ⟨e, hmoved⟩ := @OrderManager.moveOrders_ok s.thread.trader u.symbolId q.clip
          ((s.thread.noted u m p).lossTooLarge u.symbolId) q.bidPrice q.askPrice he.1 hid
        refine ⟨(s.thread.noted u m p).withTrader e, ?_⟩
        simp only [TradeThread.moveOrders, TradeThread.trader_noted hp, hmoved, ok_bind]
    refine ⟨{ s with
      thread := t
      delivered := s.delivered ++ [u] }, ?_⟩
    simp only [TradingFloor.step, hupdate, ht, ok_bind]
  | takeResponse =>
    cases hqueue : s.responses with
    | nil => exact ⟨s, by simp only [TradingFloor.step, hqueue]⟩
    | cons r rest =>
      have hr : r ∈ s.responses := hqueue ▸ List.mem_cons_self
      have hsymbol : r.symbolId < kMaxSymbols := h.sound.symbols r hr
      obtain ⟨ps, hbooked⟩ : ∃ ps, (if r.type = .filled then s.thread.addFill r
          else .ok s.thread) = .ok (s.thread.withPositions ps) := by
        split
        · next htype =>
          have hfit := h.fits hcfg hr htype
          obtain ⟨p, hp, -⟩ := info_addFill hfit.position hfit.quantity hfit.side
          refine ⟨Function.update s.thread.positionKeeper r.symbolId p, ?_⟩
          simp only [TradeThread.addFill, TradeEngine.checkTicker, hsymbol, if_true, hp, ok_bind]
          rfl
        · exact ⟨s.thread.positionKeeper, rfl⟩
      obtain ⟨e, he⟩ := @OrderManager.onOrderUpdate_ok (s.thread.withPositions ps).trader r hsymbol
      have hupdate : s.thread.onOrderUpdate r =
          .ok ((s.thread.withPositions ps).withTrader e) := by
        have halgo : (s.thread.withPositions ps).algo = algo := h.algo
        rw [TradeThread.onOrderUpdate, hbooked, ok_bind, halgo]
        rcases hcfg.trades with rfl | rfl
        · simp only [he, ok_bind]
        · simp only [he, ok_bind]
      refine ⟨{ s with
        thread := (s.thread.withPositions ps).withTrader e
        responses := rest }, ?_⟩
      simp only [TradingFloor.step, hqueue, hupdate, ok_bind]

/-- **The thread cannot fail before it runs out of order ids**: in every state that is reached it
can process any response that is there and any update that is delivered.  A response is for a slot
the thread knows and a symbol of its tables, since the thread is the only user of its client id; an
update finds its order or its level in the book of its symbol, since that book mirrors the updates
before it (`Follows`); and the limit keeps the position in the integers it is computed with.  What
the loops of the books need to stop is in the mirror as well.

It is not said that the updates are the exchange's: any that can be delivered are allowed here, and
that a feed delivers no others is shown for the whole loop (`ClosedLoop.lean`).  Of the order ids
two have to be left, one for each side of `moveOrders`; past `kMaxOrderIds` the assertion of
`newOrder` ends the process. -/
theorem thread_goes_on (hc : c < kMaxNumClients) (hcfg : Configured algo cfg)
    (hinit : init c algo cfg maxLoss = .ok s) (hallowed : Run.EachStep step Allowed s events)
    (hrun : events.foldlM step s = .ok s') (he : s'.Allowed e) (hthread : e.OfThread)
    (hid : s'.thread.orderManager.nextOrderId + 1 < kMaxOrderIds) : ∃ s'', s'.step e = .ok s'' := by
  have hinv : Inv c algo cfg s' := (run_inv hc hcfg hinit hallowed).of_foldlM hrun
  exact hinv.goes_on hcfg he hthread hid

/-- The update of the market maker's own bid. -/
def ownBid : MatchingEngineMarketUpdate := ⟨.add, 0, 3, .buy, 100, 10, 2⟩

/-- The market maker has quoted and is hit, and the three responses wait for it. -/
theorem quotedAndHit_waiting : ∃ s s', init 1 .maker makerCfg (fun _ => -1000) = .ok s ∧
    Run.EachStep step Allowed s (quotedAndHit.take 7) ∧
    (quotedAndHit.take 7).foldlM step s = .ok s' ∧
    s'.responses.length = 3 ∧ s'.Allowed (.takeUpdate ownBid) ∧
    s'.thread.orderManager.nextOrderId = 3 := by
  obtain ⟨s, hinit, hcheck⟩ : ∃ s, init 1 .maker makerCfg (fun _ => -1000) = .ok s ∧
      (decide (Run.EachStep step Allowed s (quotedAndHit.take 7)) &&
        returns (fun s' => decide (s'.responses.length = 3 ∧ s'.Allowed (.takeUpdate ownBid) ∧
          s'.thread.orderManager.nextOrderId = 3))
          ((quotedAndHit.take 7).foldlM step s)) = true :=
    exists_of_returns (by decide +kernel)
  rw [Bool.and_eq_true] at hcheck
  obtain ⟨s', hrun, hend⟩ := exists_of_returns hcheck.2
  exact ⟨s, s', hinit, of_decide_eq_true hcheck.1, hrun, of_decide_eq_true hend⟩

/-- It can take the first of the responses, and as well the update of its own bid. -/
theorem thread_goes_on_quoted_and_hit : ∃ s s', init 1 .maker makerCfg (fun _ => -1000) = .ok s ∧
    (quotedAndHit.take 7).foldlM step s = .ok s' ∧ s'.responses.length = 3 ∧
    (∃ s'', s'.step .takeResponse = .ok s'') ∧ ∃ s'', s'.step (.takeUpdate ownBid) = .ok s'' := by
  obtain ⟨s, s', hinit, hallowed, hrun, hwaiting, hbid, hid⟩ := quotedAndHit_waiting
  have hlow : s'.thread.orderManager.nextOrderId + 1 < kMaxOrderIds := by
    rw [hid]
    decide
  exact ⟨s, s', hinit, hrun, hwaiting,
    thread_goes_on (by decide) makerCfg_configured hinit hallowed hrun (e := .takeResponse) trivial
      trivial hlow,
    thread_goes_on (by decide) makerCfg_configured hinit hallowed hrun hbid trivial hlow⟩

/-! ## 5. Profits -/

/-- What a step tells the position keeper of a symbol: the fill of a response, or the best prices of
the thread's book when an update has changed it. -/
def heardIn (b : Nat) (s : TradingFloor) : Event → List PositionEvent
  | .takeResponse =>
    match s.responses with
    | [] => []
    | r :: _ => if r.type = .filled ∧ r.symbolId = b then [.fill r] else []
  | .takeUpdate u =>
    match (s.thread.tickerOrderBook b).onMarketUpdate u with
    | .ok m => if u.symbolId = b ∧ changesBook u then [.bbo m.bbo] else []
    | .error _ => []
  | .takeRequest | .otherRequest _ | .stop => []

/-- What the position keeper of a symbol hears in a run. -/
def heard (b : Nat) (s : TradingFloor) (events : List Event) : List PositionEvent :=
  Run.emitted step (heardIn b) s events

/-- **The position keeper balances** with what it has heard, and the fills among this are those the
exchange has sent but for the ones on their way. -/
structure Kept (c b : Nat) (heard : List PositionEvent) (s : TradingFloor) : Prop where
  addressed : ∀ x ∈ s.responses, x.Addressed
  fills : heardFills heard ++ fillsOf s.responses c b =
    fillsOf s.engine.outgoingClientResponses c b
  balanced : Balanced heard (s.thread.positionKeeper b)

section Kept

variable {b : Nat} {heard : List PositionEvent}

/-- What the exchange sends is on its way. -/
theorem Kept.process {engine : MatchingEngine} {rs : List MatchingEngineClientResponse}
    {us : List MatchingEngineMarketUpdate} {t : TradeThread} (h : Kept c b heard s)
    (haddressed : ∀ x ∈ rs, x.Addressed) (hemits : MatchingEngine.Emits s.engine engine rs us)
    (hsame : t.positionKeeper = s.thread.positionKeeper) :
    Kept c b heard ⟨engine, t, s.responses ++ rs.filter fun x => x.clientId = c, s.delivered⟩ where
  addressed x hx := by
    rcases List.mem_append.mp hx with hx | hx
    · exact h.addressed x hx
    · exact haddressed x (List.mem_filter.mp hx).1
  fills := by
    rw [hemits.responses, fillsOf_append, fillsOf_append, fillsOf_filter, ← List.append_assoc,
      h.fills]
  balanced := by
    rw [hsame]
    exact h.balanced

/-- A market update marks the position at the best prices of the book it leads to. -/
theorem Kept.noted (h : Kept c b heard s) {u : MatchingEngineMarketUpdate} {m : MarketOrderBook}
    {p : ProfitInfo} {t : TradeThread}
    (hold : (s.thread.positionKeeper u.symbolId).position.natAbs < kWord32)
    (hm : (s.thread.tickerOrderBook u.symbolId).onMarketUpdate u = .ok m)
    (hp : (s.thread.positionKeeper u.symbolId).marked u m.bbo = .ok p)
    (ht : t.positionKeeper = Function.update s.thread.positionKeeper u.symbolId p) :
    Kept c b (heard ++ heardIn b s (.takeUpdate u))
      { s with
        thread := t
        delivered := s.delivered ++ [u] } := by
  rcases eq_or_ne u.symbolId b with rfl | hother
  · have hheard : heardIn u.symbolId s (.takeUpdate u) =
        if changesBook u then [.bbo m.bbo] else [] := by
      simp only [heardIn, hm, true_and]
    have hfills : heardFills (heardIn u.symbolId s (.takeUpdate u)) = [] := by
      rw [hheard]
      split <;> rfl
    refine ⟨h.addressed, by rw [heardFills_append, hfills, List.append_nil]; exact h.fills, ?_⟩
    rw [hheard, ht, Function.update_self]
    exact h.balanced.marked hold hp
  · have hheard : heardIn b s (.takeUpdate u) = [] := by
      simp only [heardIn, hother, false_and, if_false]
      split <;> rfl
    rw [hheard, List.append_nil]
    refine ⟨h.addressed, h.fills, ?_⟩
    rw [ht, Function.update_of_ne hother.symm]
    exact h.balanced

/-- The head of the responses is booked if it is a fill of the symbol. -/
theorem Kept.booked (h : Kept c b heard s) {r : MatchingEngineClientResponse}
    {rest : List MatchingEngineClientResponse} {ps : Nat → ProfitInfo} {t : TradeThread}
    (hqueue : s.responses = r :: rest) (hclient : r.clientId = c)
    (hmax : (cfg r.symbolId).riskCfg.maxPosition ≤ 3037000500)
    (hold : (s.thread.positionKeeper r.symbolId).position.natAbs ≤
      (cfg r.symbolId).riskCfg.maxPosition)
    (hfit : r.type = .filled → r.executedQuantity < kWord32 ∧ r.side.Directional)
    (hbooks : s.thread.Books r ps) (ht : t.positionKeeper = ps) :
    Kept c b (heard ++ heardIn b s .takeResponse)
      { s with
        thread := t
        responses := rest } := by
  have hr : r ∈ s.responses := hqueue ▸ List.mem_cons_self
  have haddressed : ∀ x ∈ rest, x.Addressed := fun x hx =>
    h.addressed x (hqueue ▸ List.mem_cons_of_mem r hx)
  have hheard : heardIn b s .takeResponse =
      if r.type = .filled ∧ r.symbolId = b then [.fill r] else [] := by
    simp only [heardIn, hqueue]
  have hfills := h.fills
  rw [hqueue, ← List.singleton_append, fillsOf_append] at hfills
  by_cases hbooked : r.type = .filled ∧ r.symbolId = b
  · obtain ⟨htype, rfl⟩ := hbooked
    obtain ⟨hqty, hd⟩ := hfit htype
    rw [hheard, if_pos ⟨htype, rfl⟩]
    unfold TradeThread.Books at hbooks
    rw [if_pos htype] at hbooks
    obtain ⟨-, p, hp, rfl⟩ := hbooks
    have hone : fillsOf [r] c r.symbolId = [r] := by simp [fillsOf, htype, hclient]
    rw [hone] at hfills
    refine ⟨haddressed, ?_, ?_⟩
    · rw [heardFills_append, ← hfills, List.append_assoc]
      rfl
    · rw [ht, Function.update_self]
      exact h.balanced.filled hmax hold hqty ((h.addressed r hr).executed htype) hd hp
  · have hnone : fillsOf [r] c b = [] := by
      simp only [fillsOf, List.filter_eq_nil_iff, List.mem_singleton, decide_eq_true_eq]
      rintro x rfl ⟨htype, -, hsymbol⟩
      exact hbooked ⟨htype, hsymbol⟩
    rw [hnone, List.nil_append] at hfills
    rw [hheard, if_neg hbooked, List.append_nil]
    refine ⟨haddressed, hfills, ?_⟩
    have hsame : ps b = s.thread.positionKeeper b := by
      unfold TradeThread.Books at hbooks
      split at hbooks
      · next htype =>
        obtain ⟨-, p, -, rfl⟩ := hbooks
        exact Function.update_of_ne (fun hb => hbooked ⟨htype, hb.symm⟩) _ _
      · rw [hbooks]
    rw [ht, hsame]
    exact h.balanced

theorem Kept.step (h : Kept c b heard s) (hinv : Inv c algo cfg s) (hcfg : Configured algo cfg)
    (hmax : ∀ b, (cfg b).riskCfg.maxPosition ≤ 3037000500) (he : s.Allowed e)
    (hstep : s.step e = .ok s') : Kept c b (heard ++ heardIn b s e) s' := by
  obtain ⟨xs, hs⟩ := hinv.sound.synced
  have hclient : s.thread.clientId = c := hs.trader.client
  cases outcome hstep with
  | idle hidle =>
    have hnothing : heardIn b s e = [] := by
      rcases hidle with ⟨rfl, hqueue⟩ | ⟨rfl, -⟩
      · simp only [heardIn, hqueue]
      · rfl
    rw [hnothing, List.append_nil]
    exact h
  | stopped =>
    rw [heardIn, List.append_nil]
    exact ⟨h.addressed, h.fills, h.balanced⟩
  | other hsys =>
    obtain ⟨engine, -, hemits, rfl⟩ := TradingSystem.process_cases hs.simulates he.1 hsys
    have hkept := h.process (hs.simulates.inv.addressed he.1) hemits (t := s.thread) rfl
    rw [heardIn, List.append_nil]
    rw [← hclient] at hkept ⊢
    exact hkept
  | @taken r rest sys hqueue hsys =>
    have hdoc : r.Documented := (hs.trader.requests r (by
      change r ∈ s.thread.outgoingOgwRequests
      rw [hqueue]
      exact List.mem_cons_self)).2
    obtain ⟨engine, -, hemits, rfl⟩ :=
      TradingSystem.process_cases (s := (s.dropped rest).system) hs.simulates hdoc hsys
    have hkept := h.process (hs.simulates.inv.addressed hdoc) hemits
      (t := (s.dropped rest).thread) rfl
    rw [heardIn, List.append_nil]
    rw [← hclient] at hkept ⊢
    exact hkept
  | @noted u m p t hm hp hmove =>
    exact h.noted (hinv.position_lt hcfg _) hm hp (TradeThread.moveOrders_same hmove).positionKeeper
  | @heard r rest t hqueue ht =>
    have hr : r ∈ s.responses := hqueue ▸ List.mem_cons_self
    have htrades : s.thread.algo = .maker ∨ s.thread.algo = .taker := hinv.algo ▸ hcfg.trades
    obtain ⟨ps, e, hbooks, -, rfl⟩ := TradeThread.onOrderUpdate_cases htrades ht
    exact h.booked hqueue (hs.linked.filled r hr).1 (hmax _) (hinv.sound.position_le r.symbolId)
      (fun htype => hinv.sound.fill_fits hr htype) hbooks rfl

end Kept

/-- **Profits are kept**, in every run that returns: for each symbol, the position keeper balances
with what it has heard.  These are the fills the exchange has sent the client, but for those on
their way, and the best bids and offers of the thread's own book whenever an update changed it; the
position is marked at the middle of the last two-sided ones, or at the price of a later fill.

The limit on the position keeps the 64-bit integers of the code exact.  Prices and profits are exact
rationals here, and the code's floating point numbers only come near them. -/
theorem profits_kept (hc : c < kMaxNumClients) (hcfg : Configured algo cfg)
    (hmax : ∀ b, (cfg b).riskCfg.maxPosition ≤ 3037000500)
    (hinit : init c algo cfg maxLoss = .ok s) (hallowed : Run.EachStep step Allowed s events)
    (hrun : events.foldlM step s = .ok s') (b : Nat) :
    heardFills (heard b s events) ++ fillsOf s'.responses c b =
        fillsOf s'.engine.outgoingClientResponses c b ∧
      Balanced (heard b s events) (s'.thread.positionKeeper b) := by
  have hkept : Kept c b [] s := by
    obtain ⟨engine, hengine, hdone⟩ := bind_ok hinit
    obtain ⟨m, hm, -, hnone, -⟩ := MatchingEngine.init_spec
    obtain rfl := Except.ok.inj (hengine.symm.trans hm)
    cases hdone
    refine ⟨fun x hx => absurd hx List.not_mem_nil, ?_, .empty⟩
    dsimp only
    rw [hnone]
    rfl
  have hall : Inv c algo cfg s' ∧ Kept c b ([] ++ heard b s events) s' :=
    hallowed.emitted_inv (I := fun heard s => Inv c algo cfg s ∧ Kept c b heard s)
      (fun heard s e s' h he hstep =>
        ⟨(h.1.step hc hcfg he hstep).1, h.2.step h.1 hcfg hmax he hstep⟩)
      ⟨(init_inv hinit).1, hkept⟩ hrun
  rw [List.nil_append] at hall
  exact ⟨hall.2.fills, hall.2.balanced⟩

/-- The market maker hears of a bid, of an offer beside it, and of five that it has bought. -/
theorem profits_kept_quoted_and_hit : ∃ s s', init 1 .maker makerCfg (fun _ => -1000) = .ok s ∧
    quotedAndHit.foldlM step s = .ok s' ∧
    heard 0 s quotedAndHit = [.bbo ⟨100, 0, 4, 0⟩, .bbo ⟨100, 104, 4, 4⟩,
      .fill ⟨.filled, 1, 0, 1, 3, .buy, 100, 5, 5⟩] ∧
    ∀ b, heardFills (heard b s quotedAndHit) ++ fillsOf s'.responses 1 b =
        fillsOf s'.engine.outgoingClientResponses 1 b ∧
      Balanced (heard b s quotedAndHit) (s'.thread.positionKeeper b) := by
  obtain ⟨s, hinit, hcheck⟩ : ∃ s, init 1 .maker makerCfg (fun _ => -1000) = .ok s ∧
      (decide (heard 0 s quotedAndHit = [.bbo ⟨100, 0, 4, 0⟩, .bbo ⟨100, 104, 4, 4⟩,
        .fill ⟨.filled, 1, 0, 1, 3, .buy, 100, 5, 5⟩])) = true :=
    exists_of_returns (by decide +kernel)
  obtain ⟨s₁, s', hinit₁, hallowed, hrun, -⟩ := quotedAndHit_runs
  obtain rfl := Except.ok.inj (hinit.symm.trans hinit₁)
  exact ⟨s, s', hinit, hrun, of_decide_eq_true hcheck,
    profits_kept (by decide) makerCfg_configured (fun _ => (by decide : 10 ≤ 3037000500)) hinit
      hallowed hrun⟩

/-! ## 6. After a stop -/

/-- **A slot has settled**: its order is live and rests at the exchange with just this quantity, or
nothing of the client rests on the side of the slot. -/
def Settled (s : TradingSystem) (b : Nat) (d : Side) : Prop :=
  ((s.trader.order b d).orderState = .live ∧ (∃ tick a node, s.OwnAt b d tick a node ∧
      node.clientOrderId = (s.trader.order b d).orderId ∧
      node.remainingQuantity = (s.trader.order b d).qty)) ∨
    ((s.trader.order b d).orderState = .invalid ∨ (s.trader.order b d).orderState = .dead) ∧
      ∀ tick a node, ¬ s.OwnAt b d tick a node

/-- **With nothing on its way every slot has settled.** -/
theorem settled_of_quiet {sys : TradingSystem} {xs : IndexedBooks} {b : Nat} {d : Side}
    (hs : TradingSystem.Synced c sys xs) (hb : b < kMaxSymbols)
    (hrequests : sys.trader.outgoingOgwRequests = []) (hresponses : sys.responses = []) :
    Settled sys b d := by
  by_cases hstate : (sys.trader.order b d).orderState = .invalid
  · exact .inr ⟨.inl hstate, (hs.slot_over hb (.inl hstate)).1⟩
  have hsession := hs.linked.placed b _ d ⟨hstate, rfl⟩
  unfold InSession at hsession
  rw [hrequests, hresponses] at hsession
  have hquiet := hsession.quiet
  cases hcase : (sys.trader.order b d).orderState with
  | invalid => exact absurd hcase hstate
  | dead => exact .inr ⟨.inr hcase, (hs.slot_over hb (.inr hcase)).1⟩
  | pendingNew | pendingCancel =>
    rw [hcase] at hquiet
    rcases hquiet with hphase | ⟨hphase, -⟩ <;> cases hphase
  | live =>
    rw [hcase] at hquiet
    obtain ⟨-, hqty⟩ := hquiet.resolve_left (by simp [OMOrderState.phase])
    obtain ⟨left, hleft, hrests⟩ := hs.slot_accounted hb (.inl hcase)
    have hflight : sys.filledInFlight b (sys.trader.order b d).orderId = 0 := by
      rw [TradingSystem.filledInFlight, hresponses]
      rfl
    rw [hflight, Nat.zero_add] at hleft
    rcases hrests with ⟨tick, a, node, hown, hquantity⟩ | ⟨-, ⟨x, hx, -⟩ | ⟨hzero, -⟩⟩
    · exact .inl ⟨hcase, tick, a, node, hown, (hs.slot_resting hb hown).1,
        hquantity.trans hleft.symm⟩
    · rw [hresponses] at hx
      exact absurd hx List.not_mem_nil
    · omega

/-- A stopped thread sends nothing. -/
theorem Inv.stopped_step (h : Inv c algo cfg s) (hcfg : Configured algo cfg)
    (hstop : s.thread.stopping = true) (hstep : s.step e = .ok s') :
    s'.thread.stopping = true ∧ s'.thread.outgoingOgwRequests <:+ s.thread.outgoingOgwRequests := by
  cases outcome hstep with
  | idle | other => exact ⟨hstop, List.suffix_rfl⟩
  | stopped => exact ⟨rfl, List.suffix_rfl⟩
  | taken hqueue _ =>
    refine ⟨hstop, ?_⟩
    rw [hqueue]
    exact List.suffix_cons _ _
  | heard _ ht =>
    have htrades : s.thread.algo = .maker ∨ s.thread.algo = .taker := h.algo ▸ hcfg.trades
    obtain ⟨ps, e, -, he, rfl⟩ := TradeThread.onOrderUpdate_cases htrades ht
    refine ⟨hstop, ?_⟩
    have hqueue := OrderManager.onOrderUpdate_sends he
    change e.outgoingOgwRequests <:+ _
    rw [hqueue]
    exact List.suffix_rfl
  | noted hm hp hmove =>
    rcases TradeThread.moveOrders_trader hmove with ⟨-, rfl⟩ | ⟨q, e, hq, -, rfl, -⟩
    · exact ⟨hstop, List.suffix_rfl⟩
    · rw [(TradeThread.wanted_near hq).1] at hstop
      cases hstop

/-- **After a stop**, whatever comes in, the thread sends nothing any more; and whenever nothing is
on its way, every slot stands as the order does that rests at the exchange, or nothing rests there,
and the position keeper counts all that was executed.  The orders that rest are not canceled: a
stop leaves them where they are, and they may still be filled. -/
theorem stopped_settles (hc : c < kMaxNumClients) (hcfg : Configured algo cfg)
    (hinit : init c algo cfg maxLoss = .ok s) (hallowed : Run.EachStep step Allowed s events)
    (hrun : events.foldlM step s = .ok s') (hstop : s'.thread.stopping = true)
    {more : List Event} (hmore : Run.EachStep step Allowed s' more) :
    Run.Always step (fun s'' =>
      s''.thread.outgoingOgwRequests <:+ s'.thread.outgoingOgwRequests ∧
      (s''.thread.outgoingOgwRequests = [] → s''.responses = [] → ∀ b, b < kMaxSymbols →
        (s''.thread.positionKeeper b).position =
          executedPosition s''.engine.outgoingClientResponses c b ∧
        ∀ d, Settled s''.system b d)) s' more := by
  have hinv : Inv c algo cfg s' := (run_inv hc hcfg hinit hallowed).of_foldlM hrun
  have hall : Run.Always step (fun s'' => Inv c algo cfg s'' ∧ s''.thread.stopping = true ∧
      s''.thread.outgoingOgwRequests <:+ s'.thread.outgoingOgwRequests) s' more := by
    refine hmore.always ?_ ⟨hinv, hstop, List.suffix_rfl⟩
    rintro s₁ e s₂ ⟨h, hstop₁, hsuffix⟩ he hstep
    obtain ⟨hstop₂, hsuffix₂⟩ := h.stopped_step hcfg hstop₁ hstep
    exact ⟨(h.step hc hcfg he hstep).1, hstop₂, hsuffix₂.trans hsuffix⟩
  refine hall.mono ?_
  rintro s'' ⟨h, -, hsuffix⟩
  refine ⟨hsuffix, fun hrequests hresponses b hb => ⟨?_, fun d => ?_⟩⟩
  · have hbooked := h.sound.limited.booked b
    have hsys : s''.system.responses = [] := hresponses
    rw [hsys] at hbooked
    exact (hbooked.trans (Int.add_zero _)).symm
  · obtain ⟨xs, hs⟩ := h.sound.synced
    exact settled_of_quiet hs hb hrequests hresponses

/-- The market maker is hit and stopped; then come the update of its own bid and the three responses
that were on their way. -/
theorem stopped_settles_quoted_and_hit : ∃ s s' s'',
    init 1 .maker makerCfg (fun _ => -1000) = .ok s ∧
    (quotedAndHit.take 7 ++ [Event.stop]).foldlM step s = .ok s' ∧ s'.responses.length = 3 ∧
    [Event.takeUpdate ownBid, .takeResponse, .takeResponse, .takeResponse].foldlM step s' =
      .ok s'' ∧
    s''.thread.outgoingOgwRequests = [] ∧ s''.responses = [] ∧
    (s''.system.trader.order 0 .buy).orderState = .live ∧
    Run.Always step (fun s'' =>
      s''.thread.outgoingOgwRequests <:+ s'.thread.outgoingOgwRequests ∧
      (s''.thread.outgoingOgwRequests = [] → s''.responses = [] → ∀ b, b < kMaxSymbols →
        (s''.thread.positionKeeper b).position =
          executedPosition s''.engine.outgoingClientResponses 1 b ∧
        ∀ d, Settled s''.system b d)) s'
      [.takeUpdate ownBid, .takeResponse, .takeResponse, .takeResponse] := by
  obtain ⟨s, hinit, hcheck⟩ : ∃ s, init 1 .maker makerCfg (fun _ => -1000) = .ok s ∧
      (decide (Run.EachStep step Allowed s (quotedAndHit.take 7 ++ [Event.stop])) &&
        returns (fun s' => decide (s'.responses.length = 3 ∧ s'.thread.stopping = true ∧
            Run.EachStep step Allowed s'
              [.takeUpdate ownBid, .takeResponse, .takeResponse, .takeResponse]) &&
          returns (fun s'' => decide (s''.thread.outgoingOgwRequests = [] ∧ s''.responses = [] ∧
            (s''.system.trader.order 0 .buy).orderState = .live))
            ([Event.takeUpdate ownBid, .takeResponse, .takeResponse, .takeResponse].foldlM step s'))
          ((quotedAndHit.take 7 ++ [Event.stop]).foldlM step s)) = true :=
    exists_of_returns (by decide +kernel)
  rw [Bool.and_eq_true] at hcheck
  obtain ⟨s', hrun, hend⟩ := exists_of_returns hcheck.2
  rw [Bool.and_eq_true] at hend
  obtain ⟨hwaiting, hstop, hmore⟩ := of_decide_eq_true hend.1
  obtain ⟨s'', hmoreRun, hquiet⟩ := exists_of_returns hend.2
  obtain ⟨hrequests, hresponses, hlive⟩ := of_decide_eq_true hquiet
  exact ⟨s, s', s'', hinit, hrun, hwaiting, hmoreRun, hrequests, hresponses, hlive,
    stopped_settles (by decide) makerCfg_configured hinit (of_decide_eq_true hcheck.1) hrun hstop
      hmore⟩

end TradingFloor

end Trading

end YQuant
