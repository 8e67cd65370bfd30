/-
# The position limit

The check before a new order looks at the fills the engine has heard of and at that one order.  It
bounds what the exchange has executed all the same, because a slot never holds more than one order
(`TradingSystem.Synced`) and what its order may still execute was checked when the slot was filled.

`exposure` is what a slot may still add to the position.  The engine's position and the exposure of
each side stay within the limit (`Limited`), every fill in flight draws on the exposure of the slot
it was made for, and so the position at the exchange stays within it too.

The worst case is that all orders of one side are executed in full and none of the other.  That
this stays within the limit is what the check before a new order asks, for the one order that the
slot would then hold; fills only move quantity from the exposure to the position, and a cancel that
succeeds gives back what it takes off the exposure.

So the bound holds for the position the exchange has, at every moment, and not only when the engine
has heard of everything.  Orders in both slots of a symbol do not add up, since they are on
different sides.
-/
import YQuant.Trading.TradingSystem

namespace YQuant

namespace Trading

open OrderSession (atRisk executed)

/-! ## 1. What has been executed -/

/-- The quantity that fills have executed for a client on one side of a symbol. -/
def executedOn (rs : List MatchingEngineClientResponse) (clientId symbolId : Nat) (side : Side) :
    Nat :=
  ((rs.filter fun r => r.type = .filled ∧ r.clientId = clientId ∧ r.symbolId = symbolId ∧
    r.side = side).map MatchingEngineClientResponse.executedQuantity).sum

/-- The position that fills have built: executed buys minus executed sells. -/
def executedPosition (rs : List MatchingEngineClientResponse) (clientId symbolId : Nat) : Int :=
  executedOn rs clientId symbolId .buy - executedOn rs clientId symbolId .sell

section ExecutedOn

variable {rs rs' : List MatchingEngineClientResponse} {x : MatchingEngineClientResponse} {c b : Nat}
  {d : Side}

theorem executedOn_append : executedOn (rs ++ rs') c b d = executedOn rs c b d +
    executedOn rs' c b d := by
  simp only [executedOn, List.filter_append, List.map_append, List.sum_append]

theorem executedOn_cons : executedOn (x :: rs) c b d = executedOn [x] c b d +
    executedOn rs c b d :=
  @executedOn_append [x] _ _ _ _

/-- What is sent to other clients does not count. -/
theorem executedOn_filter :
    executedOn (rs.filter fun r => r.clientId = c) c b d = executedOn rs c b d := by
  unfold executedOn
  rw [List.filter_filter]
  congr 2
  refine List.filter_congr fun r _ => ?_
  rw [← Bool.decide_and]
  exact decide_eq_decide.mpr (and_iff_left_of_imp fun h => h.2.1)

theorem executedOn_single_of_ne (h : ¬ (x.type = .filled ∧ b = x.symbolId ∧ d = x.side)) :
    executedOn [x] c b d = 0 := by
  unfold executedOn
  rw [List.filter_cons_of_neg]
  · rfl
  · intro hx
    obtain ⟨htype, -, hsymbol, hside⟩ := of_decide_eq_true hx
    exact h ⟨htype, hsymbol.symm, hside.symm⟩

theorem executedOn_single (htype : x.type = .filled) (hclient : x.clientId = c) :
    executedOn [x] c x.symbolId x.side = x.executedQuantity := by
  simp [executedOn, htype, hclient]

theorem executedPosition_append : executedPosition (rs ++ rs') c b = executedPosition rs c b +
    executedPosition rs' c b := by
  simp only [executedPosition, executedOn_append]
  omega

theorem executedPosition_cons : executedPosition (x :: rs) c b = executedPosition [x] c b +
    executedPosition rs c b :=
  @executedPosition_append [x] _ _ _

/-- A fill changes a position as the position keeper books it. -/
theorem executedPosition_fill (htype : x.type = .filled) (hclient : x.clientId = c)
    (hd : x.side.Directional) :
    executedPosition [x] c x.symbolId = x.executedQuantity * sideValue x.side := by
  unfold executedPosition sideValue
  have hself := executedOn_single htype hclient
  rcases hd with hd | hd <;> rw [hd] at hself ⊢ <;> rw [hself]
  · rw [executedOn_single_of_ne (d := .sell) fun h => by simp [hd] at h]
    simp
  · rw [executedOn_single_of_ne (d := .buy) fun h => by simp [hd] at h]
    simp

theorem executedPosition_of_ne (h : ¬ (x.type = .filled ∧ b = x.symbolId)) :
    executedPosition [x] c b = 0 := by
  unfold executedPosition
  rw [executedOn_single_of_ne fun hx => h ⟨hx.1, hx.2.1⟩,
    executedOn_single_of_ne fun hx => h ⟨hx.1, hx.2.1⟩]
  rfl

end ExecutedOn

/-! ## 2. What a slot may still execute -/

/-- What the order of a slot may still add to the position on its side. -/
def TradeEngine.exposure (t : TradeEngine) (symbolId : Nat) (side : Side) : Nat :=
  atRisk (t.order symbolId side).orderState.phase (t.order symbolId side).qty

namespace TradeEngine

variable {t t' : TradeEngine} {c b b' qty : Nat} {d d' : Side} {p : Int} {xs : IndexedBooks}
  {x : MatchingEngineClientResponse} {responses : List MatchingEngineClientResponse}

theorem exposure_cancelOrder (hlive : (t.order b d).orderState = .live) :
    (OrderManager.cancelOrder t b d).exposure b' d' = t.exposure b' d' := by
  unfold exposure
  rw [order_cancelOrder]
  split
  · next h =>
    obtain ⟨rfl, rfl⟩ := h
    rw [hlive]
    rfl
  · rfl

theorem exposure_entered : (OrderManager.entered t b p d qty).exposure b' d' =
    if b' = b ∧ d' = d then qty else t.exposure b' d' := by
  unfold exposure
  rw [order_entered]
  split <;> rfl

/-- An order that has executed leaves less to execute. -/
theorem exposure_hear (h : Linked c t (x :: responses) xs) (ht : Inv c t)
    (hupdate : OrderManager.onOrderUpdate t x = .ok t') (b : Nat) (d : Side) :
    executedOn [x] c b d + t'.exposure b d ≤ t.exposure b d := by
  obtain ⟨hclient, hplaced⟩ := h.filled x List.mem_cons_self
  rcases OrderManager.onOrderUpdate_cases hupdate with ⟨rfl, hnone⟩ | ⟨d', hfind, rfl⟩
  · -- a fill always finds its slot
    rw [executedOn_single_of_ne, Nat.zero_add]
    rintro ⟨htype, -, -⟩
    have hvalid : x.type ≠ .invalid := by
      rw [htype]
      decide
    exact (Linked.candidate_none_iff ht).mp (hnone.resolve_left hvalid) _ (hplaced htype)
  · obtain ⟨-, hslot⟩ := OrderManager.candidate_some hfind
    have hside (htype : x.type = .filled) : x.side = d' :=
      ht.distinct _ _ _ _ (hplaced htype) hslot
    unfold exposure
    rw [order_setOrder]
    split
    · next heq =>
      obtain ⟨rfl, rfl⟩ := heq
      have hsession := h.placed _ _ _ hslot
      unfold InSession at hsession
      cases htell : x.tell? with
      | none =>
        have htype : x.type ≠ .filled := by
          intro htype
          rw [MatchingEngineClientResponse.tell?, htype] at htell
          cases htell
        rw [OMOrder.update_of_tell?_none _ htell, executedOn_single_of_ne fun hx => htype hx.1,
          Nat.zero_add]
      | some tell =>
        rw [tellsOf_cons_of_pos ⟨rfl, hclient, rfl⟩ htell] at hsession
        have hrisk := hsession.atRisk_hear
        rw [OMOrder.update_hear _ htell] at hrisk
        refine le_trans (Nat.add_le_add_right ?_ _) hrisk
        by_cases htype : x.type = .filled
        · have hself := executedOn_single htype hclient
          rw [hside htype] at hself
          rw [MatchingEngineClientResponse.tell?, htype] at htell
          cases htell
          exact hself.le
        · rw [executedOn_single_of_ne fun hx => htype hx.1]
          exact Nat.zero_le _
    · next hne =>
      rw [executedOn_single_of_ne, Nat.zero_add]
      rintro ⟨htype, hb, hd⟩
      exact hne ⟨hb, hd.trans (hside htype)⟩

/-- **A fill in flight draws on the exposure of its slot.** -/
theorem executedOn_le_exposure (h : Linked c t responses xs) :
    executedOn responses c b d ≤ t.exposure b d := by
  by_cases hstate : (t.order b d).orderState = .invalid
  · have hnone : responses.filter (fun r => r.type = .filled ∧ r.clientId = c ∧ r.symbolId = b ∧
        r.side = d) = [] := by
      refine List.filter_eq_nil_iff.mpr fun r hr hfilled => ?_
      obtain ⟨htype, -, rfl, rfl⟩ := of_decide_eq_true hfilled
      exact ((h.filled r hr).2 htype).1 hstate
    rw [executedOn, hnone]
    exact Nat.zero_le _
  · have hsession := h.placed b _ d ⟨hstate, rfl⟩
    refine le_trans ?_ hsession.executed_le
    clear hsession
    have hslot := h.filled
    clear h
    induction responses with
    | nil => exact Nat.zero_le _
    | cons r rs ih =>
      have hrest := ih fun r' hr' => hslot r' (List.mem_cons_of_mem r hr')
      obtain ⟨hclient, hplaced⟩ := hslot r List.mem_cons_self
      have happ : tellsOf (r :: rs) b c (t.order b d).orderId =
          tellsOf [r] b c (t.order b d).orderId ++ tellsOf rs b c (t.order b d).orderId :=
        @tellsOf_append [r] rs b c _
      rw [executedOn_cons, happ, OrderSession.executed_append]
      refine Nat.add_le_add ?_ hrest
      by_cases hfilled : r.type = .filled ∧ b = r.symbolId ∧ d = r.side
      · obtain ⟨htype, rfl, rfl⟩ := hfilled
        have hid := (hplaced htype).2
        rw [executedOn_single htype hclient, tellsOf_cons_of_pos ⟨rfl, hclient, hid.symm⟩
          (by rw [MatchingEngineClientResponse.tell?, htype])]
        exact Nat.le_refl _
      · rw [executedOn_single_of_ne hfilled]
        exact Nat.zero_le _

end TradeEngine

/-! ## 3. The limit -/

namespace TradingSystem

/-- **Within the limit**: the engine books every fill it hears of, and its position would stay
within the limit if the orders of either side were executed in full. -/
structure Limited (c : Nat) (riskCfg : Nat → RiskCfg) (s : TradingSystem) : Prop where
  cfg : s.trader.riskCfg = riskCfg
  booked : ∀ b, executedPosition s.engine.outgoingClientResponses c b =
    (s.trader.tickerPosition b).position + executedPosition s.responses c b
  long : ∀ b, (s.trader.tickerPosition b).position + s.trader.exposure b .buy ≤
    (riskCfg b).maxPosition
  short : ∀ b, -((riskCfg b).maxPosition : Int) ≤
    (s.trader.tickerPosition b).position - s.trader.exposure b .sell

variable {c b qty : Nat} {d : Side} {s s' : TradingSystem} {xs : IndexedBooks}
  {riskCfg : Nat → RiskCfg}

/-- One slot is moved. -/
theorem Limited.moveOrder {price : Option Int} {lossTooLarge : Bool} {t : TradeEngine}
    (h : Limited c riskCfg s) (hd : d.Directional)
    (hmove : OrderManager.moveOrder s.trader b price d qty lossTooLarge = .ok t) :
    Limited c riskCfg { s with trader := t } := by
  cases OrderManager.moveOrder_cases hmove with
  | kept => exact h
  | canceled hlive =>
    refine ⟨h.cfg, h.booked, fun b' => ?_, fun b' => ?_⟩ <;> dsimp only
    · rw [TradeEngine.exposure_cancelOrder hlive]
      exact h.long b'
    · rw [TradeEngine.exposure_cancelOrder hlive]
      exact h.short b'
  | @entered p hempty hp hid hallowed =>
    obtain ⟨-, hlimit⟩ := TradeEngine.checkPreTradeRisk_allowed hallowed
    rw [h.cfg] at hlimit
    have hposition : (OrderManager.entered s.trader b p d qty).tickerPosition =
        s.trader.tickerPosition := rfl
    refine ⟨h.cfg, h.booked, fun b' => ?_, fun b' => ?_⟩ <;> dsimp only <;>
      rw [TradeEngine.exposure_entered, hposition]
    · split
      · next heq =>
        obtain ⟨rfl, rfl⟩ := heq
        have hbuy : sideValue .buy = 1 := rfl
        rw [hbuy, one_mul] at hlimit
        omega
      · exact h.long b'
    · split
      · next heq =>
        obtain ⟨rfl, rfl⟩ := heq
        have hsell : sideValue .sell = -1 := rfl
        rw [hsell, neg_one_mul] at hlimit
        omega
      · exact h.short b'

/-- What the exchange executes is on its way to the engine. -/
theorem Limited.process {t : TradeEngine} {engine : MatchingEngine}
    {rs : List MatchingEngineClientResponse} {us : List MatchingEngineMarketUpdate}
    (h : Limited c riskCfg s) (hemits : MatchingEngine.Emits s.engine engine rs us)
    (hcfg : t.riskCfg = s.trader.riskCfg) (hposition : t.tickerPosition = s.trader.tickerPosition)
    (hslots : t.orderManager = s.trader.orderManager) :
    Limited c riskCfg ⟨engine, t, s.responses ++ rs.filter fun x => x.clientId = c⟩ where
  cfg := hcfg.trans h.cfg
  booked b := by
    dsimp only
    rw [hemits.responses, executedPosition_append, h.booked b, executedPosition_append, hposition]
    simp only [executedPosition, executedOn_filter]
    omega
  long b := by
    have hexposure : t.exposure b .buy = s.trader.exposure b .buy := by
      simp only [TradeEngine.exposure, TradeEngine.order, hslots]
    dsimp only
    rw [hposition, hexposure]
    exact h.long b
  short b := by
    have hexposure : t.exposure b .sell = s.trader.exposure b .sell := by
      simp only [TradeEngine.exposure, TradeEngine.order, hslots]
    dsimp only
    rw [hposition, hexposure]
    exact h.short b

theorem positionsAfter_position (h : Synced c s xs) {x : MatchingEngineClientResponse}
    (hx : x ∈ s.responses) (b : Nat) : (positionsAfter s.trader x b).position =
      (s.trader.tickerPosition b).position + executedPosition [x] c b := by
  obtain ⟨hclient, hplaced⟩ := h.linked.filled x hx
  unfold positionsAfter
  split
  · next htype =>
    have hd := (h.trader.slots _ _ (hplaced htype).1).1
    rcases eq_or_ne b x.symbolId with rfl | hne
    · rw [Function.update_self, executedPosition_fill htype hclient hd]
      rfl
    · rw [Function.update_of_ne hne, executedPosition_of_ne fun hx => hne hx.2, Int.add_zero]
  · next htype => rw [executedPosition_of_ne fun hx => htype hx.1, Int.add_zero]

/-- The engine hears a response. -/
theorem Limited.hear {x : MatchingEngineClientResponse} {rest : List MatchingEngineClientResponse}
    {t : TradeEngine} (h : Limited c riskCfg s) (hs : Synced c s xs)
    (hqueue : s.responses = x :: rest)
    (hupdate : OrderManager.onOrderUpdate { s.trader with
      tickerPosition := positionsAfter s.trader x } x = .ok t) :
    Limited c riskCfg ⟨s.engine, t, rest⟩ := by
  have hx : x ∈ s.responses := hqueue ▸ List.mem_cons_self
  have hs' := hs.withPositions (positionsAfter s.trader x)
  have hlinked := hs'.linked
  dsimp only at hlinked
  rw [hqueue] at hlinked
  have hexposure := TradeEngine.exposure_hear hlinked hs'.trader hupdate
  have hframe : t.riskCfg = s.trader.riskCfg ∧
      t.tickerPosition = positionsAfter s.trader x := by
    rcases OrderManager.onOrderUpdate_cases hupdate with ⟨rfl, -⟩ | ⟨d, -, rfl⟩
    · exact ⟨rfl, rfl⟩
    · exact ⟨rfl, rfl⟩
  have hposition : ∀ b, (t.tickerPosition b).position =
      (s.trader.tickerPosition b).position + executedPosition [x] c b := by
    intro b
    rw [hframe.2]
    exact positionsAfter_position hs hx b
  have hold : ∀ b d, TradeEngine.exposure { s.trader with
      tickerPosition := positionsAfter s.trader x } b d = s.trader.exposure b d := fun _ _ => rfl
  refine ⟨hframe.1.trans h.cfg, fun b => ?_, fun b => ?_, fun b => ?_⟩ <;> dsimp only
  · rw [hposition, h.booked b, hqueue, executedPosition_cons]
    omega
  · have hlong := h.long b
    have hbuy := hexposure b .buy
    rw [hold] at hbuy
    rw [hposition, executedPosition]
    omega
  · have hshort := h.short b
    have hsell := hexposure b .sell
    rw [hold] at hsell
    rw [hposition, executedPosition]
    omega

/-- **Every step stays within the limit.** -/
theorem Limited.next {e : Event} {xs' : IndexedBooks} (h : Limited c riskCfg s) (hs : Synced c s xs)
    (hout : Outcome s xs e s' xs') : Limited c riskCfg s' := by
  cases hout with
  | idle => exact h
  | moved _ hbid hask =>
    have h₁ := h.moveOrder (.inl rfl) hbid
    exact h₁.moveOrder (.inr rfl) hask
  | taken _ _ hemits =>
    rw [hs.trader.client]
    exact h.process hemits rfl rfl rfl
  | other _ _ _ hemits =>
    rw [hs.trader.client]
    exact h.process hemits rfl rfl rfl
  | heard hqueue hupdate => exact h.hear hs hqueue hupdate

/-- The position at the exchange, with the fills that are still on their way. -/
theorem Limited.position_le (h : Limited c riskCfg s) (hs : Synced c s xs) (b : Nat) :
    (executedPosition s.engine.outgoingClientResponses c b).natAbs ≤ (riskCfg b).maxPosition := by
  have hbuy : executedOn s.responses c b .buy ≤ s.trader.exposure b .buy :=
    TradeEngine.executedOn_le_exposure hs.linked
  have hsell : executedOn s.responses c b .sell ≤ s.trader.exposure b .sell :=
    TradeEngine.executedOn_le_exposure hs.linked
  have hlong := h.long b
  have hshort := h.short b
  rw [h.booked b, executedPosition]
  omega

theorem init_limited (hinit : init c riskCfg = .ok s) : Limited c riskCfg s := by
  obtain ⟨-, hnone, htrader, hresponses⟩ := init_synced hinit
  refine ⟨?_, fun b => ?_, fun b => ?_, fun b => ?_⟩
  · rw [htrader]
    rfl
  · rw [hnone, htrader, hresponses]
    rfl
  · rw [htrader]
    exact Int.natCast_nonneg _
  · rw [htrader]
    exact Int.neg_nonpos_of_nonneg (Int.natCast_nonneg _)

/-- **The position limit holds at the exchange**, in every state that is reached, fills included
that the engine has not heard of.  The check before a new order does not know these; it is enough
because every one of them draws on the exposure of the slot it was made for, and a slot holds one
order at a time (`Limited`).  Orders are taken to be the engine's own: nobody else sends under its
client id. -/
theorem position_limit (hc : c < kMaxNumClients) (hinit : init c riskCfg = .ok s)
    {events : List Event} (hallowed : Run.EachStep TradingSystem.step Allowed s events) :
    Run.Always TradingSystem.step (fun s => ∀ b < kMaxSymbols,
      (executedPosition s.engine.outgoingClientResponses c b).natAbs ≤ (riskCfg b).maxPosition)
      s events := by
  have hinv : Run.Always TradingSystem.step
      (fun s => ∃ xs, Synced c s xs ∧ Limited c riskCfg s) s events := by
    refine hallowed.always ?_ ⟨_, (init_synced hinit).1, init_limited hinit⟩
    rintro s e s' ⟨xs, hs, h⟩ he hstep
    obtain ⟨xs', hout⟩ := hs.outcome he hstep
    exact ⟨xs', hs.next hc he hout, h.next hs hout⟩
  refine hinv.mono ?_
  rintro s ⟨xs, hs, h⟩ b -
  exact h.position_le hs b

/-- A bid that is filled up to the limit while its cancel is on its way, and the fill not heard of.
-/
def filledInFull : List Event :=
  [.moveOrders 0 (some 0) (some 5) 10 false, .takeRequest, .takeRequest, .takeResponse,
    .moveOrders 0 none (some 5) 10 false, .otherRequest ⟨.new, 2, 0, 1, .sell, 0, 10⟩]

theorem position_limit_filled_in_full : ∃ s s', init 1 (fun _ => ⟨100, 10⟩) = .ok s ∧
    filledInFull.foldlM TradingSystem.step s = .ok s' ∧
    executedPosition s'.engine.outgoingClientResponses 1 0 = 10 ∧
    (s'.trader.tickerPosition 0).position = 0 ∧
    ∀ b < kMaxSymbols, (executedPosition s'.engine.outgoingClientResponses 1 b).natAbs ≤ 10 := by
  obtain ⟨s, hinit, hcheck⟩ : ∃ s, init 1 (fun _ => ⟨100, 10⟩) = .ok s ∧
      (decide (Run.EachStep TradingSystem.step Allowed s filledInFull) &&
        returns (fun s' => decide (executedPosition s'.engine.outgoingClientResponses 1 0 = 10 ∧
          (s'.trader.tickerPosition 0).position = 0))
          (filledInFull.foldlM TradingSystem.step s)) = true :=
    exists_of_returns (by decide +kernel)
  rw [Bool.and_eq_true] at hcheck
  obtain ⟨s', hrun, hposition⟩ := exists_of_returns hcheck.2
  obtain ⟨hexecuted, hheard⟩ := of_decide_eq_true hposition
  have hall := position_limit (by decide) hinit (of_decide_eq_true hcheck.1)
  exact ⟨s, s', hinit, hrun, hexecuted, hheard, hall.of_foldlM hrun⟩

end TradingSystem

end Trading

end YQuant
