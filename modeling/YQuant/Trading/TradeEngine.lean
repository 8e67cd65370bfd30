/-
# The order slots of a trade engine

`trading/strategy/order_manager.h` and `.cpp`, with what they use of `om_order.h`,
`risk_manager.h`, `position_keeper.h`, `trade_engine_config.h` and `trade_engine.cpp`: for each
symbol one slot on each side, which `moveOrders` fills with a new order or empties by a cancel, and
which the responses of the exchange move through the states of an order.

The profits of a position are floating point numbers.  They enter a request only through the last
check before a new order, whether the loss is too large, and that is an argument here.

The states of a slot are the source's, and every `switch` of the source is a match here.  What a
response makes of an order depends on its type alone: whether it fits the state of the order is not
checked, and that it always does is shown in `TradingSystem.lean`.  `Moved` lists what `moveOrder`
can do and `candidate` finds the slot of a response as the source does, by symbol and side and then
by the order id; with these two the functions need not be unfolded again.

Order ids are drawn from one counter, and past `kMaxOrderIds` an assertion ends the process.
Quantities are 32 bits wide and positions 64; the sums that the risk check makes are far from the
bounds of either, and are computed exactly.
-/
import YQuant.Matcher.PriceBand

namespace YQuant

namespace Trading

/-! ## 1. Orders, positions and risk -/

inductive OMOrderState where
  | invalid
  | pendingNew
  | live
  | pendingCancel
  | dead
deriving DecidableEq, Repr

structure OMOrder where
  tickerId : Nat := 0
  orderId : Nat := 0
  side : Side := .buy
  price : Int := 0
  qty : Nat := 0
  orderState : OMOrderState := .invalid
deriving DecidableEq, Repr

/-- What a response makes of the order it names. -/
def OMOrder.update (o : OMOrder) (r : MatchingEngineClientResponse) : OMOrder :=
  match r.type with
  | .accepted => { o with orderState := .live }
  | .canceled => { o with orderState := .dead }
  | .filled =>
    let o := { o with qty := r.remainingQuantity }
    if o.qty = 0 then { o with orderState := .dead } else o
  | .cancelRejected => { o with orderState := .dead }
  | .invalid | .other _ => o

structure PositionInfo where
  position : Int
  volume : Nat
deriving DecidableEq, Repr

/-- The sign of a side: everything that is not `BUY` counts as a sale. -/
def sideValue (side : Side) : Int := if side = .buy then 1 else -1

/-- `PositionInfo::addFill`. -/
def PositionInfo.addFill (p : PositionInfo) (r : MatchingEngineClientResponse) : PositionInfo :=
  { position := p.position + r.executedQuantity * sideValue r.side
    volume := (p.volume + r.executedQuantity) % kWord32 }

structure RiskCfg where
  maxOrderSize : Nat
  maxPosition : Nat
deriving DecidableEq, Repr

inductive RiskCheckResult where
  | invalid
  | orderTooLarge
  | positionTooLarge
  | lossTooLarge
  | allowed
deriving DecidableEq, Repr

/-- `RiskInfo`: the limits of a symbol and its position. -/
structure RiskInfo where
  positionInfo : PositionInfo
  riskCfg : RiskCfg

/-- `RiskInfo::checkPreTradeRisk`. -/
def RiskInfo.checkPreTradeRisk (i : RiskInfo) (side : Side) (qty : Nat) (lossTooLarge : Bool) :
    RiskCheckResult :=
  if qty = 0 ∨ i.riskCfg.maxOrderSize < qty then .orderTooLarge
  else if i.riskCfg.maxPosition < (i.positionInfo.position + sideValue side * qty).natAbs then
    .positionTooLarge
  else if lossTooLarge then .lossTooLarge
  else .allowed

/-! ## 2. The engine -/

structure OrderManager where
  /-- The slots of each symbol, for `BUY` and for `SELL`. -/
  tickerSideOrder : Nat → Side → OMOrder
  nextOrderId : Nat

structure TradeEngine where
  clientId : Nat
  /-- The queue of the order gateway. -/
  outgoingOgwRequests : List MatchingEngineClientRequest
  /-- The position keeper. -/
  tickerPosition : Nat → PositionInfo
  /-- The limits the risk manager was built with. -/
  riskCfg : Nat → RiskCfg
  orderManager : OrderManager

namespace TradeEngine

def init (clientId : Nat) (riskCfg : Nat → RiskCfg) : TradeEngine :=
  ⟨clientId, [], fun _ => ⟨0, 0⟩, riskCfg, ⟨fun _ _ => {}, 1⟩⟩

/-- The order in a slot. -/
def order (t : TradeEngine) (tickerId : Nat) (side : Side) : OMOrder :=
  t.orderManager.tickerSideOrder tickerId side

def setOrder (t : TradeEngine) (tickerId : Nat) (side : Side) (order : OMOrder) : TradeEngine :=
  { t with
    orderManager := { t.orderManager with
      tickerSideOrder := Function.update t.orderManager.tickerSideOrder tickerId
        (Function.update (t.orderManager.tickerSideOrder tickerId) side order) } }

def setNextOrderId (t : TradeEngine) (n : Nat) : TradeEngine :=
  { t with orderManager := { t.orderManager with nextOrderId := n } }

def sendClientRequest (t : TradeEngine) (r : MatchingEngineClientRequest) : TradeEngine :=
  { t with outgoingOgwRequests := t.outgoingOgwRequests ++ [r] }

/-- `.at` of a table of all symbols. -/
def checkTicker (tickerId : Nat) : Except Fault Unit :=
  if tickerId < kMaxSymbols then .ok () else .error .outOfRange

/-- `RiskManager::checkPreTradeRisk`. -/
def checkPreTradeRisk (t : TradeEngine) (tickerId : Nat) (side : Side) (qty : Nat)
    (lossTooLarge : Bool) : RiskCheckResult :=
  RiskInfo.checkPreTradeRisk ⟨t.tickerPosition tickerId, t.riskCfg tickerId⟩ side qty lossTooLarge

end TradeEngine

/-! ## 3. The order manager -/

namespace OrderManager

open TradeEngine

/-- `newOrder`. -/
def newOrder (t : TradeEngine) (tickerId : Nat) (price : Int) (side : Side) (qty : Nat) :
    Except Fault TradeEngine := do
  let n := t.orderManager.nextOrderId
  assertThat (decide (n < kMaxOrderIds)) "客户端订单号超出交易所索引范围"
  let t := t.sendClientRequest ⟨.new, t.clientId, tickerId, n, side, price, qty⟩
  let t := t.setOrder tickerId side ⟨tickerId, n, side, price, qty, .pendingNew⟩
  .ok (t.setNextOrderId (n + 1))

/-- `cancelOrder`, for the order of a slot. -/
def cancelOrder (t : TradeEngine) (tickerId : Nat) (side : Side) : TradeEngine :=
  let order := t.order tickerId side
  let t := t.sendClientRequest ⟨.canceled, t.clientId, order.tickerId, order.orderId, order.side,
    order.price, order.qty⟩
  t.setOrder tickerId side { order with orderState := .pendingCancel }

/-- A price outside the band of the exchange is no quote. -/
def bandPrice (price : Option Int) : Option Int :=
  let band := kDefaultPriceBand
  match price with
  | none => none
  | some p =>
    if p < band.basePrice ∨ (p - band.basePrice).tmod band.tickSize ≠ 0 ∨
        (kTickCount : Int) ≤ band.toTick p then none
    else some p

/-- `moveOrder`, for a slot. -/
def moveOrder (t : TradeEngine) (tickerId : Nat) (price : Option Int) (side : Side) (qty : Nat)
    (lossTooLarge : Bool) : Except Fault TradeEngine :=
  let price := bandPrice price
  let order := t.order tickerId side
  match order.orderState with
  | .live =>
    if price ≠ some order.price ∨ order.qty ≠ qty then .ok (cancelOrder t tickerId side)
    else .ok t
  | .invalid | .dead =>
    match price with
    | none => .ok t
    | some p =>
      if t.checkPreTradeRisk tickerId side qty lossTooLarge = .allowed then
        newOrder t tickerId p side qty
      else .ok t
  | .pendingNew | .pendingCancel => .ok t

/-- `moveOrders`: the bid, then the ask. -/
def moveOrders (t : TradeEngine) (tickerId : Nat) (bidPrice askPrice : Option Int) (clip : Nat)
    (lossTooLarge : Bool) : Except Fault TradeEngine := do
  checkTicker tickerId
  let t ← moveOrder t tickerId bidPrice .buy clip lossTooLarge
  moveOrder t tickerId askPrice .sell clip lossTooLarge

/-- The slot of a symbol whose order a response names. -/
def candidate (t : TradeEngine) (tickerId orderId : Nat) : Option Side :=
  [Side.buy, Side.sell].find? fun side =>
    decide ((t.order tickerId side).orderState ≠ .invalid ∧
      (t.order tickerId side).orderId = orderId)

/-- `onOrderUpdate`.  A response to an order that is in no slot any more is ignored. -/
def onOrderUpdate (t : TradeEngine) (r : MatchingEngineClientResponse) : Except Fault TradeEngine :=
  if r.type = .invalid then .ok t
  else do
    checkTicker r.symbolId
    match candidate t r.symbolId r.clientOrderId with
    | none => .ok t
    | some side => .ok (t.setOrder r.symbolId side ((t.order r.symbolId side).update r))

end OrderManager

namespace TradeEngine

/-- `PositionKeeper::addFill`. -/
def addFill (t : TradeEngine) (r : MatchingEngineClientResponse) : Except Fault TradeEngine := do
  checkTicker r.symbolId
  .ok { t with
    tickerPosition := Function.update t.tickerPosition r.symbolId
      ((t.tickerPosition r.symbolId).addFill r) }

/-- `TradeEngine::onOrderUpdate`.  Either algorithm hands the response to the order manager. -/
def onOrderUpdate (t : TradeEngine) (r : MatchingEngineClientResponse) :
    Except Fault TradeEngine := do
  let t ← (if r.type = .filled then t.addFill r else .ok t)
  OrderManager.onOrderUpdate t r

end TradeEngine

/-! ## 4. What the calls do -/

namespace TradeEngine

variable {t : TradeEngine} {b b' n : Nat} {d d' : Side}

/-- A slot holds an order of this id. -/
def Placed (t : TradeEngine) (tickerId orderId : Nat) (side : Side) : Prop :=
  (t.order tickerId side).orderState ≠ .invalid ∧ (t.order tickerId side).orderId = orderId

@[simp] theorem order_setOrder_self (o : OMOrder) : (t.setOrder b d o).order b d = o := by
  simp [setOrder, order]

theorem order_setOrder_of_ne {o : OMOrder} (h : ¬ (b' = b ∧ d' = d)) :
    (t.setOrder b d o).order b' d' = t.order b' d' := by
  unfold setOrder order
  dsimp only
  rcases eq_or_ne b' b with rfl | hb
  · rw [Function.update_self, Function.update_of_ne fun hd => h ⟨rfl, hd⟩]
  · rw [Function.update_of_ne hb]

theorem order_setOrder (o : OMOrder) :
    (t.setOrder b d o).order b' d' = if b' = b ∧ d' = d then o else t.order b' d' := by
  split
  · next h =>
    obtain ⟨rfl, rfl⟩ := h
    exact order_setOrder_self o
  · next h => exact order_setOrder_of_ne h

@[simp] theorem order_setNextOrderId : (t.setNextOrderId n).order b d = t.order b d := rfl

@[simp] theorem order_sendClientRequest (r : MatchingEngineClientRequest) :
    (t.sendClientRequest r).order b d = t.order b d := rfl

theorem checkTicker_ok {u : Unit} (h : checkTicker b = .ok u) : b < kMaxSymbols := by
  unfold checkTicker at h
  split at h
  · assumption
  · cases h

/-- An order that passes the check is not empty, and its execution leaves the position within its
limit. -/
theorem checkPreTradeRisk_allowed {qty : Nat} {lossTooLarge : Bool}
    (h : t.checkPreTradeRisk b d qty lossTooLarge = .allowed) :
    0 < qty ∧ ((t.tickerPosition b).position + sideValue d * qty).natAbs ≤
      (t.riskCfg b).maxPosition := by
  unfold checkPreTradeRisk RiskInfo.checkPreTradeRisk at h
  split at h
  · cases h
  · split at h
    · cases h
    · next hsize hposition =>
      exact ⟨Nat.pos_of_ne_zero fun hz => hsize (.inl hz), Nat.not_lt.mp hposition⟩

end TradeEngine

namespace OrderManager

open TradeEngine

variable {t t' : TradeEngine} {b n : Nat} {d : Side}

theorem bandPrice_eq_some {price : Option Int} {p : Int} (h : bandPrice price = some p) :
    price = some p := by
  cases price with
  | none => cases h
  | some q =>
    unfold bandPrice at h
    dsimp only at h
    split at h
    · cases h
    · exact h

/-- The engine after a new order. -/
def entered (t : TradeEngine) (tickerId : Nat) (price : Int) (side : Side) (qty : Nat) :
    TradeEngine :=
  ((t.sendClientRequest ⟨.new, t.clientId, tickerId, t.orderManager.nextOrderId, side, price,
    qty⟩).setOrder tickerId side ⟨tickerId, t.orderManager.nextOrderId, side, price, qty,
      .pendingNew⟩).setNextOrderId (t.orderManager.nextOrderId + 1)

theorem newOrder_ok {price : Int} {qty : Nat} (h : newOrder t b price d qty = .ok t') :
    t.orderManager.nextOrderId < kMaxOrderIds ∧ t' = entered t b price d qty := by
  obtain ⟨u, hassert, hrest⟩ := bind_ok h
  cases hrest
  refine ⟨?_, rfl⟩
  by_contra hge
  rw [decide_eq_false hge] at hassert
  cases hassert

/-- **What `moveOrder` can do**: nothing, cancel a live order that is not as wanted, or fill an
empty slot with a new order that the risk check allows. -/
inductive Moved (t : TradeEngine) (tickerId : Nat) (price : Option Int) (side : Side) (qty : Nat)
    (lossTooLarge : Bool) : TradeEngine → Prop
  | kept : Moved t tickerId price side qty lossTooLarge t
  | canceled (hlive : (t.order tickerId side).orderState = .live) :
      Moved t tickerId price side qty lossTooLarge (cancelOrder t tickerId side)
  | entered {p : Int} (hempty : (t.order tickerId side).orderState = .invalid ∨
        (t.order tickerId side).orderState = .dead)
      (hprice : price = some p) (hid : t.orderManager.nextOrderId < kMaxOrderIds)
      (hallowed : t.checkPreTradeRisk tickerId side qty lossTooLarge = .allowed) :
      Moved t tickerId price side qty lossTooLarge (entered t tickerId p side qty)

theorem moveOrder_cases {price : Option Int} {qty : Nat} {lossTooLarge : Bool}
    (h : moveOrder t b price d qty lossTooLarge = .ok t') :
    Moved t b price d qty lossTooLarge t' := by
  have hfill (hempty : (t.order b d).orderState = .invalid ∨ (t.order b d).orderState = .dead)
      (h : (match bandPrice price with
        | none => .ok t
        | some p => if t.checkPreTradeRisk b d qty lossTooLarge = .allowed then newOrder t b p d qty
          else .ok t : Except Fault TradeEngine) = .ok t') :
      Moved t b price d qty lossTooLarge t' := by
    cases hp : bandPrice price with
    | none =>
      rw [hp] at h
      cases h
      exact .kept
    | some p =>
      rw [hp] at h
      dsimp only at h
      split at h
      · next hallowed =>
        obtain ⟨hid, rfl⟩ := newOrder_ok h
        exact .entered hempty (bandPrice_eq_some hp) hid hallowed
      · cases h
        exact .kept
  unfold moveOrder at h
  dsimp only at h
  cases hstate : (t.order b d).orderState with
  | live =>
    rw [hstate] at h
    dsimp only at h
    split at h
    · cases h
      exact .canceled hstate
    · cases h
      exact .kept
  | pendingNew | pendingCancel =>
    rw [hstate] at h
    cases h
    exact .kept
  | invalid =>
    rw [hstate] at h
    exact hfill (.inl hstate) h
  | dead =>
    rw [hstate] at h
    exact hfill (.inr hstate) h

/-- The slot that a lookup finds holds the order. -/
theorem candidate_some (h : candidate t b n = some d) : d.Directional ∧ t.Placed b n d := by
  have hmem := List.mem_of_find?_eq_some h
  have hplaced := List.find?_some h
  simp only [List.mem_cons, List.not_mem_nil, or_false] at hmem
  exact ⟨hmem, of_decide_eq_true (p := _ ∧ _) hplaced⟩

theorem candidate_none (h : candidate t b n = none) (hd : d.Directional) : ¬ t.Placed b n d := by
  have hmem : d ∈ [Side.buy, Side.sell] := by simpa [Side.Directional] using hd
  have hnot := List.find?_eq_none.mp h d hmem
  simpa [TradeEngine.Placed] using hnot

/-- **What a response can do**: nothing, or update the slot whose order it names. -/
theorem onOrderUpdate_cases {r : MatchingEngineClientResponse} (h : onOrderUpdate t r = .ok t') :
    (t' = t ∧ (r.type = .invalid ∨ candidate t r.symbolId r.clientOrderId = none)) ∨
      ∃ d, candidate t r.symbolId r.clientOrderId = some d ∧
        t' = t.setOrder r.symbolId d ((t.order r.symbolId d).update r) := by
  unfold onOrderUpdate at h
  split at h
  · next htype =>
    cases h
    exact .inl ⟨rfl, .inl htype⟩
  · obtain ⟨u, -, hrest⟩ := bind_ok h
    cases hc : candidate t r.symbolId r.clientOrderId with
    | none =>
      rw [hc] at hrest
      cases hrest
      exact .inl ⟨rfl, .inr rfl⟩
    | some d =>
      rw [hc] at hrest
      cases hrest
      exact .inr ⟨d, rfl, rfl⟩

end OrderManager

end Trading

end YQuant
