/-
# The order book of one symbol

`exchange/matcher/book_core.h` and `book_core.cc`: two sides of price levels over one pool of
order nodes, and a two-level table from (client id, client order id) to the node of a resting
order.  `add` and `cancel` are the two calls the matching engine makes.

The two output queues are the lists of the messages written to them so far.  The nested loops of
`Match` get a bound, the taker's quantity at their start, that they never use up: every pass
trades at least one unit.  A loop that did would end in `Fault.diverged`.

The tables are arrays in the source and functions here, and a client's table of ids comes into
being with its first resting order, as there.  `Add` and `Cancel` check nothing of what their
documentation asks of a caller; what they do with arguments outside it is in the model as far as it
is defined, and a fault where it is not.

The order in which things happen inside a call is kept, since messages are emitted in between: the
acceptance first, then for each trade the two fills, the trade and what becomes of the maker, and
last the remainder.
-/
import YQuant.Matcher.PriceLevels

namespace YQuant

/-- `TakerOrder`: the incoming order while it is matched. -/
structure TakerOrder where
  clientId : Nat
  clientOrderId : Nat
  marketOrderId : Nat
  side : Side
  limitTick : Int
  quantity : Nat

/-- `BookCore`. -/
structure BookCore where
  symbolId : Nat
  band : PriceBand
  outgoingClientResponses : List MatchingEngineClientResponse
  outgoingMarketUpdates : List MatchingEngineMarketUpdate
  orderPool : MemPool OrderNode
  bids : PriceLevels
  asks : PriceLevels
  orders : Nat → Option (Nat → Option Nat)
  nextMarketOrderId : Nat

/-- A call of `BookCore::Add` or `BookCore::Cancel`. -/
inductive BookCall where
  | add (clientId clientOrderId : Nat) (side : Side) (price : Int) (quantity : Nat)
  | cancel (clientId clientOrderId : Nat)
deriving DecidableEq, Repr

namespace BookCore

/-! ## 1. Construction and access to the sides -/

/-- The book the constructor builds once it has checked the band. -/
def empty (symbolId : Nat) (band : PriceBand) : BookCore where
  symbolId := symbolId
  band := band
  outgoingClientResponses := []
  outgoingMarketUpdates := []
  orderPool := MemPool.init kMaxOrderIds
  bids := PriceLevels.init .buy
  asks := PriceLevels.init .sell
  orders := fun _ => none
  nextMarketOrderId := 1

/-- The constructor. -/
def init (symbolId : Nat) (band : PriceBand) : Except Fault BookCore := do
  assertThat band.isValid "Price band must be positive and representable"
  .ok (empty symbolId band)

/-- `Levels`. -/
def levels (b : BookCore) (side : Side) : PriceLevels := if side = .buy then b.bids else b.asks

/-- `OppositeLevels`. -/
def oppositeLevels (b : BookCore) (side : Side) : PriceLevels := b.levels side.opposite

/-- Write back a side and the node pool after an operation on that side. -/
def setSide (b : BookCore) (side : Side) (s : PriceLevels) (pool : MemPool OrderNode) :
    BookCore :=
  if side = .buy then { b with bids := s, orderPool := pool }
  else { b with asks := s, orderPool := pool }

/-- `SendClientResponse`. -/
def sendClientResponse (b : BookCore) (r : MatchingEngineClientResponse) : BookCore :=
  { b with outgoingClientResponses := b.outgoingClientResponses ++ [r] }

/-- `SendMarketUpdate`. -/
def sendMarketUpdate (b : BookCore) (u : MatchingEngineMarketUpdate) : BookCore :=
  { b with outgoingMarketUpdates := b.outgoingMarketUpdates ++ [u] }

/-! ## 2. The order id index -/

/-- `FindOrder`. -/
def findOrder (b : BookCore) (clientId clientOrderId : Nat) : Except Fault (Option Nat) :=
  if clientId < kMaxNumClients then
    match b.orders clientId with
    | none => .ok none
    | some table =>
      if clientOrderId < kMaxOrderIds then .ok (table clientOrderId) else .error .outOfBounds
  else .error .outOfBounds

/-- `IndexOrder`: the client's table is allocated at its first resting order. -/
def indexOrder (b : BookCore) (clientId clientOrderId order : Nat) : Except Fault BookCore :=
  if clientId < kMaxNumClients then
    let table := (b.orders clientId).getD (fun _ => none)
    if clientOrderId < kMaxOrderIds then
      .ok { b with
        orders := Function.update b.orders clientId
          (some (Function.update table clientOrderId (some order))) }
    else .error .outOfBounds
  else .error .outOfBounds

/-- `UnindexOrder`: the entry is cleared whatever it points to. -/
def unindexOrder (b : BookCore) (clientId clientOrderId : Nat) : Except Fault BookCore :=
  if clientId < kMaxNumClients then
    match b.orders clientId with
    | none => .ok b
    | some table =>
      if clientOrderId < kMaxOrderIds then
        .ok { b with
          orders := Function.update b.orders clientId
            (some (Function.update table clientOrderId none)) }
      else .error .outOfBounds
  else .error .outOfBounds

/-! ## 3. Matching -/

/-- The end of one trade: an exhausted maker is announced as cancelled and leaves the index and
the book, any other maker is announced with what is left of it.  `node` is the maker after the
fill. -/
def settleMaker (b : BookCore) (takerSide : Side) (executionPrice : Int) (maker : Nat)
    (node : OrderNode) : Except Fault BookCore :=
  let makerSide := (b.oppositeLevels takerSide).side
  if node.remainingQuantity = 0 then do
    let b := b.sendMarketUpdate ⟨.cancel, b.symbolId, node.marketOrderId, makerSide,
      executionPrice, 0, 0⟩
    let b ← b.unindexOrder node.clientId node.clientOrderId
    let (s, pool) ← (b.oppositeLevels takerSide).removeOrder b.orderPool (some maker)
    .ok (b.setSide takerSide.opposite s pool)
  else
    .ok (b.sendMarketUpdate ⟨.modify, b.symbolId, node.marketOrderId, makerSide,
      executionPrice, node.remainingQuantity, node.priority⟩)

/-- One trade: the body of the inner loop of `Match` for the head `maker` of the level. -/
def trade (b : BookCore) (taker : TakerOrder) (executionPrice : Int) (maker : Nat) :
    Except Fault (BookCore × TakerOrder) := do
  let makerSide := (b.oppositeLevels taker.side).side
  let node ← b.orderPool.deref (some maker)
  let executedQuantity := min taker.quantity node.remainingQuantity
  let taker := { taker with quantity := taker.quantity - executedQuantity }
  let (s, pool) ←
    (b.oppositeLevels taker.side).applyFill b.orderPool (some maker) executedQuantity
  let b := b.setSide taker.side.opposite s pool
  let b := b.sendClientResponse ⟨.filled, taker.clientId, b.symbolId, taker.clientOrderId,
    taker.marketOrderId, taker.side, executionPrice, executedQuantity, taker.quantity⟩
  let node ← b.orderPool.deref (some maker)
  let b := b.sendClientResponse ⟨.filled, node.clientId, b.symbolId, node.clientOrderId,
    node.marketOrderId, makerSide, executionPrice, executedQuantity, node.remainingQuantity⟩
  let b := b.sendMarketUpdate ⟨.trade, b.symbolId, node.marketOrderId, makerSide,
    executionPrice, executedQuantity, 0⟩
  let b ← b.settleMaker taker.side executionPrice maker node
  .ok (b, taker)

/-- The inner loop of `Match`: the queue of one level. -/
def matchLevel (makerTick : Int) (executionPrice : Int) :
    Nat → BookCore → TakerOrder → Except Fault (BookCore × TakerOrder)
  | 0, _, _ => .error .diverged
  | fuel + 1, b, taker =>
    if taker.quantity > 0 then
      match ((b.oppositeLevels taker.side).levelAt makerTick).firstOrder with
      | none => .ok (b, taker)
      | some maker => do
        let (b, taker) ← b.trade taker executionPrice maker
        matchLevel makerTick executionPrice fuel b taker
    else .ok (b, taker)

/-- Whether the taker's limit reaches a maker tick. -/
def crosses (taker : TakerOrder) (makerTick : Int) : Bool :=
  if taker.side = .buy then decide (makerTick ≤ taker.limitTick)
  else decide (makerTick ≥ taker.limitTick)

/-- The outer loop of `Match`: the levels of the opposite side, best first. -/
def matchLoop : Nat → BookCore → TakerOrder → Except Fault (BookCore × TakerOrder)
  | 0, _, _ => .error .diverged
  | fuel + 1, b, taker =>
    if taker.quantity > 0 then
      let makerTick := (b.oppositeLevels taker.side).bestTick
      if makerTick = kInvalidTick then .ok (b, taker)
      else if crosses taker makerTick then do
        let (b, taker) ←
          matchLevel makerTick (b.band.toPrice makerTick) (taker.quantity + 1) b taker
        matchLoop fuel b taker
      else .ok (b, taker)
    else .ok (b, taker)

/-- `Match`. -/
def matchTaker (b : BookCore) (taker : TakerOrder) : Except Fault (BookCore × Nat) := do
  let (b, taker) ← matchLoop (taker.quantity + 1) b taker
  .ok (b, taker.quantity)

/-! ## 4. The two calls -/

/-- The tail of `Add`: the remainder of the order joins the book and becomes visible. -/
def rest (b : BookCore) (taker : TakerOrder) (price : Int) (remainingQuantity : Nat) :
    Except Fault BookCore := do
  if remainingQuantity > 0 then
    let (order, s, pool) ← (b.levels taker.side).addOrder b.orderPool taker.limitTick
      taker.clientId taker.clientOrderId taker.marketOrderId remainingQuantity
    let b := b.setSide taker.side s pool
    let b ← b.indexOrder taker.clientId taker.clientOrderId order
    let node ← b.orderPool.deref (some order)
    .ok (b.sendMarketUpdate ⟨.add, b.symbolId, taker.marketOrderId, taker.side, price,
      remainingQuantity, node.priority⟩)
  else .ok b

/-- `Add`. -/
def add (b : BookCore) (clientId clientOrderId : Nat) (side : Side) (price : Int)
    (quantity : Nat) : Except Fault BookCore := do
  let limitTick := b.band.toTick price
  let marketOrderId := b.nextMarketOrderId
  let b := { b with nextMarketOrderId := add64 b.nextMarketOrderId 1 }
  let b := b.sendClientResponse ⟨.accepted, clientId, b.symbolId, clientOrderId,
    marketOrderId, side, price, 0, quantity⟩
  let taker : TakerOrder := ⟨clientId, clientOrderId, marketOrderId, side, limitTick, quantity⟩
  let (b, remainingQuantity) ← b.matchTaker taker
  b.rest taker price remainingQuantity

/-- `Cancel`.  The side is the one whose level array holds the node's level, the price follows
from the position in that array. -/
def cancel (b : BookCore) (clientId clientOrderId : Nat) : Except Fault BookCore := do
  let order ← b.findOrder clientId clientOrderId
  match order with
  | none =>
    .ok (b.sendClientResponse ⟨.cancelRejected, clientId, b.symbolId, clientOrderId, 0, .unset,
      0, 0, 0⟩)
  | some a =>
    let node ← b.orderPool.deref order
    match node.level with
    | none => .error .nullPointer
    | some level =>
      let side : Side := if b.bids.owns level then .buy else .sell
      let price := b.band.toPrice ((b.levels side).indexOf level)
      let b := b.sendClientResponse ⟨.canceled, clientId, b.symbolId, clientOrderId,
        node.marketOrderId, side, price, 0, node.remainingQuantity⟩
      let b := b.sendMarketUpdate ⟨.cancel, b.symbolId, node.marketOrderId, side, price, 0, 0⟩
      let b ← b.unindexOrder clientId clientOrderId
      let (s, pool) ← (b.levels side).removeOrder b.orderPool (some a)
      .ok (b.setSide side s pool)

/-- One call. -/
def apply (b : BookCore) : BookCall → Except Fault BookCore
  | .add clientId clientOrderId side price quantity =>
    b.add clientId clientOrderId side price quantity
  | .cancel clientId clientOrderId => b.cancel clientId clientOrderId

/-- A book is built and receives a sequence of calls. -/
def run (symbolId : Nat) (band : PriceBand) (calls : List BookCall) : Except Fault BookCore := do
  let b ← init symbolId band
  calls.foldlM apply b

end BookCore

end YQuant
