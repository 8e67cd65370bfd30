/-
# The client's order book

`trading/strategy/market_order.h` and `market_order_book.h`: the trading client rebuilds the
exchange's book of a symbol from its market updates.  Orders of a price form a circular list in
queue order, price levels of a side form a circular list from best to worst, and two tables find
an order by its id and a level by its price.

The level table is shared by both sides and is indexed by the price modulo its size; a lookup
checks neither the price nor the side of what it finds.

Pointers are slots of the two pools.  The loops of the source end when a circular list is back at
its head; they are bounded here by the size of the pool they walk through, and a loop that is
still running then is the fault `diverged`.  Callbacks into the trade engine, logging and the
ticker id that is only logged are left out.

Every access through a pointer is checked here, and a null or dangling one is a fault; every table
access with `.at` is checked as there.  The functions follow the source's assignments one by one,
since some read links that others have just written.  A clear walks through the tables and the
lists and gives every slot back.
-/
import YQuant.PoolLinks

namespace YQuant

/-! ## 1. Orders, levels and the book -/

structure MarketOrder where
  orderId : Nat
  side : Side
  price : Int
  qty : Nat
  priority : Nat
  prevOrder : Option Nat
  nextOrder : Option Nat
deriving DecidableEq, Repr

structure MarketOrdersAtPrice where
  side : Side
  price : Int
  firstMktOrder : Option Nat
  prevEntry : Option Nat
  nextEntry : Option Nat
deriving DecidableEq, Repr

/-- Best bid and offer.  A quantity of zero says that the side is empty. -/
structure BBO where
  bidPrice : Int
  askPrice : Int
  bidQty : Nat
  askQty : Nat
deriving DecidableEq, Repr

/-- The queue links of an order. -/
def orderLinks : LinkFields MarketOrder where
  next := MarketOrder.nextOrder
  prev := MarketOrder.prevOrder
  setNext := fun v n => { n with nextOrder := v }
  setPrev := fun v n => { n with prevOrder := v }
  bare := fun n => { n with prevOrder := none, nextOrder := none }
  next_setNext := fun _ _ => rfl
  prev_setNext := fun _ _ => rfl
  next_setPrev := fun _ _ => rfl
  prev_setPrev := fun _ _ => rfl
  bare_setNext := fun _ _ => rfl
  bare_setPrev := fun _ _ => rfl

/-- The links of a price level. -/
def entryLinks : LinkFields MarketOrdersAtPrice where
  next := MarketOrdersAtPrice.nextEntry
  prev := MarketOrdersAtPrice.prevEntry
  setNext := fun v n => { n with nextEntry := v }
  setPrev := fun v n => { n with prevEntry := v }
  bare := fun n => { n with prevEntry := none, nextEntry := none }
  next_setNext := fun _ _ => rfl
  prev_setNext := fun _ _ => rfl
  next_setPrev := fun _ _ => rfl
  prev_setPrev := fun _ _ => rfl
  bare_setNext := fun _ _ => rfl
  bare_setPrev := fun _ _ => rfl

structure MarketOrderBook where
  oidToOrder : Nat → Option Nat
  ordersAtPricePool : MemPool MarketOrdersAtPrice
  bidsByPrice : Option Nat
  asksByPrice : Option Nat
  priceOrdersAtPrice : Nat → Option Nat
  orderPool : MemPool MarketOrder
  bbo : BBO

namespace MarketOrderBook

/-- A book that has seen no update. -/
def init : MarketOrderBook where
  oidToOrder := fun _ => none
  ordersAtPricePool := .init kMaxPriceLevels
  bidsByPrice := none
  asksByPrice := none
  priceOrdersAtPrice := fun _ => none
  orderPool := .init kMaxOrderIds
  bbo := ⟨0, 0, 0, 0⟩

/-- `side == Side::BUY ? bids_by_price_ : asks_by_price_`. -/
def bestOrdersByPrice (m : MarketOrderBook) (side : Side) : Option Nat :=
  if side = .buy then m.bidsByPrice else m.asksByPrice

/-- The same, assigned to. -/
def setBestOrdersByPrice (m : MarketOrderBook) (side : Side) (entry : Option Nat) :
    MarketOrderBook :=
  if side = .buy then { m with bidsByPrice := entry } else { m with asksByPrice := entry }

/-- `oid_to_order_.at(orderId)`. -/
def orderOf (m : MarketOrderBook) (orderId : Nat) : Except Fault (Option Nat) :=
  if orderId < kMaxOrderIds then .ok (m.oidToOrder orderId) else .error .outOfRange

/-- The same, assigned to. -/
def setOrderOf (m : MarketOrderBook) (orderId : Nat) (order : Option Nat) :
    Except Fault MarketOrderBook :=
  if orderId < kMaxOrderIds then
    .ok { m with oidToOrder := Function.update m.oidToOrder orderId order }
  else .error .outOfRange

/-! ## 2. Price levels -/

/-- `priceToIndex`: the price is converted to `size_t`, whose range `kMaxPriceLevels` divides. -/
def priceToIndex (price : Int) : Nat := (price % (kMaxPriceLevels : Int)).toNat

def getOrdersAtPrice (m : MarketOrderBook) (price : Int) : Option Nat :=
  m.priceOrdersAtPrice (priceToIndex price)

/-- The price belongs behind `target` on its side: the value assigned to `add_after`. -/
def addAfter (side : Side) (price target : Int) : Bool :=
  (decide (side = .sell) && decide (price > target)) ||
    (decide (side = .buy) && decide (price < target))

/-- `if (add_after) target = target->next_entry_`. -/
def advanceIf (p : MemPool MarketOrdersAtPrice) (cond : Bool) (target : Option Nat) :
    Except Fault (Option Nat) :=
  if cond then p.read target (·.nextEntry) else .ok target

/-- `while (add_after && target != best_orders_by_price)`. -/
def searchLoop (p : MemPool MarketOrdersAtPrice) (side : Side) (price : Int) (best : Option Nat) :
    Nat → Option Nat → Bool → Except Fault (Option Nat × Bool)
  | 0, _, _ => .error .diverged
  | fuel + 1, target, after =>
    if after && decide (target ≠ best) then do
      let after := addAfter side price (← p.read target (·.price))
      let target ← advanceIf p after target
      searchLoop p side price best fuel target after
    else .ok (target, after)

/-- The place of a new level: the level found, and whether the new one goes after it. -/
def searchTarget (p : MemPool MarketOrdersAtPrice) (side : Side) (price : Int)
    (best : Option Nat) : Except Fault (Option Nat × Bool) := do
  let after := addAfter side price (← p.read best (·.price))
  if after then
    let target ← p.read best (·.nextEntry)
    let after := addAfter side price (← p.read target (·.price))
    searchLoop p side price best (kMaxPriceLevels + 1) target after
  else .ok (best, false)

/-- The new level goes after `target`; past the last level the search has come back to the best
one. -/
def addAfterTarget (p : MemPool MarketOrdersAtPrice) (entry best target : Option Nat) :
    Except Fault (MemPool MarketOrdersAtPrice) := do
  let target ← (if target = best then p.read best (·.prevEntry) else .ok target)
  entryLinks.insertAfter p entry target

/-- The new level becomes the best one when its price is better. -/
def improveBest (m : MarketOrderBook) (side : Side) (price : Int)
    (entry best target : Option Nat) : Except Fault MarketOrderBook := do
  let bestPrice ← m.ordersAtPricePool.read best (·.price)
  if (decide (side = .buy) && decide (price > bestPrice)) ||
      (decide (side = .sell) && decide (price < bestPrice)) then
    let next ← m.ordersAtPricePool.read target (·.nextEntry)
    let p ← m.ordersAtPricePool.modify target
      (entryLinks.setNext (if next = best then entry else next))
    .ok ({ m with ordersAtPricePool := p }.setBestOrdersByPrice side entry)
  else .ok m

/-- `addOrdersAtPrice`: enter a new level into the table and into the list of its side. -/
def addOrdersAtPrice (m : MarketOrderBook) (newOrdersAtPrice : Option Nat) :
    Except Fault MarketOrderBook := do
  let side ← m.ordersAtPricePool.read newOrdersAtPrice (·.side)
  let price ← m.ordersAtPricePool.read newOrdersAtPrice (·.price)
  let m := { m with
    priceOrdersAtPrice :=
      Function.update m.priceOrdersAtPrice (priceToIndex price) newOrdersAtPrice }
  let best := m.bestOrdersByPrice side
  if best = none then
    let p ← entryLinks.linkToSelf m.ordersAtPricePool newOrdersAtPrice
    .ok ({ m with ordersAtPricePool := p }.setBestOrdersByPrice side newOrdersAtPrice)
  else
    let (target, after) ← searchTarget m.ordersAtPricePool side price best
    if after then
      let p ← addAfterTarget m.ordersAtPricePool newOrdersAtPrice best target
      .ok { m with ordersAtPricePool := p }
    else
      let p ← entryLinks.insertBefore m.ordersAtPricePool newOrdersAtPrice target
      improveBest { m with ordersAtPricePool := p } side price newOrdersAtPrice best target

/-- `removeOrdersAtPrice`: the links of a level that is not alone on its side. -/
def unlinkOrdersAtPrice (m : MarketOrderBook) (side : Side) (ordersAtPrice best : Option Nat) :
    Except Fault MarketOrderBook := do
  let p ← entryLinks.unlink m.ordersAtPricePool ordersAtPrice
  let next ← p.read ordersAtPrice (·.nextEntry)
  let m := if ordersAtPrice = best then m.setBestOrdersByPrice side next else m
  let p ← entryLinks.clearLinks p ordersAtPrice
  .ok { m with ordersAtPricePool := p }

/-- `removeOrdersAtPrice`: take a level out of the table and out of the list of its side. -/
def removeOrdersAtPrice (m : MarketOrderBook) (side : Side) (price : Int) :
    Except Fault MarketOrderBook := do
  let best := m.bestOrdersByPrice side
  let ordersAtPrice := m.getOrdersAtPrice price
  let next ← m.ordersAtPricePool.read ordersAtPrice (·.nextEntry)
  let m ← (if next = ordersAtPrice then .ok (m.setBestOrdersByPrice side none)
    else m.unlinkOrdersAtPrice side ordersAtPrice best)
  let p ← m.ordersAtPricePool.release ordersAtPrice
  .ok { m with
    priceOrdersAtPrice := Function.update m.priceOrdersAtPrice (priceToIndex price) none
    ordersAtPricePool := p }

/-! ## 3. Orders -/

/-- `removeOrder`: the links of an order that is not alone in its queue. -/
def unlinkOrder (m : MarketOrderBook) (order ordersAtPrice : Option Nat) :
    Except Fault MarketOrderBook := do
  let orderBefore ← m.orderPool.read order (·.prevOrder)
  let orderAfter ← m.orderPool.read order (·.nextOrder)
  let p ← orderLinks.bypass m.orderPool orderBefore orderAfter
  let first ← m.ordersAtPricePool.read ordersAtPrice (·.firstMktOrder)
  let levels ← (if first = order then
      m.ordersAtPricePool.modify ordersAtPrice ({ · with firstMktOrder := orderAfter })
    else .ok m.ordersAtPricePool)
  let p ← orderLinks.clearLinks p order
  .ok { m with orderPool := p, ordersAtPricePool := levels }

/-- `removeOrder`: take an order out of its queue, and its level with the last one. -/
def removeOrder (m : MarketOrderBook) (order : Option Nat) : Except Fault MarketOrderBook := do
  let o ← m.orderPool.deref order
  let ordersAtPrice := m.getOrdersAtPrice o.price
  let m ← (if o.prevOrder = order then m.removeOrdersAtPrice o.side o.price
    else m.unlinkOrder order ordersAtPrice)
  let m ← m.setOrderOf o.orderId none
  let p ← m.orderPool.release order
  .ok { m with orderPool := p }

/-- `addOrder`: the first order of a price, with a level of its own. -/
def openQueue (m : MarketOrderBook) (order : Option Nat) (o : MarketOrder) :
    Except Fault MarketOrderBook := do
  let p ← orderLinks.linkToSelf m.orderPool order
  let (entry, levels) ← m.ordersAtPricePool.allocate ⟨o.side, o.price, order, none, none⟩
  addOrdersAtPrice { m with orderPool := p, ordersAtPricePool := levels } (some entry)

/-- `addOrder`: an order behind the ones of its price. -/
def joinQueue (m : MarketOrderBook) (order ordersAtPrice : Option Nat) :
    Except Fault MarketOrderBook := do
  let first ← m.ordersAtPricePool.read ordersAtPrice (·.firstMktOrder)
  let p ← orderLinks.append m.orderPool order first
  .ok { m with orderPool := p }

/-- `addOrder`: a new order goes to the end of the queue of its price. -/
def addOrder (m : MarketOrderBook) (order : Option Nat) : Except Fault MarketOrderBook := do
  let o ← m.orderPool.deref order
  let m ← (match m.getOrdersAtPrice o.price with
    | none => m.openQueue order o
    | some entry => m.joinQueue order (some entry))
  m.setOrderOf o.orderId order

/-! ## 4. The best bid and offer -/

/-- The quantity of a queue: from `order` on until the list is back at its first order. -/
def sumQty (p : MemPool MarketOrder) (first : Option Nat) :
    Nat → Option Nat → Nat → Except Fault Nat
  | 0, _, _ => .error .diverged
  | fuel + 1, order, qty =>
    if order = first then .ok qty
    else do
      let o ← p.deref order
      sumQty p first fuel o.nextOrder ((qty + o.qty) % kWord32)

/-- Price and quantity of the best level of a side. -/
def topOfSide (m : MarketOrderBook) (best : Option Nat) : Except Fault (Int × Nat) :=
  if best = none then .ok (0, 0)
  else do
    let entry ← m.ordersAtPricePool.deref best
    let first ← m.orderPool.deref entry.firstMktOrder
    let qty ← sumQty m.orderPool entry.firstMktOrder (kMaxOrderIds + 1) first.nextOrder first.qty
    .ok (entry.price, qty)

def updateBid (m : MarketOrderBook) : Except Fault MarketOrderBook := do
  let (price, qty) ← m.topOfSide m.bidsByPrice
  .ok { m with bbo := { m.bbo with bidPrice := price, bidQty := qty } }

def updateAsk (m : MarketOrderBook) : Except Fault MarketOrderBook := do
  let (price, qty) ← m.topOfSide m.asksByPrice
  .ok { m with bbo := { m.bbo with askPrice := price, askQty := qty } }

def updateBBO (m : MarketOrderBook) (bidUpdated askUpdated : Bool) :
    Except Fault MarketOrderBook := do
  let m ← (if bidUpdated then m.updateBid else .ok m)
  if askUpdated then m.updateAsk else .ok m

/-! ## 5. Market updates -/

/-- `CLEAR`: the orders of all ids. -/
def releaseOrders (m : MarketOrderBook) : Except Fault (MemPool MarketOrder) :=
  (List.range kMaxOrderIds).foldlM
    (fun p orderId => if m.oidToOrder orderId = none then .ok p
      else p.release (m.oidToOrder orderId)) m.orderPool

/-- `CLEAR`: the levels of a side after the best one. -/
def releaseEntries (best : Option Nat) :
    Nat → Option Nat → MemPool MarketOrdersAtPrice → Except Fault (MemPool MarketOrdersAtPrice)
  | 0, _, _ => .error .diverged
  | fuel + 1, entry, p =>
    if entry = best then .ok p
    else do
      let next ← p.read entry (·.nextEntry)
      let p ← p.release entry
      releaseEntries best fuel next p

/-- `CLEAR`: the levels of a side. -/
def releaseSide (best : Option Nat) (p : MemPool MarketOrdersAtPrice) :
    Except Fault (MemPool MarketOrdersAtPrice) :=
  if best = none then .ok p
  else do
    let next ← p.read best (·.nextEntry)
    let p ← releaseEntries best (kMaxPriceLevels + 1) next p
    p.release best

def clear (m : MarketOrderBook) : Except Fault MarketOrderBook := do
  let p ← m.releaseOrders
  let levels ← releaseSide m.bidsByPrice m.ordersAtPricePool
  let levels ← releaseSide m.asksByPrice levels
  .ok { m with
    oidToOrder := fun _ => none
    orderPool := p
    ordersAtPricePool := levels
    bidsByPrice := none
    asksByPrice := none
    priceOrdersAtPrice := fun _ => none }

/-- `!best || price at least as good as the best one's`. -/
def reachesBest (m : MarketOrderBook) (best : Option Nat) (atLeast : Int → Bool) :
    Except Fault Bool :=
  if best = none then .ok true
  else do
    let price ← m.ordersAtPricePool.read best (·.price)
    .ok (atLeast price)

/-- Whether an update can change the best level of its side. -/
def sideUpdated (m : MarketOrderBook) (u : MatchingEngineMarketUpdate) (side : Side)
    (atLeast : Int → Bool) : Except Fault Bool :=
  if u.type = .clear then .ok true
  else if u.side = side then m.reachesBest (m.bestOrdersByPrice side) atLeast
  else .ok false

/-- The book after the update itself, before the best bid and offer are brought up to date. -/
def applyUpdate (m : MarketOrderBook) (u : MatchingEngineMarketUpdate) :
    Except Fault MarketOrderBook :=
  match u.type with
  | .add => do
    let (order, p) ← m.orderPool.allocate
      ⟨u.orderId, u.side, u.price, u.quantity, u.priority, none, none⟩
    addOrder { m with orderPool := p } (some order)
  | .modify => do
    let order ← m.orderOf u.orderId
    let p ← m.orderPool.modify order ({ · with qty := u.quantity })
    .ok { m with orderPool := p }
  | .cancel => do
    let order ← m.orderOf u.orderId
    m.removeOrder order
  | .clear => m.clear
  | .trade | .invalid | .snapshotStart | .snapshotEnd | .other _ => .ok m

/-- `onMarketUpdate`.  An update of an unknown type runs through the `switch` and has the best bid
and offer brought up to date. -/
def onMarketUpdate (m : MarketOrderBook) (u : MatchingEngineMarketUpdate) :
    Except Fault MarketOrderBook := do
  let bidUpdated ← m.sideUpdated u .buy fun best => decide (u.price ≥ best)
  let askUpdated ← m.sideUpdated u .sell fun best => decide (u.price ≤ best)
  let m ← m.applyUpdate u
  match u.type with
  | .trade | .invalid | .snapshotStart | .snapshotEnd => .ok m
  | .add | .modify | .cancel | .clear | .other _ => m.updateBBO bidUpdated askUpdated

end MarketOrderBook

end YQuant
