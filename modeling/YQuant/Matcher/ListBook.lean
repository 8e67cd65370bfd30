/-
# The reference book

What an order book is for, stated without any of its data structures: a plain list of resting
orders in arrival order.  An incoming order trades with the best-priced, then earliest, order
it crosses until it is used up or crosses nothing; what is left of it joins the list.

`ListBook` finds the order to cancel by its owner's id.  `IndexedBook` finds it through a table
from (client id, client order id) to an arrival, written the way `BookCore` writes its own: a new
resting order overwrites the entry of its id, and an order that leaves clears the entry of its id
whatever that entry says.  The two agree as long as no id is reused while its order rests.

Arrivals are counted without a bound; the market order id of an order is its arrival modulo
`2 ^ 64`.

It keeps a count for each price as well, of the orders that have joined it since it was last empty:
the code gives out priorities by such a counter, and the updates show them.  Without it the list
would say everything of a book but one field of its messages.

The messages are functions of the book before the call and of the call (`responses`, `updates`),
apart from the step; so what is emitted can be talked about without running anything.  Quantities
are naturals, and a sweep subtracts what it executes, which is never more than there is.
-/
import Mathlib.Data.List.MinMax
import YQuant.Matcher.BookCore

namespace YQuant

/-! ## 1. Orders and the choice of a maker -/

/-- A resting order. -/
structure Resting where
  arrival : Nat
  clientId : Nat
  clientOrderId : Nat
  side : Side
  price : Int
  quantity : Nat
  priority : Nat
deriving DecidableEq, Repr

namespace Resting

def marketOrderId (o : Resting) : Nat := o.arrival % kWord64

/-- The order rests at this side and price. -/
def At (o : Resting) (side : Side) (price : Int) : Prop := o.side = side ∧ o.price = price

instance (o : Resting) (side : Side) (price : Int) : Decidable (o.At side price) :=
  inferInstanceAs (Decidable (_ ∧ _))

/-- The order belongs to this client under this id. -/
def HasKey (o : Resting) (clientId clientOrderId : Nat) : Prop :=
  o.clientId = clientId ∧ o.clientOrderId = clientOrderId

instance (o : Resting) (clientId clientOrderId : Nat) :
    Decidable (o.HasKey clientId clientOrderId) := inferInstanceAs (Decidable (_ ∧ _))

/-- The order is on the other side of a taker, at a price not worse than the taker's limit. -/
def CrossedBy (o : Resting) (takerSide : Side) (limit : Int) : Prop :=
  o.side = takerSide.opposite ∧ if takerSide = .buy then o.price ≤ limit else limit ≤ o.price

instance (o : Resting) (takerSide : Side) (limit : Int) :
    Decidable (o.CrossedBy takerSide limit) := inferInstanceAs (Decidable (_ ∧ _))

end Resting

/-- Prices as a taker ranks them: lower is better. -/
def takerRank (takerSide : Side) (price : Int) : Int := if takerSide = .buy then price else -price

/-- The order a taker trades with next: the best price among the orders it crosses, and among
those the one that stands first in the list.  (The order on the ranks is named because the
choice has to be executable.) -/
def bestMaker (resting : List Resting) (takerSide : Side) (limit : Int) : Option Resting :=
  @List.argmin Resting Int Int.instLinearOrder.toPreorder Int.instLinearOrder.toDecidableLT
    (fun o => takerRank takerSide o.price) (resting.filter fun o => o.CrossedBy takerSide limit)

/-- An order leaves the list. -/
def without (resting : List Resting) (order : Resting) : List Resting :=
  resting.filter fun o => o.arrival ≠ order.arrival

/-- An order loses part of its quantity. -/
def reduce (resting : List Resting) (order : Resting) (executed : Nat) : List Resting :=
  resting.map fun o =>
    if o.arrival = order.arrival then { o with quantity := o.quantity - executed } else o

/-- One trade with a resting order: it leaves the list when nothing is left of it. -/
def takeFrom (resting : List Resting) (maker : Resting) (executed : Nat) : List Resting :=
  if executed = maker.quantity then without resting maker else reduce resting maker executed

/-- One trade: the maker as it stood before, the executed quantity and what is left of the
taker. -/
structure Fill where
  maker : Resting
  executed : Nat
  takerLeft : Nat
deriving DecidableEq, Repr

/-- At most `n` trades of a taker of the given quantity: the trades, the orders that still rest
and the quantity left. -/
def sweepN (takerSide : Side) (limit : Int) :
    Nat → List Resting → Nat → List Fill × List Resting × Nat
  | 0, resting, quantity => ([], resting, quantity)
  | n + 1, resting, quantity =>
    if quantity = 0 then ([], resting, quantity)
    else
      match bestMaker resting takerSide limit with
      | none => ([], resting, quantity)
      | some maker =>
        let executed := min quantity maker.quantity
        let (fills, resting, left) :=
          sweepN takerSide limit n (takeFrom resting maker executed) (quantity - executed)
        (⟨maker, executed, quantity - executed⟩ :: fills, resting, left)

/-- All trades of a taker: no trade but the last leaves its maker in the list, so there are at
most as many as there are resting orders. -/
def sweep (takerSide : Side) (limit : Int) (resting : List Resting) (quantity : Nat) :
    List Fill × List Resting × Nat :=
  sweepN takerSide limit resting.length resting quantity

/-! ## 2. The reference book -/

/-- `joined side price` counts the orders that have come to rest at a price since no order rested
there; it means nothing while none does. -/
structure ListBook where
  resting : List Resting
  arrivals : Nat
  joined : Side → Int → Nat

namespace ListBook

def empty : ListBook := ⟨[], 0, fun _ _ => 0⟩

/-- The number of orders that have joined a price since it was last empty. -/
def queued (b : ListBook) (side : Side) (price : Int) : Nat :=
  if ∃ o ∈ b.resting, o.At side price then b.joined side price else 0

/-- An order comes to rest. -/
def rest (b : ListBook) (clientId clientOrderId : Nat) (side : Side) (price : Int)
    (quantity : Nat) : ListBook where
  resting := b.resting ++ [{
    arrival := b.arrivals
    clientId := clientId
    clientOrderId := clientOrderId
    side := side
    price := price
    quantity := quantity
    priority := (b.queued side price + 1) % kWord64 }]
  arrivals := b.arrivals
  joined := Function.update b.joined side
    (Function.update (b.joined side) price (b.queued side price + 1))

/-- The book after the trades of a new order and before the order itself rests. -/
def traded (b : ListBook) (side : Side) (price : Int) (quantity : Nat) : ListBook :=
  { b with
    resting := (sweep side price b.resting quantity).2.1
    arrivals := b.arrivals + 1 }

/-- The trades of a new order. -/
def fills (b : ListBook) (side : Side) (price : Int) (quantity : Nat) : List Fill :=
  (sweep side price b.resting quantity).1

/-- What its trades leave of a new order. -/
def left (b : ListBook) (side : Side) (price : Int) (quantity : Nat) : Nat :=
  (sweep side price b.resting quantity).2.2

/-- A new order. -/
def add (b : ListBook) (clientId clientOrderId : Nat) (side : Side) (price : Int)
    (quantity : Nat) : ListBook :=
  if b.left side price quantity = 0 then b.traded side price quantity
  else (b.traded side price quantity).rest clientId clientOrderId side price
    (b.left side price quantity)

/-- The resting order of a client under an id. -/
def find (b : ListBook) (clientId clientOrderId : Nat) : Option Resting :=
  b.resting.find? fun o => o.HasKey clientId clientOrderId

/-- An order leaves the book. -/
def remove (b : ListBook) (order : Option Resting) : ListBook :=
  match order with
  | none => b
  | some o => { b with resting := without b.resting o }

/-- One call. -/
def step (b : ListBook) : BookCall → ListBook
  | .add clientId clientOrderId side price quantity =>
    b.add clientId clientOrderId side price quantity
  | .cancel clientId clientOrderId => b.remove (b.find clientId clientOrderId)

end ListBook

/-! ## 3. The messages of a call -/

section Messages

variable (symbolId : Nat)

/-- A trade is reported to the taker, then to the maker. -/
def Fill.responses (clientId clientOrderId marketOrderId : Nat) (takerSide : Side) (f : Fill) :
    List MatchingEngineClientResponse :=
  [⟨.filled, clientId, symbolId, clientOrderId, marketOrderId, takerSide, f.maker.price,
      f.executed, f.takerLeft⟩,
    ⟨.filled, f.maker.clientId, symbolId, f.maker.clientOrderId, f.maker.marketOrderId,
      f.maker.side, f.maker.price, f.executed, f.maker.quantity - f.executed⟩]

/-- A trade is published, then what became of the maker. -/
def Fill.updates (f : Fill) : List MatchingEngineMarketUpdate :=
  [⟨.trade, symbolId, f.maker.marketOrderId, f.maker.side, f.maker.price, f.executed, 0⟩,
    if f.executed = f.maker.quantity then
      ⟨.cancel, symbolId, f.maker.marketOrderId, f.maker.side, f.maker.price, 0, 0⟩
    else
      ⟨.modify, symbolId, f.maker.marketOrderId, f.maker.side, f.maker.price,
        f.maker.quantity - f.executed, f.maker.priority⟩]

namespace ListBook

def addResponses (b : ListBook) (clientId clientOrderId : Nat) (side : Side) (price : Int)
    (quantity : Nat) : List MatchingEngineClientResponse :=
  let marketOrderId := (b.arrivals + 1) % kWord64
  ⟨.accepted, clientId, symbolId, clientOrderId, marketOrderId, side, price, 0, quantity⟩ ::
    (b.fills side price quantity).flatMap
      (Fill.responses symbolId clientId clientOrderId marketOrderId side)

def addUpdates (b : ListBook) (side : Side) (price : Int) (quantity : Nat) :
    List MatchingEngineMarketUpdate :=
  (b.fills side price quantity).flatMap (Fill.updates symbolId) ++
    if b.left side price quantity = 0 then []
    else [⟨.add, symbolId, (b.arrivals + 1) % kWord64, side, price, b.left side price quantity,
      ((b.traded side price quantity).queued side price + 1) % kWord64⟩]

/-- The answer to a cancel that found `order`. -/
def cancelResponses (clientId clientOrderId : Nat) (order : Option Resting) :
    List MatchingEngineClientResponse :=
  match order with
  | none => [⟨.cancelRejected, clientId, symbolId, clientOrderId, 0, .unset, 0, 0, 0⟩]
  | some o => [⟨.canceled, clientId, symbolId, clientOrderId, o.marketOrderId, o.side, o.price, 0,
      o.quantity⟩]

def cancelUpdates (order : Option Resting) : List MatchingEngineMarketUpdate :=
  match order with
  | none => []
  | some o => [⟨.cancel, symbolId, o.marketOrderId, o.side, o.price, 0, 0⟩]

/-- The client responses of one call. -/
def responses (b : ListBook) : BookCall → List MatchingEngineClientResponse
  | .add clientId clientOrderId side price quantity =>
    b.addResponses symbolId clientId clientOrderId side price quantity
  | .cancel clientId clientOrderId =>
    cancelResponses symbolId clientId clientOrderId (b.find clientId clientOrderId)

/-- The market updates of one call. -/
def updates (b : ListBook) : BookCall → List MatchingEngineMarketUpdate
  | .add _ _ side price quantity => b.addUpdates symbolId side price quantity
  | .cancel clientId clientOrderId => cancelUpdates symbolId (b.find clientId clientOrderId)

end ListBook

end Messages

/-! ## 4. The book with an index -/

/-- Arrivals of resting orders by (client id, client order id). -/
abbrev OrderIndex := Nat → Nat → Option Nat

namespace OrderIndex

/-- Write one entry. -/
def set (ix : OrderIndex) (clientId clientOrderId : Nat) (entry : Option Nat) : OrderIndex :=
  Function.update ix clientId (Function.update (ix clientId) clientOrderId entry)

/-- A trade clears the entry of the maker's id when it exhausts the maker. -/
def afterFill (ix : OrderIndex) (f : Fill) : OrderIndex :=
  if f.executed = f.maker.quantity then ix.set f.maker.clientId f.maker.clientOrderId none else ix

end OrderIndex

structure IndexedBook where
  book : ListBook
  index : OrderIndex

namespace IndexedBook

def empty : IndexedBook := ⟨.empty, fun _ _ => none⟩

/-- The resting order the index names. -/
def find (x : IndexedBook) (clientId clientOrderId : Nat) : Option Resting :=
  (x.index clientId clientOrderId).bind fun arrival =>
    x.book.resting.find? fun o => o.arrival = arrival

/-- The index after a new order. -/
def indexAfterAdd (x : IndexedBook) (clientId clientOrderId : Nat) (side : Side) (price : Int)
    (quantity : Nat) : OrderIndex :=
  let ix := (x.book.fills side price quantity).foldl OrderIndex.afterFill x.index
  if x.book.left side price quantity = 0 then ix
  else ix.set clientId clientOrderId (some (x.book.arrivals + 1))

/-- One call. -/
def step (x : IndexedBook) : BookCall → IndexedBook
  | .add clientId clientOrderId side price quantity =>
    ⟨x.book.add clientId clientOrderId side price quantity,
      x.indexAfterAdd clientId clientOrderId side price quantity⟩
  | .cancel clientId clientOrderId =>
    ⟨x.book.remove (x.find clientId clientOrderId), x.index.set clientId clientOrderId none⟩

/-- The client responses of one call. -/
def responses (symbolId : Nat) (x : IndexedBook) : BookCall → List MatchingEngineClientResponse
  | .add clientId clientOrderId side price quantity =>
    x.book.addResponses symbolId clientId clientOrderId side price quantity
  | .cancel clientId clientOrderId =>
    ListBook.cancelResponses symbolId clientId clientOrderId (x.find clientId clientOrderId)

/-- The market updates of one call. -/
def updates (symbolId : Nat) (x : IndexedBook) : BookCall → List MatchingEngineMarketUpdate
  | .add _ _ side price quantity => x.book.addUpdates symbolId side price quantity
  | .cancel clientId clientOrderId =>
    ListBook.cancelUpdates symbolId (x.find clientId clientOrderId)

end IndexedBook

end YQuant
