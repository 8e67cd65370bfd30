/-
# One side of an order book

`exchange/matcher/price_levels.h` and `price_levels.cc`.  Prices are addressed on a fixed grid
of ticks; a level is a slot of an array indexed by the tick, holding the FIFO queue of the
orders that rest there.  A two-level bitmap records which levels are occupied, and the best
tick is cached.

The functions are those of the source, line by line.  Arrays are functions of the index;
pointers to order nodes are slots of the pool; a pointer to a level is the array it points into
(named by the side that owns it) and the index.  What the operations preserve is the subject
of `Occupancy.lean` and `LevelQueues.lean`.

Where the source takes something for granted, an index in range or a pointer that is not null, the
model checks it and returns a fault; so that a function returns says that what it took for granted
was so.  The assertions of the source are kept with their texts.

Quantities of a level are added up in 64 bits and priorities are 64-bit counters; both are written
with their wrap.  There is one definition for both sides, as in the source, and it branches on the
side where the code does: in the direction of the search and in what is better.
-/
import Mathlib.Data.BitVec
import YQuant.MemPool

namespace YQuant

/-! ## 1. The price band -/

def kInvalidTick : Int := -1

/-- Ticks of one side; `kTickCount` in the source, as an index bound. -/
def kTickCount : Nat := kMaxPriceLevels

/-- The largest `common::Price`, a 64-bit signed integer. -/
def kPriceMax : Int := 2 ^ 63 - 1

/-- `static_cast<std::int32_t>`. -/
def toInt32 (x : Int) : Int := Int.bmod x (2 ^ 32)

structure PriceBand where
  basePrice : Int
  tickSize : Int
deriving DecidableEq, Repr

namespace PriceBand

/-- `ToTick`: 64-bit division truncates toward zero, the cast keeps the low 32 bits. -/
def toTick (b : PriceBand) (price : Int) : Int :=
  toInt32 ((price - b.basePrice).tdiv b.tickSize)

/-- `ToPrice`. -/
def toPrice (b : PriceBand) (tick : Int) : Int := b.basePrice + tick * b.tickSize

/-- `IsValid`. -/
def isValid (b : PriceBand) : Bool :=
  decide (b.tickSize > 0) && decide (b.basePrice ≥ 0) &&
    decide ((kPriceMax - b.basePrice).tdiv b.tickSize > (kTickCount : Int))

end PriceBand

def kDefaultPriceBand : PriceBand := ⟨0, 1⟩

/-! ## 2. Nodes and levels -/

/-- A pointer to a level: the side whose array it points into, and the index there. -/
structure LevelRef where
  side : Side
  index : Nat
deriving DecidableEq, Repr

/-- A resting order: a node of a level's queue. -/
structure OrderNode where
  next : Option Nat
  prev : Option Nat
  level : Option LevelRef
  marketOrderId : Nat
  clientOrderId : Nat
  priority : Nat
  remainingQuantity : Nat
  clientId : Nat
deriving DecidableEq, Repr

/-- A price level. -/
structure FIFOLevel where
  firstOrder : Option Nat := none
  lastOrder : Option Nat := none
  nextPriority : Nat := 1
  totalQuantity : Nat := 0
deriving DecidableEq, Repr

/-- `IsEmpty`. -/
def FIFOLevel.isEmpty (l : FIFOLevel) : Bool := l.firstOrder.isNone

/-- What `AddOrder` writes to the level that queues slot `order`. -/
def FIFOLevel.push (l : FIFOLevel) (order quantity : Nat) : FIFOLevel where
  firstOrder := if l.isEmpty then some order else l.firstOrder
  lastOrder := some order
  nextPriority := add64 l.nextPriority 1
  totalQuantity := add64 l.totalQuantity quantity

/-- What `RemoveOrder` writes to the level that `node` leaves. -/
def FIFOLevel.unlink (l : FIFOLevel) (node : OrderNode) : FIFOLevel where
  firstOrder := if node.prev.isSome then l.firstOrder else node.next
  lastOrder := if node.next.isSome then l.lastOrder else node.prev
  nextPriority := l.nextPriority
  totalQuantity := sub64 l.totalQuantity node.remainingQuantity

def kBitsPerWord : Nat := 64
def kOccupancyWords : Nat := kTickCount / kBitsPerWord
def kSummaryWords : Nat := (kOccupancyWords + kBitsPerWord - 1) / kBitsPerWord

/-- `PriceLevels`.  The order pool is shared with the other side and passed to the operations
that use it. -/
structure PriceLevels where
  side : Side
  bestTick : Int
  summary : Nat → BitVec 64
  occupancy : Nat → BitVec 64
  levels : Nat → FIFOLevel

namespace PriceLevels

/-- An empty side. -/
def init (side : Side) : PriceLevels where
  side := side
  bestTick := kInvalidTick
  summary := fun _ => 0
  occupancy := fun _ => 0
  levels := fun _ => {}

/-! ## 3. The occupancy bitmap -/

/-- `MarkOccupied`. -/
def markOccupied (s : PriceLevels) (tick : Int) : PriceLevels :=
  let index := tick.toNat
  let word := index / kBitsPerWord
  { s with
    occupancy := Function.update s.occupancy word
      (s.occupancy word ||| (1#64 <<< (index % kBitsPerWord)))
    summary := Function.update s.summary (word / kBitsPerWord)
      (s.summary (word / kBitsPerWord) ||| (1#64 <<< (word % kBitsPerWord))) }

/-- `ClearOccupied`: the summary bit goes with the last bit of its word. -/
def clearOccupied (s : PriceLevels) (tick : Int) : PriceLevels :=
  let index := tick.toNat
  let word := index / kBitsPerWord
  let cleared := s.occupancy word &&& ~~~(1#64 <<< (index % kBitsPerWord))
  let s := { s with occupancy := Function.update s.occupancy word cleared }
  if cleared = 0 then
    { s with
      summary := Function.update s.summary (word / kBitsPerWord)
        (s.summary (word / kBitsPerWord) &&& ~~~(1#64 <<< (word % kBitsPerWord))) }
  else s

/-- The loop of `FindBestTick` on a `BUY` side: summary words `n - 1` down to `0`. -/
def findHighest (s : PriceLevels) : Nat → Int
  | 0 => kInvalidTick
  | summaryWord + 1 =>
    let summary := s.summary summaryWord
    if summary = 0 then s.findHighest summaryWord
    else
      let word := summaryWord * kBitsPerWord + (kBitsPerWord - 1 - summary.clz.toNat)
      let bit := kBitsPerWord - 1 - (s.occupancy word).clz.toNat
      (word * kBitsPerWord + bit : Nat)

/-- The loop of `FindBestTick` on a `SELL` side: the last `n` summary words, from below. -/
def findLowest (s : PriceLevels) : Nat → Int
  | 0 => kInvalidTick
  | n + 1 =>
    let summaryWord := kSummaryWords - (n + 1)
    let summary := s.summary summaryWord
    if summary = 0 then s.findLowest n
    else
      let word := summaryWord * kBitsPerWord + summary.ctz.toNat
      let bit := (s.occupancy word).ctz.toNat
      (word * kBitsPerWord + bit : Nat)

/-- `FindBestTick`. -/
def findBestTick (s : PriceLevels) : Int :=
  if s.side = .buy then s.findHighest kSummaryWords else s.findLowest kSummaryWords

/-! ## 4. Queries -/

/-- `IsEmpty`. -/
def isEmpty (s : PriceLevels) : Bool := decide (s.bestTick = kInvalidTick)

/-- `LevelAt`. -/
def levelAt (s : PriceLevels) (tick : Int) : FIFOLevel := s.levels tick.toNat

/-- `Owns`. -/
def owns (s : PriceLevels) (level : LevelRef) : Bool :=
  decide (level.side = s.side) && decide (level.index < kTickCount)

/-- `IndexOf`. -/
def indexOf (_ : PriceLevels) (level : LevelRef) : Int := level.index

/-- `IsBetter`. -/
def isBetter (s : PriceLevels) (candidate current : Int) : Bool :=
  if s.side = .buy then decide (candidate > current) else decide (candidate < current)

/-! ## 5. Adding, filling and removing an order -/

/-- Write one slot of the level array. -/
def setLevel (s : PriceLevels) (index : Nat) (level : FIFOLevel) : PriceLevels :=
  { s with levels := Function.update s.levels index level }

/-- The node `AddOrder` allocates for level `t`. -/
def newNode (s : PriceLevels) (t clientId clientOrderId marketOrderId quantity : Nat) :
    OrderNode where
  next := none
  prev := (s.levels t).lastOrder
  level := some ⟨s.side, t⟩
  marketOrderId := marketOrderId
  clientOrderId := clientOrderId
  priority := (s.levels t).nextPriority
  remainingQuantity := quantity
  clientId := clientId

/-- The former tail of a level, if there is one, is linked to the new node. -/
def linkTail (level : FIFOLevel) (pool : MemPool OrderNode) (order : Nat) :
    Except Fault (MemPool OrderNode) :=
  if level.isEmpty then .ok pool
  else pool.modify level.lastOrder fun n => { n with next := some order }

/-- `AddOrder`.  The node takes the level's priority, which then advances; the former tail, if
there is one, is linked to the node before the level itself is written. -/
def addOrder (s : PriceLevels) (pool : MemPool OrderNode) (tick : Int)
    (clientId clientOrderId marketOrderId quantity : Nat) :
    Except Fault (Nat × PriceLevels × MemPool OrderNode) := do
  assertThat (decide (0 ≤ tick) && decide (tick < kTickCount)) "Tick outside the price band"
  let index := tick.toNat
  let level := s.levels index
  let (order, pool) ←
    pool.allocate (s.newNode index clientId clientOrderId marketOrderId quantity)
  let pool ← linkTail level pool order
  let s := s.setLevel index (level.push order quantity)
  let s :=
    if level.isEmpty then
      let s := s.markOccupied tick
      if s.isEmpty || s.isBetter tick s.bestTick then { s with bestTick := tick } else s
    else s
  .ok (order, s, pool)

/-- `ApplyFill`. -/
def applyFill (s : PriceLevels) (pool : MemPool OrderNode) (order : Option Nat)
    (quantity : Nat) : Except Fault (PriceLevels × MemPool OrderNode) := do
  assertThat order.isSome "Fill applied to an order that is not in the book"
  let node ← pool.deref order
  match node.level with
  | none => .error (.assertion "Fill applied to an order that is not in the book")
  | some level =>
    assertThat (decide (quantity ≤ node.remainingQuantity)) "Fill exceeds resting size"
    let pool ← pool.modify order fun n =>
      { n with remainingQuantity := n.remainingQuantity - quantity }
    if s.owns level then
      let slot := s.levels level.index
      .ok (s.setLevel level.index
        { slot with totalQuantity := sub64 slot.totalQuantity quantity }, pool)
    else .error .danglingPointer

/-- `RemoveOrder`.  The neighbours are relinked, the node's own links are cleared, and a level
that becomes empty leaves the bitmap; the slot goes back to the pool last. -/
def removeOrder (s : PriceLevels) (pool : MemPool OrderNode) (order : Option Nat) :
    Except Fault (PriceLevels × MemPool OrderNode) := do
  match order with
  | none => .error (.assertion "Removing an order that is not in the book")
  | some a =>
    let node ← pool.deref order
    match node.level with
    | none => .error (.assertion "Removing an order that is not in the book")
    | some ref =>
      if s.owns ref then
        let pool ← pool.modifyNonNull node.prev fun n => { n with next := node.next }
        let pool ← pool.modifyNonNull node.next fun n => { n with prev := node.prev }
        let pool ← pool.modify order fun n => { n with next := none, prev := none, level := none }
        let level := (s.levels ref.index).unlink node
        let s := s.setLevel ref.index level
        let s :=
          if level.isEmpty then
            let s := s.setLevel ref.index { level with totalQuantity := 0, nextPriority := 1 }
            let tick := s.indexOf ref
            let s := s.clearOccupied tick
            if tick = s.bestTick then { s with bestTick := s.findBestTick } else s
          else s
        .ok (s, pool.deallocate a)
      else .error .danglingPointer

end PriceLevels

end YQuant
