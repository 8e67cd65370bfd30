/-
# The client's market data consumer

`trading/market_data/market_data_consumer.cpp` forwards the updates of the incremental channel as
long as their numbers follow one another.  The first gap starts a recovery: the messages of both
channels are queued by number, and each of them makes `checkSnapshotSync` try to put a whole
snapshot cycle and the updates after it together.

`std::map` is `Std.TreeMap`, and what has been pushed on the queue to the trade engine is a list.
A datagram is the list of its records: a sender never splits one.  Logging is left out, and so are
the calls that join and leave the snapshot group.

The number in a `SNAPSHOT_END` is unsigned and is cast to the signed type of the counter (`ssize`).
From there the counter is counted up, here without a bound: past `2 ^ 63 - 1` the source has no
defined behaviour.

What ends a recovery is one function, `checkSnapshotSync`, and it gives up in five ways: no first
message, a gap among the snapshot messages, no last message, two ends that bear different numbers,
a gap among the updates behind them.  All but one of them empty the snapshot queue; the branches
are those of the source, in its order, with what each leaves behind.
-/
import YQuant.Types

namespace YQuant

/-- `QueuedMarketUpdates`. -/
abbrev QueuedMarketUpdates := Std.TreeMap Int MatchingEngineMarketUpdate

structure MarketDataConsumer where
  nextExpIncSeqNum : Int
  inRecovery : Bool
  snapshotQueuedMsgs : QueuedMarketUpdates
  incrementalQueuedMsgs : QueuedMarketUpdates
  incomingMdUpdates : List MatchingEngineMarketUpdate

/-- What one read of a socket returns. -/
structure Datagram where
  isSnapshot : Bool
  records : List MarketDataPublisherMarketUpdate

namespace MarketDataConsumer

def init : MarketDataConsumer := ⟨1, false, ∅, ∅, []⟩

/-- `startSnapshotSync`. -/
def startSnapshotSync (c : MarketDataConsumer) : MarketDataConsumer :=
  { c with snapshotQueuedMsgs := ∅, incrementalQueuedMsgs := ∅ }

/-! ## 1. Putting a snapshot together -/

/-- `SNAPSHOT_START` and `SNAPSHOT_END` are no events for the trade engine. -/
def isEvent (u : MatchingEngineMarketUpdate) : Bool :=
  decide (u.type ≠ .snapshotStart ∧ u.type ≠ .snapshotEnd)

/-- `final_events.push_back`, in front of the events after it. -/
def pushEvent (u : MatchingEngineMarketUpdate) (events : List MatchingEngineMarketUpdate) :
    List MatchingEngineMarketUpdate :=
  if isEvent u then u :: events else events

/-- The loop over the snapshot messages; nothing when it meets a gap. -/
def scanSnapshot : Int → List (Int × MatchingEngineMarketUpdate) →
    Option (List MatchingEngineMarketUpdate)
  | _, [] => some []
  | nextSnapshotSeq, (seq, u) :: rest =>
    if seq ≠ nextSnapshotSeq then none
    else (scanSnapshot (nextSnapshotSeq + 1) rest).map (pushEvent u)

/-- The loop over the incremental messages: the next number, which keeps what it has counted when
the loop meets a gap, and the events. -/
def scanIncrementals : Int → List (Int × MatchingEngineMarketUpdate) →
    Int × Option (List MatchingEngineMarketUpdate)
  | nextExp, [] => (nextExp, some [])
  | nextExp, (seq, u) :: rest =>
    if seq < nextExp then scanIncrementals nextExp rest
    else if seq ≠ nextExp then (nextExp, none)
    else
      let (nextExp', events) := scanIncrementals (nextExp + 1) rest
      (nextExp', events.map (pushEvent u))

def clearSnapshot (c : MarketDataConsumer) : MarketDataConsumer :=
  { c with snapshotQueuedMsgs := ∅ }

/-- `checkSnapshotSync` once the snapshot is complete. -/
def finishSync (c : MarketDataConsumer) (lastIncSeqNum : Nat)
    (snapshotEvents : List MatchingEngineMarketUpdate) : MarketDataConsumer :=
  match scanIncrementals (ssize lastIncSeqNum + 1) c.incrementalQueuedMsgs.toList with
  -- the counter stays overwritten
  | (nextExp, none) => { c.clearSnapshot with nextExpIncSeqNum := nextExp }
  | (nextExp, some incrementals) =>
    ⟨nextExp, false, ∅, ∅, c.incomingMdUpdates ++ (snapshotEvents ++ incrementals)⟩

/-- `checkSnapshotSync`. -/
def checkSnapshotSync (c : MarketDataConsumer) : MarketDataConsumer :=
  match c.snapshotQueuedMsgs.toList with
  | [] => c
  | first :: rest =>
    if first.2.type ≠ .snapshotStart then c.clearSnapshot
    else
      match scanSnapshot 0 (first :: rest) with
      | none => c.clearSnapshot
      | some snapshotEvents =>
        let last := (first :: rest).getLast (List.cons_ne_nil first rest)
        if last.2.type ≠ .snapshotEnd then c
        else if first.2.orderId ≠ last.2.orderId then c.clearSnapshot
        else c.finishSync last.2.orderId snapshotEvents

/-! ## 2. Messages -/

/-- The snapshot queue with one more message: the first message of a cycle and one that is there
already empty the queue before. -/
def queueSnapshot (queue : QueuedMarketUpdates) (request : MarketDataPublisherMarketUpdate) :
    QueuedMarketUpdates :=
  let queue := if request.seqNum = 0 then ∅ else queue
  let queue := if queue.contains request.seqNum then ∅ else queue
  queue.insert request.seqNum request.update

/-- `queueMessage`. -/
def queueMessage (c : MarketDataConsumer) (isSnapshot : Bool)
    (request : MarketDataPublisherMarketUpdate) : MarketDataConsumer :=
  checkSnapshotSync <|
    if isSnapshot then { c with snapshotQueuedMsgs := queueSnapshot c.snapshotQueuedMsgs request }
    else { c with
      incrementalQueuedMsgs := c.incrementalQueuedMsgs.insert request.seqNum request.update }

/-- The body of the loop of `recvCallback`. -/
def recvRecord (isSnapshot : Bool) (c : MarketDataConsumer)
    (request : MarketDataPublisherMarketUpdate) : MarketDataConsumer :=
  if request.seqNum < 0 then c
  else if isSnapshot && !c.inRecovery then c
  else if !isSnapshot && !c.inRecovery && decide (request.seqNum < c.nextExpIncSeqNum) then c
  else
    let alreadyInRecovery := c.inRecovery
    let inRecovery := alreadyInRecovery || decide (request.seqNum ≠ c.nextExpIncSeqNum)
    let c := { c with inRecovery := inRecovery }
    if inRecovery then
      let c := if alreadyInRecovery then c else c.startSnapshotSync
      c.queueMessage isSnapshot request
    else if !isSnapshot then
      { c with
        nextExpIncSeqNum := c.nextExpIncSeqNum + 1
        incomingMdUpdates := c.incomingMdUpdates ++ [request.update] }
    else c

/-- `recvCallback`. -/
def recvCallback (c : MarketDataConsumer) (d : Datagram) : MarketDataConsumer :=
  if d.isSnapshot && !c.inRecovery then c else d.records.foldl (recvRecord d.isSnapshot) c

end MarketDataConsumer

end YQuant
