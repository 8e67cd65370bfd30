/-
# What the order server lets through

The matcher and its price band leave it to the order server to validate requests, and the request
structure promises that its fields are valid before they are matched.  `recvCallback` checks the
socket and the number of a record and nothing else, so a record can name a client outside the tables
and a request the matcher cannot bear (`not_only_valid_requests`).

Which records reach the matcher can be said without the server.  The bytes of each socket are cut
into records (`received`), and a record is in turn if it comes on the socket that first named its
client and carries the number behind those of the client's earlier records in turn (`inTurn`); the
records in turn are what the sequencer is handed (`Heard.handed`), whatever the interleaving of the
sockets and the chunking of their bytes.  So nothing invalid reaches the matcher exactly as long as
the records that arrive name clients of the tables and those in turn hold valid requests
(`only_valid_requests`): the clients have to do the validation that nobody does behind them.
-/
import YQuant.OrderManager.Sessions

namespace YQuant

namespace OrderManager

/-! ## 1. The records that arrive -/

/-- The complete records in the bytes that the reads of a run deliver, in the order of the reads.
`left` is what is left of the bytes of each socket in front of them; a read takes what its receive
buffer has room for. -/
def receivedBehind (left : Nat → List UInt8) : List OrderManagerEvent → List Arrival
  | [] => []
  | .sendAndRecv socket available rxTime :: events =>
    let bytes := left socket ++ available.take (TCPBufferSize - (left socket).length)
    (orderManagerClientRequestCodec.frames bytes).map (fun r => ⟨socket, rxTime, r⟩) ++
      receivedBehind
        (Function.update left socket (orderManagerClientRequestCodec.rest bytes)) events
  | .recvFinished _ :: events | .sendResponse _ :: events => receivedBehind left events

/-- The complete records in all bytes that arrive. -/
def received (events : List OrderManagerEvent) : List Arrival := receivedBehind (fun _ => []) events

/-- The record `a` is the next of its client, when `seen` arrived before it and `turns` of them
were in turn: it comes on the socket that first named the client, and its number is one more than
the client has had turns, as a `size_t`. -/
def NextInTurn (seen turns : List Arrival) (a : Arrival) : Prop :=
  ((seen ++ [a]).find? fun b => b.clientId = a.clientId).map Arrival.socket = some a.socket ∧
    a.record.seqNum = ((turns.filter fun b => b.clientId = a.clientId).length + 1) % kWord64

instance (seen turns : List Arrival) (a : Arrival) : Decidable (NextInTurn seen turns a) :=
  inferInstanceAs (Decidable (_ ∧ _))

/-- The records in turn, behind those that were before. -/
def inTurnBehind (seen turns : List Arrival) : List Arrival → List Arrival
  | [] => turns
  | a :: as =>
    inTurnBehind (seen ++ [a]) (if NextInTurn seen turns a then turns ++ [a] else turns) as

/-- The records in turn. -/
def inTurn (as : List Arrival) : List Arrival := inTurnBehind [] [] as

/-- **What the clients have to see to**: no record names a client outside the tables, and the
records in turn hold requests that meet the documented preconditions of the matcher. -/
def ValidRecords (as : List Arrival) : Prop :=
  (∀ a ∈ as, a.clientId < kMaxNumClients) ∧ ∀ a ∈ inTurn as, a.request.Documented

instance (as : List Arrival) : Decidable (ValidRecords as) := inferInstanceAs (Decidable (_ ∧ _))

theorem inTurnBehind_append {seen turns as bs : List Arrival} :
    inTurnBehind seen turns (as ++ bs) =
      inTurnBehind (seen ++ as) (inTurnBehind seen turns as) bs := by
  induction as generalizing seen turns with
  | nil => rw [List.append_nil]; rfl
  | cons a as ih =>
    rw [List.cons_append, inTurnBehind, ih, List.append_assoc]
    rfl

/-- A turn stays a turn, whatever arrives behind it. -/
theorem subset_inTurnBehind {seen turns as : List Arrival} :
    turns ⊆ inTurnBehind seen turns as := by
  induction as generalizing seen turns with
  | nil => exact List.Subset.refl _
  | cons a as ih =>
    refine List.Subset.trans ?_ ih
    split
    · exact List.subset_append_left turns [a]
    · exact List.Subset.refl _

/-! ## 2. What the server has heard -/

variable {m m' : OrderManager} {a : Arrival} {left : Nat → List UInt8} {seen turns : List Arrival}

/-- **The records the server has heard**: `seen` arrived, `turns` of them in turn, and `left` is
what its buffers hold behind them. -/
structure Heard (left : Nat → List UInt8) (seen turns : List Arrival) (m : OrderManager) :
    Prop where
  buffers : ∀ socket, (m.recvSockets socket).inboundData = left socket
  short : ∀ socket, (left socket).length < orderManagerClientRequestCodec.size
  sessions : ∃ l, arrivalsOf l = seen ∧ acceptedOf l = turns ∧ Sessions l m

theorem Heard.init : Heard (fun _ => []) [] [] OrderManager.init where
  buffers _ := rfl
  short _ := by decide
  sessions := ⟨[], rfl, rfl, Sessions.init⟩

/-- **What the sequencer is handed** are the records in turn. -/
theorem Heard.handed (h : Heard left seen turns m) :
    (m.fifoSequencer.incomingRequest ++
      m.fifoSequencer.pendingClientRequests.map TimestampedClientRequest.request).Perm
        (turns.map Arrival.request) := by
  obtain ⟨l, -, rfl, hsessions⟩ := h.sessions
  exact hsessions.handed

/-- The two checks of `recvCallback` ask whether a record is in turn. -/
theorem Sessions.accepts {l : List Delivery} (h : Sessions l m) :
    m.accepts a = decide (NextInTurn (arrivalsOf l) (acceptedOf l) a) := by
  have hbound := h.bindSocket (a := a) true a.clientId
  rw [firstSocket, arrivalsOf_append] at hbound
  rw [OrderManager.accepts, hbound, h.expected]
  rfl

/-- **The records of a read**, one after the other. -/
theorem Sessions.receiveRequests {as : List Arrival} :
    ∀ {l : List Delivery} {m : OrderManager}, Sessions l m →
      as.foldlM OrderManager.receiveRequest m = .ok m' → ∃ l', arrivalsOf l' = arrivalsOf l ++ as ∧
        acceptedOf l' = inTurnBehind (arrivalsOf l) (acceptedOf l) as ∧ Sessions l' m' := by
  induction as with
  | nil =>
    intro l m h hrun
    cases hrun
    exact ⟨l, (List.append_nil _).symm, rfl, h⟩
  | cons a as ih =>
    intro l m h hrun
    obtain ⟨m₁, hfirst, hrest⟩ := Run.foldlM_cons_ok.mp hrun
    obtain ⟨l', hseen, hturns, hsessions⟩ := ih (h.receiveRequest hfirst) hrest
    refine ⟨l', ?_, ?_, hsessions⟩
    · rw [hseen, arrivalsOf_append, List.append_assoc]
      rfl
    · rw [hturns, arrivalsOf_append, acceptedOf_append, inTurnBehind, h.accepts]
      by_cases hnext : NextInTurn (arrivalsOf l) (acceptedOf l) a
      · rw [if_pos hnext, decide_eq_true hnext]
        rfl
      · rw [if_neg hnext, decide_eq_false hnext, acceptedOf_rejected, List.append_nil]
        rfl

theorem Sessions.congr {l : List Delivery} (h : Sessions l m)
    (hmap : m'.cidTcpSocketMap = m.cidTcpSocketMap)
    (hexpected : m'.cidNextExpSeqNum = m.cidNextExpSeqNum)
    (hfifo : m'.fifoSequencer = m.fifoSequencer) : Sessions l m' :=
  ⟨by rw [hmap]; exact h.bound, by rw [hmap]; exact h.socket, by rw [hexpected]; exact h.expected,
    h.numbered, by rw [hfifo]; exact h.handed⟩

/-- **A read**: its records are cut from what was left and what the buffer takes of the new bytes.
-/
theorem Heard.arrived (h : Heard left seen turns m) (socket : Nat) (available : List UInt8)
    (rxTime : Int) :
    m.arrived socket available rxTime = (orderManagerClientRequestCodec.frames (left socket ++
        available.take (TCPBufferSize - (left socket).length))).map (fun r => ⟨socket, rxTime, r⟩) ∧
      m.remainder socket available = orderManagerClientRequestCodec.rest (left socket ++
        available.take (TCPBufferSize - (left socket).length)) := by
  have hbuffer := h.buffers socket
  rw [← hbuffer]
  exact arrived_of_short _ (hbuffer ▸ h.short socket) rxTime

theorem Heard.sendAndRecv (h : Heard left seen turns m) {socket : Nat} {available : List UInt8}
    {rxTime : Int} (hstep : m.sendAndRecv socket available rxTime = .ok m') :
    (∀ a ∈ m.arrived socket available rxTime, a.clientId < kMaxNumClients) ∧
      Heard (Function.update left socket (m.remainder socket available))
        (seen ++ m.arrived socket available rxTime)
        (inTurnBehind seen turns (m.arrived socket available rxTime)) m' := by
  obtain ⟨m₁, hrun, rfl⟩ := sendAndRecv_cases hstep
  obtain ⟨l, rfl, rfl, hsessions⟩ := h.sessions
  have hread : Sessions l (m.recvmsg socket ((m.recvSockets socket).readable available)) :=
    hsessions.congr rfl rfl rfl
  obtain ⟨l', hseen, hturns, hafter⟩ := hread.receiveRequests hrun
  have hsockets := receiveRequests_sockets hrun
  refine ⟨receiveRequests_clients hrun, fun k => ?_, fun k => ?_, l', hseen, hturns,
    hafter.congr rfl rfl rfl⟩
  · change TCPSocket.inboundData (Function.update m₁.recvSockets socket _ k) = _
    rcases eq_or_ne k socket with rfl | hne
    · rw [Function.update_self, Function.update_self]
    · rw [Function.update_of_ne hne, Function.update_of_ne hne, hsockets, ← h.buffers k]
      exact congrArg TCPSocket.inboundData (Function.update_of_ne hne ..)
  · rcases eq_or_ne k socket with rfl | hne
    · rw [Function.update_self, (h.arrived k available rxTime).2]
      exact Codec.length_rest_lt (by decide)
    · rw [Function.update_of_ne hne]
      exact h.short k

theorem Heard.recvFinished (h : Heard left seen turns m) (ranges : ReceiveTimeSort) :
    Heard left seen turns (m.recvFinishedCallback ranges) := by
  obtain ⟨l, hseen, hturns, hsessions⟩ := h.sessions
  refine ⟨h.buffers, h.short, l, hseen, hturns, hsessions.bound, hsessions.socket,
    hsessions.expected, hsessions.numbered, ?_⟩
  change ((m.fifoSequencer.incomingRequest ++ _) ++ []).Perm _
  rw [List.append_nil]
  exact (((ranges.sort_perm _).map _).append_left _).trans hsessions.handed

theorem Heard.sendResponse (h : Heard left seen turns m) {r : MatchingEngineClientResponse}
    (hstep : m.sendResponse r = .ok m') : Heard left seen turns m' := by
  obtain ⟨-, socket, -, rfl⟩ := sendResponse_cases hstep
  obtain ⟨l, hseen, hturns, hsessions⟩ := h.sessions
  refine ⟨fun k => ?_, h.short, l, hseen, hturns, hsessions.congr rfl rfl rfl⟩
  change TCPSocket.inboundData (Function.update m.recvSockets socket _ k) = _
  rcases eq_or_ne k socket with rfl | hne
  · rw [Function.update_self]
    exact h.buffers k
  · rw [Function.update_of_ne hne]
    exact h.buffers k

/-- **A run that goes through** has heard all records that arrived. -/
theorem Heard.run {events : List OrderManagerEvent} :
    ∀ {left : Nat → List UInt8} {seen turns : List Arrival} {m : OrderManager},
      Heard left seen turns m → events.foldlM step m = .ok m' →
      (∀ a ∈ receivedBehind left events, a.clientId < kMaxNumClients) ∧
        ∃ left', Heard left' (seen ++ receivedBehind left events)
          (inTurnBehind seen turns (receivedBehind left events)) m' := by
  induction events with
  | nil =>
    intro left seen turns m h hrun
    cases hrun
    refine ⟨fun _ ha => absurd ha List.not_mem_nil, left, ?_⟩
    rw [receivedBehind, List.append_nil]
    exact h
  | cons e events ih =>
    intro left seen turns m h hrun
    obtain ⟨m₁, hstep, hrest⟩ := Run.foldlM_cons_ok.mp hrun
    cases e with
    | sendAndRecv socket available rxTime =>
      obtain ⟨hclients, h₁⟩ := h.sendAndRecv hstep
      obtain ⟨hframes, hremainder⟩ := h.arrived socket available rxTime
      rw [hframes] at hclients
      rw [hframes, hremainder] at h₁
      obtain ⟨hclients', left', h'⟩ := ih h₁ hrest
      refine ⟨fun a ha => (List.mem_append.mp ha).elim (hclients a) (hclients' a), left', ?_⟩
      rw [receivedBehind, ← List.append_assoc, inTurnBehind_append]
      exact h'
    | recvFinished ranges =>
      cases hstep
      exact ih (h.recvFinished ranges) hrest
    | sendResponse r => exact ih (h.sendResponse hstep) hrest

/-! ## 3. What reaches the matcher -/

/-- **What the matcher relies on**: every request published to it meets its preconditions, and it
goes through all of them unless a book runs out of nodes, with no fault of another kind. -/
structure OnlyValid (m : OrderManager) : Prop where
  published : ∀ r ∈ m.fifoSequencer.incomingRequest, r.Documented
  matched : (∃ engine, MatchingEngine.run m.fifoSequencer.incomingRequest = .ok engine) ∨
    MatchingEngine.run m.fifoSequencer.incomingRequest = .error (.assertion "Memory pool exhausted")

/-- A read indexes no table of clients past its end. -/
def InBounds (m : OrderManager) : OrderManagerEvent → Prop
  | .sendAndRecv socket available rxTime =>
    m.sendAndRecv socket available rxTime ≠ .error .outOfBounds
  | .recvFinished _ | .sendResponse _ => True

/-- No record of a read indexes the tables out of their range. -/
theorem receiveRequests_inBounds {as : List Arrival} : ∀ {m : OrderManager},
    (∀ a ∈ as, a.clientId < kMaxNumClients) → as.foldlM receiveRequest m ≠ .error .outOfBounds := by
  induction as with
  | nil => exact fun _ h => by cases h
  | cons a as ih =>
    intro m hclients hrun
    rw [List.foldlM_cons, receiveRequest_eq (hclients a List.mem_cons_self)] at hrun
    have hrest := fun b hb => hclients b (List.mem_cons_of_mem a hb)
    split at hrun
    · split at hrun
      · cases hrun
      · exact ih hrest hrun
    · exact ih hrest hrun

theorem inBounds_of_clients {socket : Nat} {available : List UInt8} {rxTime : Int}
    (hclients : ∀ a ∈ m.arrived socket available rxTime, a.clientId < kMaxNumClients) :
    m.InBounds (.sendAndRecv socket available rxTime) := by
  intro herror
  rw [sendAndRecv_eq] at herror
  cases hrequests : (m.arrived socket available rxTime).foldlM receiveRequest
      (m.recvmsg socket ((m.recvSockets socket).readable available)) with
  | ok m₁ => rw [hrequests] at herror; cases herror
  | error e =>
    rw [hrequests] at herror
    cases herror
    exact receiveRequests_inBounds hclients hrequests

theorem Heard.onlyValid (h : Heard left seen turns m)
    (hvalid : ∀ a ∈ turns, a.request.Documented) : OnlyValid m := by
  have hpublished : ∀ r ∈ m.fifoSequencer.incomingRequest, r.Documented := by
    intro r hr
    obtain ⟨a, ha, rfl⟩ := List.mem_map.mp (h.handed.mem_iff.mp (List.mem_append_left _ hr))
    exact hvalid a ha
  exact ⟨hpublished, MatchingEngine.run_or_full hpublished⟩

/-- **Valid records**: no read of the run leaves the tables, and only valid requests reach the
matcher in every state. -/
theorem Heard.valid {events : List OrderManagerEvent} :
    ∀ {left : Nat → List UInt8} {seen turns : List Arrival} {m : OrderManager},
      Heard left seen turns m →
      (∀ a ∈ receivedBehind left events, a.clientId < kMaxNumClients) →
      (∀ a ∈ inTurnBehind seen turns (receivedBehind left events), a.request.Documented) →
      Run.EachTry step InBounds m events ∧ Run.Always step OnlyValid m events := by
  induction events with
  | nil => exact fun h _ hvalid => ⟨trivial, h.onlyValid hvalid⟩
  | cons e events ih =>
    intro left seen turns m h hclients hvalid
    have honly : OnlyValid m := h.onlyValid fun a ha => hvalid a (subset_inTurnBehind ha)
    -- what follows from the rest of the run
    suffices hrest : m.InBounds e ∧ ∀ m₁, m.step e = .ok m₁ →
        Run.EachTry step InBounds m₁ events ∧ Run.Always step OnlyValid m₁ events from
      ⟨⟨hrest.1, fun m₁ hstep => (hrest.2 m₁ hstep).1⟩, honly, fun m₁ hstep => (hrest.2 m₁ hstep).2⟩
    cases e with
    | sendAndRecv socket available rxTime =>
      obtain ⟨hframes, hremainder⟩ := h.arrived socket available rxTime
      rw [receivedBehind, ← hframes, ← hremainder] at hclients hvalid
      rw [inTurnBehind_append] at hvalid
      refine ⟨inBounds_of_clients fun a ha => hclients a (List.mem_append_left _ ha),
        fun m₁ hstep => ?_⟩
      exact ih (h.sendAndRecv hstep).2 (fun a ha => hclients a (List.mem_append_right _ ha)) hvalid
    | recvFinished ranges =>
      refine ⟨trivial, fun m₁ hstep => ?_⟩
      cases hstep
      exact ih (h.recvFinished ranges) hclients hvalid
    | sendResponse r =>
      exact ⟨trivial, fun m₁ hstep => ih (h.sendResponse hstep) hclients hvalid⟩

/-- **Nothing invalid reaches the matcher as long as the records are valid**: then no read of the
run indexes a table past its end, and in every state only valid requests have been published and
the matcher bears them.  The condition is about the bytes that arrive and about nothing the server
keeps.  It asks no more than it has to: a run that goes through and has published everything, and
only valid requests, was a run on valid records.  That a book has a node for every order is not
promised; the pool stops the process by its own assertion. -/
theorem only_valid_requests (events : List OrderManagerEvent) :
    (ValidRecords (received events) →
      Run.EachTry step InBounds init events ∧ Run.Always step OnlyValid init events) ∧
    ∀ m, run events = .ok m → m.fifoSequencer.pendingClientRequests = [] → OnlyValid m →
      ValidRecords (received events) := by
  refine ⟨fun hvalid => Heard.init.valid hvalid.1 hvalid.2, fun m hrun hpending honly => ?_⟩
  obtain ⟨hclients, left', h⟩ := Heard.init.run hrun
  refine ⟨hclients, fun a ha => honly.published _ ?_⟩
  have hhanded := h.handed
  rw [hpending, List.map_nil, List.append_nil] at hhanded
  exact hhanded.mem_iff.mpr (List.mem_map_of_mem ha)

/-- Client 1 enters an order on socket 3; socket 4 sends a record of its own in the name of client
1, with a request no matcher could bear, and then the rest of the record behind it. -/
def strayRecord : List OrderManagerEvent :=
  let stray := orderManagerClientRequestCodec.encode ⟨2, ⟨.new, 1, 8, 7, .buy, 10, 0⟩⟩
  [.sendAndRecv 3 (orderManagerClientRequestCodec.encode ⟨1, ⟨.new, 1, 0, 7, .buy, 10, 5⟩⟩) 100,
    .sendAndRecv 4 (stray.take 30) 101, .sendAndRecv 4 (stray.drop 30) 102,
    .recvFinished (SortBy.reverseTies _)]

theorem only_valid_requests_stray : ValidRecords (received strayRecord) ∧
    (received strayRecord).length = 2 ∧
    Run.EachTry step InBounds init strayRecord ∧ Run.Always step OnlyValid init strayRecord :=
  have hvalid : ValidRecords (received strayRecord) := by decide +kernel
  ⟨hvalid, by decide +kernel, (only_valid_requests strayRecord).1 hvalid⟩

/-- An order for a symbol that does not exist. -/
def unknownSymbol : List OrderManagerEvent :=
  [.sendAndRecv 3 (orderManagerClientRequestCodec.encode ⟨1, ⟨.new, 1, 8, 7, .buy, 10, 5⟩⟩) 100,
    .recvFinished (SortBy.reverseTies _)]

/-- **Nothing is validated**: a record can name a client outside the tables, and a request for a
symbol outside the table of books reaches the matcher. -/
theorem not_only_valid_requests :
    init.sendAndRecv 3 (orderManagerClientRequestCodec.encode
      ⟨1, ⟨.new, kMaxNumClients, 0, 7, .buy, 10, 5⟩⟩) 100 = .error .outOfBounds ∧
    ∃ m, run unknownSymbol = .ok m ∧ (∃ r ∈ m.fifoSequencer.incomingRequest, ¬ r.Documented) ∧
      MatchingEngine.run m.fifoSequencer.incomingRequest = .error .outOfBounds := by
  constructor
  · have hrep : orderManagerClientRequestCodec.Representable
        ⟨1, ⟨.new, kMaxNumClients, 0, 7, .buy, 10, 5⟩⟩ :=
      MatchingEngineClientRequest.InRange.representable
        ⟨rfl, by decide, by decide, by decide, rfl, by decide, by decide⟩ (by decide)
    rw [sendAndRecv_eq, (arrived_encode rfl hrep 100).1]
    rfl
  · obtain ⟨m, hrun, hpublished⟩ : ∃ m, run unknownSymbol = .ok m ∧
        decide (m.fifoSequencer.incomingRequest = [⟨.new, 1, 8, 7, .buy, 10, 5⟩]) = true :=
      exists_of_returns (by decide +kernel)
    have hincoming := of_decide_eq_true hpublished
    refine ⟨m, hrun, ?_, ?_⟩
    · rw [hincoming]
      exact ⟨_, List.mem_singleton_self _, by decide⟩
    · obtain ⟨engine, hinit, -⟩ := MatchingEngine.init_spec
      rw [hincoming, MatchingEngine.run, hinit]
      rfl

end OrderManager

end YQuant
