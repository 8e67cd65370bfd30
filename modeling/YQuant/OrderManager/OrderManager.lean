/-
# The order server

`exchange/order_manager/order_manager.h`, `order_manager.cc` and `FIFOSequencer.h`.  The thread of
the order server reads its sockets, publishes what it has accepted to the queue of the matcher, and
sends the responses of the matcher to the sockets of their clients.

`incomingRequest` holds everything that was ever written to the queue of the matcher.  The turns of
the thread (`OrderManagerEvent`) may come in any order here; `run` of the source is one of them.

`std::ranges::sort` is not stable: it may return any permutation of the pending requests in which
the receive times do not decrease (`ReceiveTimeSort`).

A run is a list of events, and `log` is what it has received: for each record the socket it came on
and whether it was accepted.  Most results about the server are relations between its log and its
state, and `log_inv` is the rule for them: a relation survives a run if it survives a record, a
change of a buffer, a publication and a response.

A record of a client outside the tables indexes them past their end, and one record too many for
the sequencer ends the process; both are errors here.  What a request asks for is not looked at
anywhere (`Validation.lean`).
-/
import YQuant.Lib.Run
import YQuant.Lib.UnstableSort
import YQuant.OrderManager.Wire
import YQuant.TCPSocket

namespace YQuant

/-! ## 1. The sequencer -/

def kMaxPendingRequests : Nat := 1024

structure TimestampedClientRequest where
  receiveTime : Int
  request : MatchingEngineClientRequest
deriving DecidableEq, Repr

/-- What `std::ranges::sort` with the projection `receive_time` promises. -/
abbrev ReceiveTimeSort := SortBy TimestampedClientRequest.receiveTime

structure FIFOSequencer where
  /-- The first `pendingSize` of them. -/
  pendingClientRequests : List TimestampedClientRequest
  incomingRequest : List MatchingEngineClientRequest

namespace FIFOSequencer

def addClientRequest (q : FIFOSequencer) (rxTime : Int) (request : MatchingEngineClientRequest) :
    Except Fault FIFOSequencer :=
  if kMaxPendingRequests ≤ q.pendingClientRequests.length then
    .error (.fatal "To many pending requests ")
  else .ok { q with pendingClientRequests := q.pendingClientRequests ++ [⟨rxTime, request⟩] }

def sequenceAndPublish (q : FIFOSequencer) (ranges : ReceiveTimeSort) : FIFOSequencer :=
  ⟨[], q.incomingRequest ++
    (ranges.sort q.pendingClientRequests).map TimestampedClientRequest.request⟩

end FIFOSequencer

/-! ## 2. The callbacks -/

structure OrderManager where
  cidNextOutgoingSeqNum : Nat → Nat
  cidNextExpSeqNum : Nat → Nat
  cidTcpSocketMap : Nat → Option Nat
  fifoSequencer : FIFOSequencer
  /-- The sockets of `tcpServer`; one that has not been accepted yet has empty buffers. -/
  recvSockets : Nat → TCPSocket

/-- A record, the socket it arrived on and the receive time of the read that completed it. -/
structure Arrival where
  socket : Nat
  rxTime : Int
  record : OrderManagerClientRequest
deriving DecidableEq, Repr

namespace Arrival

def request (a : Arrival) : MatchingEngineClientRequest := a.record.matchingEngineClientRequest

def clientId (a : Arrival) : Nat := a.request.clientId

/-- What the sequencer keeps of it. -/
def timestamped (a : Arrival) : TimestampedClientRequest := ⟨a.rxTime, a.request⟩

end Arrival

namespace OrderManager

def init : OrderManager := ⟨fun _ => 1, fun _ => 1, fun _ => none, ⟨[], []⟩, fun _ => .init⟩

def setSocket (m : OrderManager) (socket : Nat) (t : TCPSocket) : OrderManager :=
  { m with recvSockets := Function.update m.recvSockets socket t }

/-- The first message from a client binds it to its socket. -/
def bindSocket (m : OrderManager) (a : Arrival) : OrderManager :=
  match m.cidTcpSocketMap a.clientId with
  | none =>
    { m with cidTcpSocketMap := Function.update m.cidTcpSocketMap a.clientId (some a.socket) }
  | some _ => m

/-- The loop body of `recvCallback`. -/
def receiveRequest (m : OrderManager) (a : Arrival) : Except Fault OrderManager :=
  if a.clientId < kMaxNumClients then
    let m := m.bindSocket a
    if m.cidTcpSocketMap a.clientId ≠ some a.socket then .ok m
    else if a.record.seqNum ≠ m.cidNextExpSeqNum a.clientId then .ok m
    else do
      let expected := add64 (m.cidNextExpSeqNum a.clientId) 1
      let q ← m.fifoSequencer.addClientRequest a.rxTime a.request
      .ok { m with
        cidNextExpSeqNum := Function.update m.cidNextExpSeqNum a.clientId expected
        fifoSequencer := q }
  else .error .outOfBounds

/-- The complete records in the receive buffer of a socket. -/
def arrivals (m : OrderManager) (socket : Nat) (rxTime : Int) : List Arrival :=
  (orderManagerClientRequestCodec.frames (m.recvSockets socket).inboundData).map
    fun r => ⟨socket, rxTime, r⟩

/-- `recvCallback`.  The records are taken off the front of the buffer; what is moved there is
shorter than a record, so source and target of the `memcpy` do not overlap. -/
def recvCallback (m : OrderManager) (socket : Nat) (rxTime : Int) : Except Fault OrderManager := do
  let t := m.recvSockets socket
  if orderManagerClientRequestCodec.size ≤ t.inboundData.length then
    let m ← (m.arrivals socket rxTime).foldlM receiveRequest m
    .ok (m.setSocket socket (t.keep (orderManagerClientRequestCodec.rest t.inboundData)))
  else .ok m

def recvFinishedCallback (m : OrderManager) (ranges : ReceiveTimeSort) : OrderManager :=
  { m with fifoSequencer := m.fifoSequencer.sequenceAndPublish ranges }

/-- `recvmsg` on a socket. -/
def recvmsg (m : OrderManager) (socket : Nat) (data : List UInt8) : OrderManager :=
  m.setSocket socket ((m.recvSockets socket).recvmsg data)

/-- `TCPSocket::sendAndRecv` of a socket, when the kernel has `available` for it. -/
def sendAndRecv (m : OrderManager) (socket : Nat) (available : List UInt8) (rxTime : Int) :
    Except Fault OrderManager := do
  let data := (m.recvSockets socket).readable available
  let m ← if data = [] then .ok m else (m.recvmsg socket data).recvCallback socket rxTime
  .ok (m.setSocket socket (m.recvSockets socket).flush)

/-- The loop body of `run`: the number goes out before the response. -/
def sendResponse (m : OrderManager) (r : MatchingEngineClientResponse) :
    Except Fault OrderManager :=
  if r.clientId < kMaxNumClients then
    match m.cidTcpSocketMap r.clientId with
    | none => .error (.assertion ("Dont have a TCPSocket for ClientId:" ++ toString r.clientId))
    | some socket => do
      let nextOutgoingSeqNum := m.cidNextOutgoingSeqNum r.clientId
      let t ← (m.recvSockets socket).send (sizeCodec.encode nextOutgoingSeqNum)
      let t ← t.send (clientResponseCodec.encode r)
      .ok { m with
        recvSockets := Function.update m.recvSockets socket t
        cidNextOutgoingSeqNum :=
          Function.update m.cidNextOutgoingSeqNum r.clientId (add64 nextOutgoingSeqNum 1) }
  else .error .outOfBounds

end OrderManager

/-! ## 3. The thread -/

inductive OrderManagerEvent where
  /-- The turn of a socket in `TCPServer::sendAndRecv`. -/
  | sendAndRecv (socket : Nat) (available : List UInt8) (rxTime : Int)
  /-- The end of a pass over the sockets. -/
  | recvFinished (ranges : ReceiveTimeSort)
  /-- A response taken from the queue of the matcher. -/
  | sendResponse (response : MatchingEngineClientResponse)

namespace OrderManager

def step (m : OrderManager) : OrderManagerEvent → Except Fault OrderManager
  | .sendAndRecv socket available rxTime => m.sendAndRecv socket available rxTime
  | .recvFinished ranges => .ok (m.recvFinishedCallback ranges)
  | .sendResponse response => m.sendResponse response

def run (events : List OrderManagerEvent) : Except Fault OrderManager := events.foldlM step init

/-! ## 4. What the callbacks do -/

section Callbacks

variable {m m' : OrderManager} {a : Arrival}

@[simp] theorem bindSocket_expected : (m.bindSocket a).cidNextExpSeqNum = m.cidNextExpSeqNum := by
  unfold bindSocket
  split <;> rfl

@[simp] theorem bindSocket_outgoing :
    (m.bindSocket a).cidNextOutgoingSeqNum = m.cidNextOutgoingSeqNum := by
  unfold bindSocket
  split <;> rfl

@[simp] theorem bindSocket_fifo : (m.bindSocket a).fifoSequencer = m.fifoSequencer := by
  unfold bindSocket
  split <;> rfl

@[simp] theorem bindSocket_sockets : (m.bindSocket a).recvSockets = m.recvSockets := by
  unfold bindSocket
  split <;> rfl

/-- A client is bound once. -/
theorem bindSocket_map : (m.bindSocket a).cidTcpSocketMap =
    Function.update m.cidTcpSocketMap a.clientId
      (some ((m.cidTcpSocketMap a.clientId).getD a.socket)) := by
  unfold bindSocket
  split
  · next h => rw [h]; rfl
  · next socket h => rw [h, Option.getD_some, ← h, Function.update_eq_self]

/-- The record comes from the socket of its client and carries the number expected of it. -/
def accepts (m : OrderManager) (a : Arrival) : Bool :=
  decide ((m.bindSocket a).cidTcpSocketMap a.clientId = some a.socket ∧
    a.record.seqNum = m.cidNextExpSeqNum a.clientId)

/-- What accepting a record does. -/
def acceptRecord (m : OrderManager) (a : Arrival) : OrderManager :=
  { m.bindSocket a with
    cidNextExpSeqNum := Function.update m.cidNextExpSeqNum a.clientId
      (add64 (m.cidNextExpSeqNum a.clientId) 1)
    fifoSequencer := { m.fifoSequencer with
      pendingClientRequests := m.fifoSequencer.pendingClientRequests ++ [a.timestamped] } }

/-- **A record** is accepted or only binds its client. -/
theorem receiveRequest_eq (hclient : a.clientId < kMaxNumClients) : m.receiveRequest a =
    if m.accepts a then
      if kMaxPendingRequests ≤ m.fifoSequencer.pendingClientRequests.length then
        .error (.fatal "To many pending requests ")
      else .ok (m.acceptRecord a)
    else .ok (m.bindSocket a) := by
  unfold receiveRequest accepts
  rw [if_pos hclient]
  simp only [bindSocket_expected, bindSocket_fifo, decide_eq_true_eq]
  by_cases hsocket : (m.bindSocket a).cidTcpSocketMap a.clientId = some a.socket
  · by_cases hseq : a.record.seqNum = m.cidNextExpSeqNum a.clientId
    · rw [if_neg (not_not.mpr hsocket), if_neg (not_not.mpr hseq), if_pos ⟨hsocket, hseq⟩,
        FIFOSequencer.addClientRequest]
      split <;> rfl
    · rw [if_neg (not_not.mpr hsocket), if_pos hseq, if_neg fun h => hseq h.2]
  · rw [if_pos hsocket, if_neg fun h => hsocket h.1]

theorem receiveRequest_cases (h : m.receiveRequest a = .ok m') :
    a.clientId < kMaxNumClients ∧
      (m.accepts a = true ∧ m.fifoSequencer.pendingClientRequests.length < kMaxPendingRequests ∧
          m' = m.acceptRecord a ∨
        m.accepts a = false ∧ m' = m.bindSocket a) := by
  have hclient : a.clientId < kMaxNumClients := by
    by_contra hge
    rw [receiveRequest, if_neg hge] at h
    cases h
  rw [receiveRequest_eq hclient] at h
  refine ⟨hclient, ?_⟩
  split at h
  · next haccepts =>
    split at h
    · cases h
    · next hroom =>
      cases h
      exact .inl ⟨haccepts, Nat.not_le.mp hroom, rfl⟩
  · next hnot =>
    cases h
    exact .inr ⟨Bool.eq_false_of_not_eq_true hnot, rfl⟩

/-- The records do not touch the buffers. -/
theorem receiveRequests_sockets {as : List Arrival} (h : as.foldlM receiveRequest m = .ok m') :
    m'.recvSockets = m.recvSockets := by
  induction as generalizing m with
  | nil => cases h; rfl
  | cons a as ih =>
    obtain ⟨m₁, hfirst, hrest⟩ := Run.foldlM_cons_ok.mp h
    rw [ih hrest]
    obtain ⟨-, ⟨-, -, rfl⟩ | ⟨-, rfl⟩⟩ := receiveRequest_cases hfirst <;> exact bindSocket_sockets

/-- Records that go through name clients of the tables. -/
theorem receiveRequests_clients {as : List Arrival} (h : as.foldlM receiveRequest m = .ok m') :
    ∀ a ∈ as, a.clientId < kMaxNumClients := by
  induction as generalizing m with
  | nil => exact fun _ ha => absurd ha List.not_mem_nil
  | cons a as ih =>
    obtain ⟨m₁, hfirst, hrest⟩ := Run.foldlM_cons_ok.mp h
    exact List.forall_mem_cons.mpr ⟨(receiveRequest_cases hfirst).1, ih hrest⟩

/-- The records touch no counter of responses. -/
theorem receiveRequests_outgoing {as : List Arrival} (h : as.foldlM receiveRequest m = .ok m') :
    m'.cidNextOutgoingSeqNum = m.cidNextOutgoingSeqNum := by
  induction as generalizing m with
  | nil => cases h; rfl
  | cons a as ih =>
    obtain ⟨m₁, hfirst, hrest⟩ := Run.foldlM_cons_ok.mp h
    rw [ih hrest]
    obtain ⟨-, ⟨-, -, rfl⟩ | ⟨-, rfl⟩⟩ := receiveRequest_cases hfirst <;> exact bindSocket_outgoing

/-- The records that a read of a socket completes. -/
def arrived (m : OrderManager) (socket : Nat) (available : List UInt8) (rxTime : Int) :
    List Arrival :=
  let data := (m.recvSockets socket).readable available
  if data = [] then [] else (m.recvmsg socket data).arrivals socket rxTime

theorem socket_of_mem_arrived {socket : Nat} {available : List UInt8} {rxTime : Int}
    (h : a ∈ m.arrived socket available rxTime) : a.socket = socket := by
  unfold arrived at h
  dsimp only at h
  split at h
  · cases h
  · obtain ⟨r, -, rfl⟩ := List.mem_map.mp h
    rfl

/-- What a read leaves in the receive buffer of a socket. -/
def remainder (m : OrderManager) (socket : Nat) (available : List UInt8) : List UInt8 :=
  let t := m.recvSockets socket
  let data := t.readable available
  if data = [] then t.inboundData
  else orderManagerClientRequestCodec.rest (t.inboundData ++ data)

/-- A buffer that is shorter than a record: what a read completes is cut from it and what is read.
-/
theorem arrived_of_short {socket : Nat} (available : List UInt8) (hshort :
    (m.recvSockets socket).inboundData.length < orderManagerClientRequestCodec.size)
    (rxTime : Int) :
    m.arrived socket available rxTime = (orderManagerClientRequestCodec.frames
        ((m.recvSockets socket).inboundData ++ (m.recvSockets socket).readable available)).map
          (fun r => ⟨socket, rxTime, r⟩) ∧
      m.remainder socket available = orderManagerClientRequestCodec.rest
        ((m.recvSockets socket).inboundData ++ (m.recvSockets socket).readable available) := by
  unfold arrived remainder
  dsimp only
  split
  · next hnil =>
    obtain ⟨hframes, hrest⟩ := Codec.frames_of_lt hshort
    rw [hnil, List.append_nil, hframes, hrest]
    exact ⟨rfl, rfl⟩
  · rw [arrivals, recvmsg, setSocket]
    dsimp only
    rw [Function.update_self]
    exact ⟨rfl, rfl⟩

/-- The check at the top of `recvCallback` changes nothing: a shorter buffer has no records. -/
theorem recvCallback_eq (m : OrderManager) (socket : Nat) (rxTime : Int) :
    m.recvCallback socket rxTime =
      ((m.arrivals socket rxTime).foldlM receiveRequest m >>= fun m₁ =>
        .ok (m₁.setSocket socket ((m.recvSockets socket).keep
          (orderManagerClientRequestCodec.rest (m.recvSockets socket).inboundData)))) := by
  unfold recvCallback
  dsimp only
  split
  · rfl
  · next hlt =>
    obtain ⟨hframes, hrest⟩ := Codec.frames_of_lt (Nat.not_le.mp hlt)
    rw [arrivals, hframes, hrest]
    change _ = Except.ok { m with recvSockets := Function.update m.recvSockets socket _ }
    rw [TCPSocket.keep, Function.update_eq_self]

/-- **A turn of a socket**: the records it completes, one after the other. -/
theorem sendAndRecv_eq (m : OrderManager) (socket : Nat) (available : List UInt8) (rxTime : Int) :
    m.sendAndRecv socket available rxTime =
      ((m.arrived socket available rxTime).foldlM receiveRequest
        (m.recvmsg socket ((m.recvSockets socket).readable available)) >>= fun m₁ =>
          .ok (m₁.setSocket socket ⟨m.remainder socket available, []⟩)) := by
  unfold sendAndRecv arrived remainder
  dsimp only
  split
  · next hdata =>
    rw [hdata]
    change Except.ok _ = Except.ok _
    rw [recvmsg, setSocket, setSocket, setSocket, Function.update_idem]
    rfl
  · rw [recvCallback_eq]
    cases hrun : ((m.recvmsg socket ((m.recvSockets socket).readable available)).arrivals socket
        rxTime).foldlM receiveRequest
        (m.recvmsg socket ((m.recvSockets socket).readable available)) with
    | error e => rfl
    | ok m₁ =>
      simp only [ok_bind, setSocket, recvmsg, Function.update_idem, Function.update_self,
        TCPSocket.keep, TCPSocket.flush, TCPSocket.recvmsg]

theorem sendAndRecv_cases {socket : Nat} {available : List UInt8} {rxTime : Int}
    (h : m.sendAndRecv socket available rxTime = .ok m') :
    ∃ m₁, (m.arrived socket available rxTime).foldlM receiveRequest
        (m.recvmsg socket ((m.recvSockets socket).readable available)) = .ok m₁ ∧
      m' = m₁.setSocket socket ⟨m.remainder socket available, []⟩ := by
  rw [sendAndRecv_eq] at h
  cases hrun : (m.arrived socket available rxTime).foldlM receiveRequest
      (m.recvmsg socket ((m.recvSockets socket).readable available)) with
  | error e => rw [hrun] at h; cases h
  | ok m₁ =>
    rw [hrun] at h
    cases h
    exact ⟨m₁, rfl, rfl⟩

/-- A read of whole records. -/
theorem arrived_encodeAll {socket : Nat} (hempty : (m.recvSockets socket).inboundData = [])
    {rs : List OrderManagerClientRequest}
    (hrs : ∀ r ∈ rs, orderManagerClientRequestCodec.Representable r)
    (hfit : (orderManagerClientRequestCodec.encodeAll rs).length ≤ TCPBufferSize) (rxTime : Int) :
    m.arrived socket (orderManagerClientRequestCodec.encodeAll rs) rxTime =
        rs.map (fun r => ⟨socket, rxTime, r⟩) ∧
      m.remainder socket (orderManagerClientRequestCodec.encodeAll rs) = [] := by
  have hdata : (m.recvSockets socket).readable (orderManagerClientRequestCodec.encodeAll rs) =
      orderManagerClientRequestCodec.encodeAll rs := by
    rw [TCPSocket.readable, hempty, List.take_of_length_le]
    exact hfit
  obtain ⟨hframes, hrest⟩ :=
    Codec.frames_encodeAll (c := orderManagerClientRequestCodec) (by decide)
    hrs
  unfold arrived remainder
  dsimp only
  rw [hdata, hempty]
  split
  · next hnil =>
    rw [hnil, (Codec.frames_of_lt (by decide)).1] at hframes
    rw [← hframes]
    exact ⟨rfl, rfl⟩
  · rw [arrivals, recvmsg, setSocket]
    dsimp only
    rw [Function.update_self, TCPSocket.recvmsg, hempty, List.nil_append, hframes]
    exact ⟨rfl, hrest⟩

/-- A read of one whole record. -/
theorem arrived_encode {socket : Nat} (hempty : (m.recvSockets socket).inboundData = [])
    {r : OrderManagerClientRequest} (hr : orderManagerClientRequestCodec.Representable r)
    (rxTime : Int) :
    m.arrived socket (orderManagerClientRequestCodec.encode r) rxTime = [⟨socket, rxTime, r⟩] ∧
      m.remainder socket (orderManagerClientRequestCodec.encode r) = [] := by
  have hread := arrived_encodeAll hempty (List.forall_mem_singleton.mpr hr)
    (by rw [Codec.length_encodeAll]; exact (by decide : 1 * 38 ≤ TCPBufferSize)) rxTime
  rwa [Codec.encodeAll, List.flatMap_singleton] at hread

/-- **A response** is queued on the socket of its client, behind its number. -/
theorem sendResponse_cases {r : MatchingEngineClientResponse} (h : m.sendResponse r = .ok m') :
    r.clientId < kMaxNumClients ∧ ∃ socket, m.cidTcpSocketMap r.clientId = some socket ∧
      m' = { m with
        recvSockets := Function.update m.recvSockets socket ⟨(m.recvSockets socket).inboundData,
          (m.recvSockets socket).outboundData ++
            orderManagerClientResponseCodec.encode ⟨m.cidNextOutgoingSeqNum r.clientId, r⟩⟩
        cidNextOutgoingSeqNum := Function.update m.cidNextOutgoingSeqNum r.clientId
          (add64 (m.cidNextOutgoingSeqNum r.clientId) 1) } := by
  unfold sendResponse at h
  dsimp only at h
  split at h
  · next hclient =>
    refine ⟨hclient, ?_⟩
    split at h
    · cases h
    · next socket hsocket =>
      obtain ⟨t, hnumber, h⟩ := bind_ok h
      obtain ⟨t', hbody, h⟩ := bind_ok h
      cases h
      refine ⟨socket, hsocket, ?_⟩
      rw [TCPSocket.send_ok hbody, TCPSocket.send_ok hnumber, List.append_assoc]
      rfl
  · cases h

/-- **The server answers** exactly if the client of the response is bound and the outbound buffer
of its socket has room. -/
theorem sendResponse_ok_iff {r : MatchingEngineClientResponse} : (∃ m', m.sendResponse r = .ok m') ↔
    r.clientId < kMaxNumClients ∧ ∃ socket, m.cidTcpSocketMap r.clientId = some socket ∧
      (m.recvSockets socket).outboundData.length + orderManagerClientResponseCodec.size ≤
        TCPBufferSize := by
  have hsize : orderManagerClientResponseCodec.size = sizeCodec.size + clientResponseCodec.size :=
    rfl
  constructor
  · rintro ⟨m', h⟩
    obtain ⟨hclient, socket, hsocket, -⟩ := sendResponse_cases h
    refine ⟨hclient, socket, hsocket, ?_⟩
    unfold sendResponse at h
    rw [if_pos hclient, hsocket] at h
    obtain ⟨t, hnumber, h⟩ := bind_ok h
    obtain ⟨t', hbody, -⟩ := bind_ok h
    have hroom := TCPSocket.send_room hbody
    rwa [TCPSocket.send_ok hnumber, List.length_append, sizeCodec.length_encode,
      clientResponseCodec.length_encode, Nat.add_assoc, ← hsize] at hroom
  · rintro ⟨hclient, socket, hsocket, hroom⟩
    have hnumber := sizeCodec.length_encode (m.cidNextOutgoingSeqNum r.clientId)
    have hbody := clientResponseCodec.length_encode r
    unfold sendResponse TCPSocket.send
    rw [if_pos hclient, hsocket]
    dsimp only
    rw [if_pos (by omega), ok_bind]
    dsimp only
    rw [if_pos (by rw [List.length_append]; omega), ok_bind]
    exact ⟨_, rfl⟩

end Callbacks

/-! ## 5. The log of a run -/

/-- A record that arrived, and whether it was accepted. -/
structure Delivery where
  arrival : Arrival
  accepted : Bool
deriving DecidableEq, Repr

/-- The arrivals of a log. -/
def arrivalsOf (log : List Delivery) : List Arrival := log.map Delivery.arrival

/-- The accepted ones among them. -/
def acceptedOf (log : List Delivery) : List Arrival :=
  (log.filter Delivery.accepted).map Delivery.arrival

/-- The records that a turn of the thread receives. -/
def deliveries (m : OrderManager) : OrderManagerEvent → List Delivery
  | .sendAndRecv socket available rxTime =>
    Run.emitted receiveRequest (fun m a => [⟨a, m.accepts a⟩])
      (m.recvmsg socket ((m.recvSockets socket).readable available))
      (m.arrived socket available rxTime)
  | .recvFinished _ | .sendResponse _ => []

/-- The records that the turns of a run receive, from a given state on. -/
def log (m : OrderManager) (events : List OrderManagerEvent) : List Delivery :=
  Run.emitted step deliveries m events

@[simp] theorem arrivalsOf_append (l l' : List Delivery) :
    arrivalsOf (l ++ l') = arrivalsOf l ++ arrivalsOf l' := List.map_append

@[simp] theorem acceptedOf_append (l l' : List Delivery) :
    acceptedOf (l ++ l') = acceptedOf l ++ acceptedOf l' := by
  simp only [acceptedOf, List.filter_append, List.map_append]

@[simp] theorem acceptedOf_accepted (a : Arrival) : acceptedOf [⟨a, true⟩] = [a] := rfl

@[simp] theorem acceptedOf_rejected (a : Arrival) : acceptedOf [⟨a, false⟩] = [] := rfl

theorem arrival_of_mem_deliveries {m : OrderManager} {socket : Nat} {available : List UInt8}
    {rxTime : Int} {d : Delivery} (h : d ∈ m.deliveries (.sendAndRecv socket available rxTime)) :
    d.arrival ∈ m.arrived socket available rxTime := by
  obtain ⟨a, ha, s, hd⟩ := Run.mem_emitted h
  rwa [List.mem_singleton.mp hd]

/-- **A relation between log and state** survives a run if it survives a record, a change of a
buffer, a publication and a response. -/
theorem log_inv {I : List Delivery → OrderManager → Prop} {pre : OrderManagerEvent → Prop}
    (hsocket : ∀ l m socket t, I l m → I l (m.setSocket socket t))
    (hrequest : ∀ l m a m', I l m → m.receiveRequest a = .ok m' → I (l ++ [⟨a, m.accepts a⟩]) m')
    (hfinished : ∀ l m ranges, I l m → pre (.recvFinished ranges) →
      I l (m.recvFinishedCallback ranges))
    (hresponse : ∀ l m r m', I l m → m.sendResponse r = .ok m' → I l m')
    {events : List OrderManagerEvent} {l : List Delivery} {m m' : OrderManager} (h : I l m)
    (hpre : ∀ e ∈ events, pre e) (hrun : events.foldlM step m = .ok m') :
    I (l ++ log m events) m' := by
  refine Run.foldlM_emitted_inv (fun l m e m' h hpre hstep => ?_) h hpre hrun
  cases e with
  | sendAndRecv socket available rxTime =>
    obtain ⟨m₁, hrequests, rfl⟩ := sendAndRecv_cases hstep
    exact hsocket _ _ _ _ (Run.foldlM_emitted_inv
      (fun l m a m' h (_ : True) => hrequest l m a m' h) (hsocket _ _ _ _ h)
      (fun _ _ => trivial) hrequests)
  | recvFinished ranges =>
    cases hstep
    rw [deliveries, List.append_nil]
    exact hfinished l m ranges h hpre
  | sendResponse r =>
    rw [deliveries, List.append_nil]
    exact hresponse l m r m' h hstep

end OrderManager

end YQuant
