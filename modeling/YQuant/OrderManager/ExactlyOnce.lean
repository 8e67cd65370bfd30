/-
# Requests and responses between the gateways and the order server

Any number of clients, each connected to the order server through its own gateway; other sockets may
send anything that names none of them.  TCP delivers the bytes in order and in pieces of any length.
Four counters for each client have to stay in step, and they do: of every client, the requests that
have been accepted and those on the way make up the requests sent, in order, and likewise the
responses (`always_delivers`).

That is worth something only as long as the processes go on, and the order server does not always
go on: the sequencer ends the process when more than `kMaxPendingRequests` requests are accepted in
one pass over the sockets, a single read can deliver that many, and then none of them reaches the
matcher (`not_exactly_once`).  What a step needs to go through can be said of the state before it
(`Fits`), and the runs that go through and deliver exactly once are those whose steps all fit
(`exactly_once`).

The socket on which the gateway of client `c` arrives at the server has the number `c` here.
-/
import YQuant.OrderManager.Bursts

namespace YQuant

open NumberedStream OrderGateway

/-! ## 1. The system -/

/-- The server, the gateways and the bytes between them, with the history of what the trade engines
have enqueued, what was taken from the response queue and what arrived at the server. -/
structure OrderSystem where
  server : OrderManager
  gateways : Nat → OrderGateway
  toServer : Nat → List UInt8
  toClient : Nat → List UInt8
  enqueued : Nat → List MatchingEngineClientRequest
  taken : List MatchingEngineClientResponse
  log : List OrderManager.Delivery

namespace OrderSystem

def init : OrderSystem :=
  ⟨.init, .init, fun _ => [], fun _ => [], fun _ => [], [], []⟩

/-- The trade engine of a client enqueues a request. -/
def enqueue (s : OrderSystem) (r : MatchingEngineClientRequest) : OrderSystem :=
  let c := r.clientId
  let g := s.gateways c
  { s with
    gateways := Function.update s.gateways c
      { g with outgoingRequests := g.outgoingRequests ++ [r] }
    enqueued := Function.update s.enqueued c (s.enqueued c ++ [r]) }

/-- The gateway of a client is replaced. -/
def setGateway (s : OrderSystem) (c : Nat) (g : OrderGateway) : OrderSystem :=
  { s with gateways := Function.update s.gateways c g }

/-- A turn of a gateway's socket, for which the kernel has `n` bytes: it reads what fits and hands
its outbound buffer to the kernel. -/
def gatewaySendAndRecv (s : OrderSystem) (c n : Nat) : OrderSystem :=
  let g := s.gateways c
  let available := (s.toClient c).take n
  { s with
    gateways := Function.update s.gateways c (g.sendAndRecv available)
    toClient := Function.update s.toClient c
      ((s.toClient c).drop (g.tcpSocket.readable available).length)
    toServer := Function.update s.toServer c (s.toServer c ++ g.tcpSocket.outboundData) }

/-- The server has made a turn. -/
def setServer (s : OrderSystem) (e : OrderManagerEvent) (server : OrderManager) : OrderSystem :=
  { s with server := server, log := s.log ++ s.server.deliveries e }

/-- What a turn of a client's socket at the server, for which the kernel has `n` bytes, takes from
the connection and puts on it. -/
def transfer (s : OrderSystem) (c n : Nat) : OrderSystem :=
  let t := s.server.recvSockets c
  { s with
    toServer := Function.update s.toServer c
      ((s.toServer c).drop (t.readable ((s.toServer c).take n)).length)
    toClient := Function.update s.toClient c (s.toClient c ++ t.outboundData) }

/-- What happens in the system. -/
inductive Event where
  /-- The trade engine of the client of the request enqueues it. -/
  | enqueue (request : MatchingEngineClientRequest)
  /-- The gateway of a client takes a request from its queue. -/
  | sendRequest (c : Nat)
  /-- A turn of a gateway's socket. -/
  | gatewaySendAndRecv (c n : Nat)
  /-- A turn of a client's socket at the server. -/
  | serverSendAndRecv (c n : Nat) (rxTime : Int)
  /-- A turn of any other socket. -/
  | otherSendAndRecv (socket : Nat) (available : List UInt8) (rxTime : Int)
  | recvFinished (ranges : ReceiveTimeSort)
  /-- A response is taken from the queue of the matcher. -/
  | sendResponse (response : MatchingEngineClientResponse)

def step (s : OrderSystem) : Event → Except Fault OrderSystem
  | .enqueue r => .ok (s.enqueue r)
  | .sendRequest c => do
    let g ← (s.gateways c).sendRequest
    .ok (s.setGateway c g)
  | .gatewaySendAndRecv c n => .ok (s.gatewaySendAndRecv c n)
  | .serverSendAndRecv c n rxTime => do
    let e := .sendAndRecv c ((s.toServer c).take n) rxTime
    let server ← s.server.step e
    .ok ((s.transfer c n).setServer e server)
  | .otherSendAndRecv socket available rxTime => do
    let e := .sendAndRecv socket available rxTime
    let server ← s.server.step e
    .ok (s.setServer e server)
  | .recvFinished ranges => do
    let server ← s.server.step (.recvFinished ranges)
    .ok (s.setServer (.recvFinished ranges) server)
  | .sendResponse r => do
    let server ← s.server.step (.sendResponse r)
    .ok { s.setServer (.sendResponse r) server with taken := s.taken ++ [r] }

/-- `clients` are the clients with a gateway; the records on other sockets name none of them. -/
def Allowed (clients : Nat → Prop) (s : OrderSystem) : Event → Prop
  | .enqueue r => clients r.clientId ∧ r.InRange
  | .sendRequest c => clients c
  | .gatewaySendAndRecv c _ => clients c
  | .serverSendAndRecv c _ _ => clients c
  | .otherSendAndRecv socket available rxTime => ¬ clients socket ∧
    ∀ a ∈ s.server.arrived socket available rxTime, ¬ clients a.clientId
  | .recvFinished _ => True
  | .sendResponse r => r.InRange

/-- **The step finds room.**  A read of the order server completes no more requests than the
sequencer has room for in this pass, and names no client outside the tables; a request or response
that is sent fits the outbound buffer of its socket, and a response is for a client that has been
heard from. -/
def Fits (s : OrderSystem) : Event → Prop
  | .enqueue _ | .gatewaySendAndRecv _ _ | .recvFinished _ => True
  | .sendRequest c => (s.gateways c).outgoingRequests = [] ∨
    (s.gateways c).tcpSocket.outboundData.length + orderManagerClientRequestCodec.size ≤
      TCPBufferSize
  | .serverSendAndRecv c n rxTime => s.server.ReadFits ⟨c, (s.toServer c).take n, rxTime⟩
  | .otherSendAndRecv socket available rxTime => s.server.ReadFits ⟨socket, available, rxTime⟩
  | .sendResponse r => r.clientId < kMaxNumClients ∧
    ∃ socket, s.server.cidTcpSocketMap r.clientId = some socket ∧
      (s.server.recvSockets socket).outboundData.length + orderManagerClientResponseCodec.size ≤
        TCPBufferSize

instance (clients : Nat → Prop) [DecidablePred clients] (s : OrderSystem) :
    ∀ e, Decidable (Allowed clients s e)
  | .enqueue _ => inferInstanceAs (Decidable (_ ∧ _))
  | .sendRequest c | .gatewaySendAndRecv c _ | .serverSendAndRecv c _ _ =>
    inferInstanceAs (Decidable (clients c))
  | .otherSendAndRecv _ _ _ => inferInstanceAs (Decidable (_ ∧ ∀ a ∈ (_ : List Arrival), _))
  | .recvFinished _ => isTrue trivial
  | .sendResponse r => inferInstanceAs (Decidable r.InRange)

/-! ## 2. The connection of one client -/

/-- What concerns one client. -/
structure Link where
  /-- Its socket at the server. -/
  socket : TCPSocket
  gateway : OrderGateway
  toServer : List UInt8
  toClient : List UInt8
  enqueued : List MatchingEngineClientRequest
  accepted : List MatchingEngineClientRequest
  taken : List MatchingEngineClientResponse
  nextOutgoingSeqNum : Nat

def link (s : OrderSystem) (c : Nat) : Link where
  socket := s.server.recvSockets c
  gateway := s.gateways c
  toServer := s.toServer c
  toClient := s.toClient c
  enqueued := s.enqueued c
  accepted := (OrderManager.acceptedFrom s.log c).map Arrival.request
  taken := s.taken.filter fun r => r.clientId = c
  nextOutgoingSeqNum := s.server.cidNextOutgoingSeqNum c

namespace Link

/-- The bytes of requests on the way: read by the server, in the network, and not yet sent. -/
def requestBytes (k : Link) : List UInt8 :=
  k.socket.inboundData ++ (k.toServer ++ k.gateway.tcpSocket.outboundData)

/-- The bytes of responses on the way. -/
def responseBytes (k : Link) : List UInt8 :=
  k.gateway.tcpSocket.inboundData ++ (k.toClient ++ k.socket.outboundData)

/-- **Nothing is lost, repeated or reordered** on a connection: what is not yet accepted or
forwarded is on the way, under the numbers that are expected of it. -/
structure ExactlyOnce (k : Link) : Prop where
  requests : ∃ sent, k.enqueued = sent ++ k.gateway.outgoingRequests ∧
    k.gateway.nextOutgoingSeqNum = (sent.length + 1) % kWord64 ∧
    InTransit orderManagerClientRequestCodec requestRecord k.requestBytes k.accepted sent
  responses : InTransit orderManagerClientResponseCodec responseRecord k.responseBytes
    k.gateway.incomingResponses k.taken
  forwarded : k.gateway.nextExpSeqNum = (k.gateway.incomingResponses.length + 1) % kWord64
  answered : k.nextOutgoingSeqNum = (k.taken.length + 1) % kWord64

/-- The messages of a connection belong to its client and fit their records. -/
structure Proper (k : Link) (c : Nat) : Prop where
  gateway : k.gateway.clientId = c
  enqueued : ∀ r ∈ k.enqueued, r.clientId = c ∧ r.InRange
  taken : ∀ r ∈ k.taken, r.clientId = c ∧ r.InRange

variable {k : Link} {c n : Nat}

/-! ## 3. The steps of a connection -/

theorem ExactlyOnce.enqueue (h : k.ExactlyOnce) (r : MatchingEngineClientRequest) :
    ExactlyOnce { k with
      gateway := { k.gateway with outgoingRequests := k.gateway.outgoingRequests ++ [r] }
      enqueued := k.enqueued ++ [r] } := by
  obtain ⟨sent, henqueued, hnumber, htransit⟩ := h.requests
  exact ⟨⟨sent, by rw [henqueued, List.append_assoc], hnumber, htransit⟩, h.responses, h.forwarded,
    h.answered⟩

/-- The gateway numbers a request and sends it. -/
theorem ExactlyOnce.sendRequest {g : OrderGateway} (h : k.ExactlyOnce)
    (hsend : k.gateway.sendRequest = .ok g) : ExactlyOnce { k with gateway := g } := by
  obtain ⟨sent, henqueued, hnumber, htransit⟩ := h.requests
  rcases sendRequest_cases hsend with rfl | ⟨r, rest, hqueue, rfl⟩
  · exact h
  · have hsent := htransit.send r
    rw [requestBytes, List.append_assoc, List.append_assoc, requestRecord, ← hnumber] at hsent
    refine ⟨⟨sent ++ [r], ?_, ?_, hsent⟩, h.responses, h.forwarded, h.answered⟩
    · rw [henqueued, hqueue, List.append_assoc]
      rfl
    · rw [hnumber, List.length_append, List.length_singleton]
      exact add64_mod _ 1

/-- **The gateway reads**: what arrives is forwarded. -/
theorem ExactlyOnce.gatewaySendAndRecv (h : k.ExactlyOnce) (hproper : k.Proper c) (n : Nat) :
    ExactlyOnce { k with
      gateway := k.gateway.sendAndRecv (k.toClient.take n)
      toClient := k.toClient.drop (k.gateway.tcpSocket.readable (k.toClient.take n)).length
      toServer := k.toServer ++ k.gateway.tcpSocket.outboundData } := by
  obtain ⟨sent, henqueued, hnumber, htransit⟩ := h.requests
  have hsplit := k.gateway.tcpSocket.readable_append_drop k.toClient n
  have hrequests : k.requestBytes = k.socket.inboundData ++
      ((k.toServer ++ k.gateway.tcpSocket.outboundData) ++ []) := by
    rw [List.append_nil, requestBytes]
  rw [hrequests] at htransit
  by_cases hdata : k.gateway.tcpSocket.readable (k.toClient.take n) = []
  · rw [hdata, List.nil_append] at hsplit
    rw [sendAndRecv_nothing hdata, hdata]
    refine ⟨⟨sent, henqueued, hnumber, htransit⟩, ?_, h.forwarded, h.answered⟩
    rw [responseBytes, hsplit]
    exact h.responses
  · have hresponses := h.responses
    rw [responseBytes, ← hsplit, List.append_assoc, ← List.append_assoc] at hresponses
    obtain ⟨rs, hframes, hmem, htransit'⟩ := hresponses.receive (by decide)
      fun r hr m => (hproper.taken r hr).2.representable (Nat.mod_lt m (by decide))
    rw [sendAndRecv_inOrder hdata hframes
      (fun r hr => (hproper.taken r (hmem r hr)).1.trans hproper.gateway.symm) h.forwarded]
    refine ⟨⟨sent, henqueued, hnumber, htransit⟩, htransit', ?_, h.answered⟩
    rw [List.length_append, Nat.add_right_comm]

/-- The server hands its responses to the network. -/
theorem ExactlyOnce.serverFlush (h : k.ExactlyOnce) :
    ExactlyOnce { k with
      socket := ⟨k.socket.inboundData, []⟩
      toClient := k.toClient ++ k.socket.outboundData } := by
  have hresponses := h.responses
  rw [responseBytes, ← List.append_nil (k.toClient ++ _)] at hresponses
  exact ⟨h.requests, hresponses, h.forwarded, h.answered⟩

/-- **The server reads**: the records that are complete are the next requests of the client. -/
theorem ExactlyOnce.serverReceive (h : k.ExactlyOnce) (hproper : k.Proper c) (n : Nat) :
    ∃ rs, orderManagerClientRequestCodec.frames
        (k.socket.inboundData ++ k.socket.readable (k.toServer.take n)) =
          stamped requestRecord (k.accepted.length + 1) rs ∧
      (∀ r ∈ rs, r.clientId = c) ∧
      ExactlyOnce { k with
        socket := ⟨orderManagerClientRequestCodec.rest
          (k.socket.inboundData ++ k.socket.readable (k.toServer.take n)), k.socket.outboundData⟩
        toServer := k.toServer.drop (k.socket.readable (k.toServer.take n)).length
        accepted := k.accepted ++ rs } := by
  obtain ⟨sent, henqueued, hnumber, htransit⟩ := h.requests
  have hsplit := k.socket.readable_append_drop k.toServer n
  rw [requestBytes, ← hsplit, List.append_assoc, ← List.append_assoc] at htransit
  have hsent : ∀ r ∈ sent, r.clientId = c ∧ r.InRange := fun r hr =>
    hproper.enqueued r (by rw [henqueued]; exact List.mem_append_left _ hr)
  obtain ⟨rs, hframes, hmem, htransit'⟩ := htransit.receive (by decide)
    fun r hr m => (hsent r hr).2.representable (Nat.mod_lt m (by decide))
  exact ⟨rs, hframes, fun r hr => (hsent r (hmem r hr)).1,
    ⟨sent, henqueued, hnumber, htransit'⟩, h.responses, h.forwarded, h.answered⟩

/-- The server numbers a response and sends it. -/
theorem ExactlyOnce.sendResponse (h : k.ExactlyOnce) (r : MatchingEngineClientResponse) :
    ExactlyOnce { k with
      socket := ⟨k.socket.inboundData, k.socket.outboundData ++
        orderManagerClientResponseCodec.encode ⟨k.nextOutgoingSeqNum, r⟩⟩
      taken := k.taken ++ [r]
      nextOutgoingSeqNum := add64 k.nextOutgoingSeqNum 1 } := by
  have hresponses := h.responses.send r
  rw [responseBytes, List.append_assoc, List.append_assoc, responseRecord,
    ← h.answered] at hresponses
  refine ⟨h.requests, hresponses, h.forwarded, ?_⟩
  rw [h.answered, List.length_append, List.length_singleton]
  exact add64_mod _ 1

end Link

/-! ## 4. The steps of the system -/

section Server

variable {m m' : OrderManager} {c : Nat}

/-- **Records in order** from the socket of their client are all accepted. -/
theorem receiveRequests_inOrder {rxTime : Int} {rs : List MatchingEngineClientRequest} {n : Nat}
    (hclients : ∀ r ∈ rs, r.clientId = c) (hexpected : m.cidNextExpSeqNum c = n % kWord64)
    (hbound : (m.cidTcpSocketMap c).getD c = c)
    (hrun : ((stamped requestRecord n rs).map fun r => (⟨c, rxTime, r⟩ : Arrival)).foldlM
      OrderManager.receiveRequest m = .ok m') :
    Run.emitted OrderManager.receiveRequest (fun m a => [⟨a, m.accepts a⟩]) m
        ((stamped requestRecord n rs).map fun r => ⟨c, rxTime, r⟩) =
      (stamped requestRecord n rs).map
        fun r => (⟨⟨c, rxTime, r⟩, true⟩ : OrderManager.Delivery) := by
  induction rs generalizing n m with
  | nil => rfl
  | cons r rs ih =>
    rw [stamped, List.map_cons] at hrun
    obtain ⟨m₁, hfirst, hrest⟩ := Run.foldlM_cons_ok.mp hrun
    obtain rfl : r.clientId = c := hclients r List.mem_cons_self
    let a : Arrival := ⟨r.clientId, rxTime, requestRecord n r⟩
    have haccepts : m.accepts a = true :=
      OrderManager.accepts_next (a := a) rfl rfl hexpected hbound
    obtain ⟨-, ⟨-, -, rfl⟩ | ⟨hrejects, -⟩⟩ := OrderManager.receiveRequest_cases hfirst
    · obtain ⟨hexpected', hbound'⟩ := OrderManager.acceptRecord_next (a := a) rfl hexpected hbound
      rw [stamped, List.map_cons, Run.emitted_cons hfirst, haccepts, List.map_cons]
      exact congrArg _
        (ih (fun r' hr' => hclients r' (List.mem_cons_of_mem r hr')) hexpected' hbound' hrest)
    · rw [haccepts] at hrejects
      cases hrejects

end Server

/-- **What holds in every state.** -/
structure Inv (clients : Nat → Prop) (s : OrderSystem) : Prop where
  sessions : OrderManager.Sessions s.log s.server
  /-- The socket of a client with a gateway and its id belong together, and what arrived there was
  accepted. -/
  own : ∀ d ∈ s.log, clients d.arrival.socket ∨ clients d.arrival.clientId →
    d.arrival.clientId = d.arrival.socket ∧ d.accepted = true
  links : ∀ c, clients c → (s.link c).Proper c ∧ (s.link c).ExactlyOnce

section Steps

variable {clients : Nat → Prop} {s : OrderSystem} {c : Nat}

theorem Inv.init : Inv clients init where
  sessions := OrderManager.Sessions.init
  own _ hd := absurd hd List.not_mem_nil
  links _ _ := ⟨⟨rfl, fun _ hr => absurd hr List.not_mem_nil, fun _ hr =>
    absurd hr List.not_mem_nil⟩,
    ⟨[], rfl, rfl, InTransit.init⟩, InTransit.init, rfl, rfl⟩

/-- A client with a gateway is bound to its own socket, and nobody else is bound to it. -/
theorem Inv.own_socket (h : Inv clients s) {socket : Nat}
    (hmap : s.server.cidTcpSocketMap c = some socket) (hc : clients c ∨ clients socket) :
    socket = c := by
  rw [h.sessions.bound, OrderManager.firstSocket, Option.map_eq_some_iff] at hmap
  obtain ⟨a, hfind, rfl⟩ := hmap
  have hclient : a.clientId = c := by simpa using List.find?_some hfind
  obtain ⟨d, hd, rfl⟩ := List.mem_map.mp (List.mem_of_find?_eq_some hfind)
  rw [← hclient] at hc ⊢
  exact (h.own d hd hc.symm).1.symm

theorem acceptedFrom_other {l l' : List OrderManager.Delivery}
    (h : ∀ d ∈ l', d.arrival.clientId ≠ c) :
    OrderManager.acceptedFrom (l ++ l') c = OrderManager.acceptedFrom l c := by
  have hnone : OrderManager.acceptedFrom l' c = [] := by
    refine List.filter_eq_nil_iff.mpr fun a ha => ?_
    obtain ⟨d, hd, rfl⟩ := List.mem_map.mp ha
    simpa using h d (List.mem_of_mem_filter hd)
  rw [OrderManager.acceptedFrom_append, hnone, List.append_nil]

/-- A step of the server that concerns other clients. -/
theorem link_setServer {e : OrderManagerEvent} {server : OrderManager}
    (hsocket : server.recvSockets c = s.server.recvSockets c)
    (hnumber : server.cidNextOutgoingSeqNum c = s.server.cidNextOutgoingSeqNum c)
    (harrivals : ∀ d ∈ s.server.deliveries e, d.arrival.clientId ≠ c) :
    (s.setServer e server).link c = s.link c := by
  unfold link setServer
  dsimp only
  rw [hsocket, hnumber, acceptedFrom_other harrivals]

/-- The sockets and counters after a turn of a socket. -/
theorem sendAndRecv_frame {m m' : OrderManager} {socket : Nat} {available : List UInt8}
    {rxTime : Int} (hstep : m.step (.sendAndRecv socket available rxTime) = .ok m') :
    m'.recvSockets = Function.update m.recvSockets socket ⟨m.remainder socket available, []⟩ ∧
      m'.cidNextOutgoingSeqNum = m.cidNextOutgoingSeqNum := by
  obtain ⟨m₁, hrun, rfl⟩ := OrderManager.sendAndRecv_cases hstep
  have hsockets := OrderManager.receiveRequests_sockets hrun
  have houtgoing := OrderManager.receiveRequests_outgoing hrun
  simp only [OrderManager.recvmsg, OrderManager.setSocket] at hsockets houtgoing ⊢
  exact ⟨by rw [hsockets, Function.update_idem], houtgoing⟩

theorem Inv.enqueue (h : Inv clients s) {r : MatchingEngineClientRequest} (hr : r.InRange) :
    Inv clients (s.enqueue r) := by
  refine ⟨h.sessions, h.own, fun c' hc' => ?_⟩
  obtain ⟨hproper, honce⟩ := h.links c' hc'
  rcases eq_or_ne c' r.clientId with rfl | hne
  · have hlink : (s.enqueue r).link r.clientId = { s.link r.clientId with
        gateway := { s.gateways r.clientId with
          outgoingRequests := (s.gateways r.clientId).outgoingRequests ++ [r] }
        enqueued := s.enqueued r.clientId ++ [r] } := by
      unfold link OrderSystem.enqueue
      dsimp only
      rw [Function.update_self, Function.update_self]
    rw [hlink]
    refine ⟨⟨hproper.gateway, fun r' hr' => ?_, hproper.taken⟩, honce.enqueue r⟩
    rcases List.mem_append.mp hr' with hr' | hr'
    · exact hproper.enqueued r' hr'
    · rw [List.mem_singleton.mp hr']
      exact ⟨rfl, hr⟩
  · have hlink : (s.enqueue r).link c' = s.link c' := by
      unfold link OrderSystem.enqueue
      dsimp only
      rw [Function.update_of_ne hne, Function.update_of_ne hne]
    rw [hlink]
    exact ⟨hproper, honce⟩

theorem Inv.sendRequest (h : Inv clients s) {g : OrderGateway}
    (hsend : (s.gateways c).sendRequest = .ok g) : Inv clients (s.setGateway c g) := by
  refine ⟨h.sessions, h.own, fun c' hc' => ?_⟩
  obtain ⟨hproper, honce⟩ := h.links c' hc'
  rcases eq_or_ne c' c with rfl | hne
  · have hlink : (s.setGateway c' g).link c' = { s.link c' with gateway := g } := by
      unfold link setGateway
      dsimp only
      rw [Function.update_self]
    have hclient : g.clientId = (s.gateways c').clientId := by
      rcases sendRequest_cases hsend with rfl | ⟨r, rest, -, rfl⟩ <;> rfl
    rw [hlink]
    exact ⟨⟨hclient.trans hproper.gateway, hproper.enqueued, hproper.taken⟩,
      honce.sendRequest hsend⟩
  · have hlink : (s.setGateway c g).link c' = s.link c' := by
      unfold link setGateway
      dsimp only
      rw [Function.update_of_ne hne]
    rw [hlink]
    exact ⟨hproper, honce⟩

theorem Inv.gatewaySendAndRecv (h : Inv clients s) (c n : Nat) :
    Inv clients (s.gatewaySendAndRecv c n) := by
  refine ⟨h.sessions, h.own, fun c' hc' => ?_⟩
  obtain ⟨hproper, honce⟩ := h.links c' hc'
  rcases eq_or_ne c' c with rfl | hne
  · have hlink : (s.gatewaySendAndRecv c' n).link c' = { s.link c' with
        gateway := (s.gateways c').sendAndRecv ((s.toClient c').take n)
        toClient := (s.toClient c').drop
          ((s.gateways c').tcpSocket.readable ((s.toClient c').take n)).length
        toServer := s.toServer c' ++ (s.gateways c').tcpSocket.outboundData } := by
      unfold link OrderSystem.gatewaySendAndRecv
      dsimp only
      rw [Function.update_self, Function.update_self, Function.update_self]
    rw [hlink]
    refine ⟨⟨?_, hproper.enqueued, hproper.taken⟩, honce.gatewaySendAndRecv hproper n⟩
    exact (sendAndRecv_clientId _ _).trans hproper.gateway
  · have hlink : (s.gatewaySendAndRecv c n).link c' = s.link c' := by
      unfold link OrderSystem.gatewaySendAndRecv
      dsimp only
      rw [Function.update_of_ne hne, Function.update_of_ne hne, Function.update_of_ne hne]
    rw [hlink]
    exact ⟨hproper, honce⟩

theorem acceptedFrom_inOrder {rxTime : Int} {rs : List MatchingEngineClientRequest}
    (hclients : ∀ r ∈ rs, r.clientId = c) (n : Nat) :
    (OrderManager.acceptedFrom ((stamped requestRecord n rs).map
      fun r => (⟨⟨c, rxTime, r⟩, true⟩ : OrderManager.Delivery)) c).map Arrival.request = rs := by
  induction rs generalizing n with
  | nil => rfl
  | cons r rs ih =>
    have hclient : Arrival.clientId ⟨c, rxTime, requestRecord n r⟩ = c :=
      hclients r List.mem_cons_self
    rw [stamped, List.map_cons, ← List.singleton_append, OrderManager.acceptedFrom_append,
      OrderManager.acceptedFrom_accepted, if_pos hclient, List.map_append,
      ih fun r' hr' => hclients r' (List.mem_cons_of_mem r hr')]
    rfl

theorem Inv.expected (h : Inv clients s) (c : Nat) :
    s.server.cidNextExpSeqNum c = ((s.link c).accepted.length + 1) % kWord64 := by
  rw [h.sessions.expected, ← List.length_map Arrival.request]
  rfl

theorem Inv.bound (h : Inv clients s) (hc : clients c) :
    (s.server.cidTcpSocketMap c).getD c = c := by
  cases hmap : s.server.cidTcpSocketMap c with
  | none => rfl
  | some socket => exact h.own_socket hmap (.inl hc)

/-- The records that a turn of a client's socket completes. -/
theorem Inv.arrived (h : Inv clients s) (hc : clients c) (n : Nat) (rxTime : Int) :
    ∃ rs, s.server.arrived c ((s.toServer c).take n) rxTime =
        (stamped requestRecord ((s.link c).accepted.length + 1) rs).map
          (fun r => ⟨c, rxTime, r⟩) ∧
      (∀ r ∈ rs, r.clientId = c) ∧
      Link.ExactlyOnce { s.link c with
        socket := ⟨s.server.remainder c ((s.toServer c).take n),
          (s.server.recvSockets c).outboundData⟩
        toServer := (s.toServer c).drop
          ((s.server.recvSockets c).readable ((s.toServer c).take n)).length
        accepted := (s.link c).accepted ++ rs } := by
  obtain ⟨hproper, honce⟩ := h.links c hc
  unfold OrderManager.arrived OrderManager.remainder
  dsimp only
  split
  · next hdata =>
    refine ⟨[], rfl, fun r hr => absurd hr List.not_mem_nil, ?_⟩
    rw [hdata, List.append_nil]
    exact honce
  · obtain ⟨rs, hframes, hclients, honce'⟩ := honce.serverReceive hproper n
    refine ⟨rs, ?_, hclients, honce'⟩
    rw [OrderManager.arrivals, OrderManager.recvmsg, OrderManager.setSocket]
    dsimp only
    rw [Function.update_self]
    exact congrArg (List.map _) hframes

/-- **What a turn of a client's socket receives** is accepted. -/
theorem Inv.deliveries (h : Inv clients s) {n : Nat} {rxTime : Int} {server : OrderManager}
    (hc : clients c)
    (hserver : s.server.step (.sendAndRecv c ((s.toServer c).take n) rxTime) = .ok server) :
    ∃ rs, s.server.deliveries (.sendAndRecv c ((s.toServer c).take n) rxTime) =
        (stamped requestRecord ((s.link c).accepted.length + 1) rs).map
          (fun r => (⟨⟨c, rxTime, r⟩, true⟩ : OrderManager.Delivery)) ∧
      (∀ r ∈ rs, r.clientId = c) ∧
      Link.ExactlyOnce { s.link c with
        socket := ⟨s.server.remainder c ((s.toServer c).take n),
          (s.server.recvSockets c).outboundData⟩
        toServer := (s.toServer c).drop
          ((s.server.recvSockets c).readable ((s.toServer c).take n)).length
        accepted := (s.link c).accepted ++ rs } := by
  obtain ⟨rs, harrived, hclients, honce⟩ := h.arrived hc n rxTime
  obtain ⟨m₁, hrun, -⟩ := OrderManager.sendAndRecv_cases hserver
  refine ⟨rs, ?_, hclients, honce⟩
  rw [harrived] at hrun
  rw [OrderManager.deliveries, harrived]
  exact receiveRequests_inOrder hclients (h.expected c) (h.bound hc) hrun

/-- **The server reads from a client.** -/
theorem Inv.serverSendAndRecv (h : Inv clients s) {n : Nat} {rxTime : Int} {server : OrderManager}
    (hc : clients c)
    (hserver : s.server.step (.sendAndRecv c ((s.toServer c).take n) rxTime) = .ok server) :
    Inv clients
      ((s.transfer c n).setServer (.sendAndRecv c ((s.toServer c).take n) rxTime) server) := by
  obtain ⟨rs, hdeliveries, hclients, honce⟩ := h.deliveries hc hserver
  obtain ⟨hsockets, hnumber⟩ := sendAndRecv_frame hserver
  have hown : ∀ d ∈ s.server.deliveries (.sendAndRecv c ((s.toServer c).take n) rxTime),
      d.arrival.clientId = c ∧ d.arrival.socket = c ∧ d.accepted = true := by
    intro d hd
    rw [hdeliveries] at hd
    obtain ⟨r, hr, rfl⟩ := List.mem_map.mp hd
    obtain ⟨k, b, hb, rfl⟩ := mem_stamped hr
    exact ⟨hclients b hb, rfl, rfl⟩
  refine ⟨h.sessions.step hserver, fun d hd hnamed => ?_, fun c' hc' => ?_⟩
  · rcases List.mem_append.mp hd with hd | hd
    · exact h.own d hd hnamed
    · obtain ⟨hclient, hsocket, haccepted⟩ := hown d hd
      exact ⟨hclient.trans hsocket.symm, haccepted⟩
  · rcases eq_or_ne c' c with rfl | hne
    · have haccepted : (OrderManager.acceptedFrom (s.log ++ s.server.deliveries
          (.sendAndRecv c' ((s.toServer c').take n) rxTime)) c').map Arrival.request =
            (s.link c').accepted ++ rs := by
        rw [OrderManager.acceptedFrom_append, List.map_append, hdeliveries,
          acceptedFrom_inOrder hclients]
        rfl
      have hlink : ((s.transfer c' n).setServer
          (.sendAndRecv c' ((s.toServer c').take n) rxTime) server).link c' =
          { s.link c' with
            socket := ⟨s.server.remainder c' ((s.toServer c').take n), []⟩
            toServer := (s.toServer c').drop
              ((s.server.recvSockets c').readable ((s.toServer c').take n)).length
            toClient := s.toClient c' ++ (s.server.recvSockets c').outboundData
            accepted := (s.link c').accepted ++ rs } := by
        unfold link setServer transfer
        dsimp only
        rw [haccepted, hsockets, hnumber, Function.update_self, Function.update_self,
          Function.update_self]
        rfl
      obtain ⟨hproper, -⟩ := h.links c' hc'
      rw [hlink]
      exact ⟨⟨hproper.gateway, hproper.enqueued, hproper.taken⟩, honce.serverFlush⟩
    · have hlink : (s.transfer c n).link c' = s.link c' := by
        unfold link transfer
        dsimp only
        rw [Function.update_of_ne hne, Function.update_of_ne hne]
      rw [link_setServer (s := s.transfer c n), hlink]
      · exact h.links c' hc'
      · rw [hsockets, Function.update_of_ne hne]
        rfl
      · rw [hnumber]
        rfl
      · intro d hd heq
        exact hne (heq.symm.trans (hown d hd).1)

/-- The server reads from a socket that names no client with a gateway. -/
theorem Inv.otherSendAndRecv (h : Inv clients s) {socket : Nat} {available : List UInt8}
    {rxTime : Int} {server : OrderManager} (hsocket : ¬ clients socket)
    (hother : ∀ a ∈ s.server.arrived socket available rxTime, ¬ clients a.clientId)
    (hserver : s.server.step (.sendAndRecv socket available rxTime) = .ok server) :
    Inv clients (s.setServer (.sendAndRecv socket available rxTime) server) := by
  obtain ⟨hsockets, hnumber⟩ := sendAndRecv_frame hserver
  refine ⟨h.sessions.step hserver, fun d hd hnamed => ?_, fun c' hc' => ?_⟩
  · rcases List.mem_append.mp hd with hd | hd
    · exact h.own d hd hnamed
    · have harrival := OrderManager.arrival_of_mem_deliveries hd
      rw [OrderManager.socket_of_mem_arrived harrival] at hnamed
      exact absurd hnamed (not_or.mpr ⟨hsocket, hother _ harrival⟩)
  · have hne : c' ≠ socket := fun heq => hsocket (heq ▸ hc')
    rw [link_setServer]
    · exact h.links c' hc'
    · rw [hsockets, Function.update_of_ne hne]
    · rw [hnumber]
    · intro d hd heq
      exact hother _ (OrderManager.arrival_of_mem_deliveries hd) (heq ▸ hc')

theorem Inv.recvFinished (h : Inv clients s) (ranges : ReceiveTimeSort) :
    Inv clients (s.setServer (.recvFinished ranges) (s.server.recvFinishedCallback ranges)) := by
  refine ⟨h.sessions.step rfl, fun d hd hnamed => ?_, fun c' hc' => ?_⟩
  · rw [setServer, OrderManager.deliveries, List.append_nil] at hd
    exact h.own d hd hnamed
  · rw [link_setServer]
    · exact h.links c' hc'
    · rfl
    · rfl
    · exact fun d hd => absurd hd List.not_mem_nil

/-- What a response changes at the server. -/
theorem sendResponse_frame {m m' : OrderManager} {r : MatchingEngineClientResponse}
    (hstep : m.step (.sendResponse r) = .ok m') :
    ∃ socket, m.cidTcpSocketMap r.clientId = some socket ∧
      m'.recvSockets = Function.update m.recvSockets socket ⟨(m.recvSockets socket).inboundData,
        (m.recvSockets socket).outboundData ++ orderManagerClientResponseCodec.encode
          ⟨m.cidNextOutgoingSeqNum r.clientId, r⟩⟩ ∧
      m'.cidNextOutgoingSeqNum = Function.update m.cidNextOutgoingSeqNum r.clientId
        (add64 (m.cidNextOutgoingSeqNum r.clientId) 1) := by
  obtain ⟨-, socket, hmap, rfl⟩ := OrderManager.sendResponse_cases hstep
  exact ⟨socket, hmap, rfl, rfl⟩

/-- **The server answers**: the response goes to the gateway of its client and to nobody else. -/
theorem Inv.sendResponse (h : Inv clients s) {r : MatchingEngineClientResponse}
    {server : OrderManager} (hr : r.InRange)
    (hserver : s.server.step (.sendResponse r) = .ok server) :
    Inv clients { s.setServer (.sendResponse r) server with taken := s.taken ++ [r] } := by
  obtain ⟨socket, hmap, hsockets, hnumber⟩ := sendResponse_frame hserver
  refine ⟨h.sessions.step hserver, fun d hd hnamed => ?_, fun c' hc' => ?_⟩
  · rw [setServer, OrderManager.deliveries, List.append_nil] at hd
    exact h.own d hd hnamed
  · obtain ⟨hproper, honce⟩ := h.links c' hc'
    rcases eq_or_ne r.clientId c' with rfl | hne
    · obtain rfl := h.own_socket hmap (.inl hc')
      have htaken : (s.taken ++ [r]).filter (fun r' => r'.clientId = r.clientId) =
          (s.link r.clientId).taken ++ [r] := by
        rw [List.filter_append, List.filter_singleton, decide_eq_true rfl]
        rfl
      have hlink : link { s.setServer (.sendResponse r) server with taken := s.taken ++ [r] }
          r.clientId =
          { s.link r.clientId with
            socket := ⟨(s.server.recvSockets r.clientId).inboundData,
              (s.server.recvSockets r.clientId).outboundData ++
                orderManagerClientResponseCodec.encode
                  ⟨s.server.cidNextOutgoingSeqNum r.clientId, r⟩⟩
            taken := (s.link r.clientId).taken ++ [r]
            nextOutgoingSeqNum := add64 (s.server.cidNextOutgoingSeqNum r.clientId) 1 } := by
        unfold link setServer OrderManager.deliveries
        dsimp only
        rw [hsockets, hnumber, Function.update_self, Function.update_self, List.append_nil, htaken]
        rfl
      rw [hlink]
      refine ⟨⟨hproper.gateway, hproper.enqueued, fun r' hr' => ?_⟩, honce.sendResponse r⟩
      rcases List.mem_append.mp hr' with hr' | hr'
      · exact hproper.taken r' hr'
      · rw [List.mem_singleton.mp hr']
        exact ⟨rfl, hr⟩
    · have hsocket : c' ≠ socket := by
        rintro rfl
        exact hne (h.own_socket hmap (.inr hc')).symm
      have htaken : (s.taken ++ [r]).filter (fun r' => r'.clientId = c') = (s.link c').taken := by
        rw [List.filter_append, List.filter_singleton, decide_eq_false hne]
        exact List.append_nil _
      have hlink : link { s.setServer (.sendResponse r) server with taken := s.taken ++ [r] } c' =
          s.link c' := by
        unfold link setServer OrderManager.deliveries
        dsimp only
        rw [hsockets, hnumber, Function.update_of_ne hsocket, Function.update_of_ne (Ne.symm hne),
          List.append_nil, htaken]
        rfl
      rw [hlink]
      exact ⟨hproper, honce⟩

/-- **Every step keeps the invariant.** -/
theorem Inv.step {e : Event} {s' : OrderSystem} (h : Inv clients s) (he : Allowed clients s e)
    (hstep : s.step e = .ok s') : Inv clients s' := by
  cases e with
  | enqueue r =>
    cases hstep
    exact h.enqueue he.2
  | sendRequest c =>
    obtain ⟨g, hsend, hs'⟩ := bind_ok hstep
    cases hs'
    exact h.sendRequest hsend
  | gatewaySendAndRecv c n =>
    cases hstep
    exact h.gatewaySendAndRecv c n
  | serverSendAndRecv c n rxTime =>
    obtain ⟨server, hserver, hs'⟩ := bind_ok hstep
    cases hs'
    exact h.serverSendAndRecv he hserver
  | otherSendAndRecv socket available rxTime =>
    obtain ⟨server, hserver, hs'⟩ := bind_ok hstep
    cases hs'
    exact h.otherSendAndRecv he.1 he.2 hserver
  | recvFinished ranges =>
    cases hstep
    exact h.recvFinished ranges
  | sendResponse r =>
    obtain ⟨server, hserver, hs'⟩ := bind_ok hstep
    cases hs'
    exact h.sendResponse he hserver

/-- The sequencer holds no more than it has room for. -/
theorem step_pendingSize {e : Event} {s' : OrderSystem}
    (hroom : s.server.pendingSize ≤ kMaxPendingRequests) (hstep : s.step e = .ok s') :
    s'.server.pendingSize ≤ kMaxPendingRequests := by
  cases e with
  | enqueue r =>
    cases hstep
    exact hroom
  | sendRequest c =>
    obtain ⟨g, -, hs'⟩ := bind_ok hstep
    cases hs'
    exact hroom
  | gatewaySendAndRecv c n =>
    cases hstep
    exact hroom
  | serverSendAndRecv c n rxTime =>
    obtain ⟨server, hserver, hs'⟩ := bind_ok hstep
    cases hs'
    exact OrderManager.sendAndRecv_pendingSize
      (r := ⟨c, (s.toServer c).take n, rxTime⟩) hroom hserver
  | otherSendAndRecv socket available rxTime =>
    obtain ⟨server, hserver, hs'⟩ := bind_ok hstep
    cases hs'
    exact OrderManager.sendAndRecv_pendingSize (r := ⟨socket, available, rxTime⟩) hroom hserver
  | recvFinished ranges =>
    cases hstep
    exact Nat.zero_le _
  | sendResponse r =>
    obtain ⟨server, hserver, hs'⟩ := bind_ok hstep
    cases hs'
    obtain ⟨-, socket, -, rfl⟩ := OrderManager.sendResponse_cases hserver
    exact hroom

/-- **A step goes through** exactly if it fits. -/
theorem step_ok_iff (hroom : s.server.pendingSize ≤ kMaxPendingRequests) (e : Event) :
    (∃ s', s.step e = .ok s') ↔ s.Fits e := by
  cases e with
  | enqueue r => exact iff_of_true ⟨_, rfl⟩ trivial
  | sendRequest c =>
    refine Iff.trans ?_ sendRequest_ok_iff
    exact ⟨fun ⟨_, h⟩ => (bind_ok h).imp fun _ hg => hg.1,
      fun ⟨g, hg⟩ => ⟨_, by rw [OrderSystem.step, hg, ok_bind]⟩⟩
  | gatewaySendAndRecv c n => exact iff_of_true ⟨_, rfl⟩ trivial
  | serverSendAndRecv c n rxTime =>
    refine Iff.trans ?_ (OrderManager.sendAndRecv_ok_iff
      (r := ⟨c, (s.toServer c).take n, rxTime⟩) hroom)
    exact ⟨fun ⟨_, h⟩ => (bind_ok h).imp fun _ hm => hm.1,
      fun ⟨m, hm⟩ => ⟨_, by rw [OrderSystem.step, OrderManager.step, hm, ok_bind]⟩⟩
  | otherSendAndRecv socket available rxTime =>
    refine Iff.trans ?_ (OrderManager.sendAndRecv_ok_iff (r := ⟨socket, available, rxTime⟩) hroom)
    exact ⟨fun ⟨_, h⟩ => (bind_ok h).imp fun _ hm => hm.1,
      fun ⟨m, hm⟩ => ⟨_, by rw [OrderSystem.step, OrderManager.step, hm, ok_bind]⟩⟩
  | recvFinished ranges => exact iff_of_true ⟨_, rfl⟩ trivial
  | sendResponse r =>
    refine Iff.trans ?_ OrderManager.sendResponse_ok_iff
    exact ⟨fun ⟨_, h⟩ => (bind_ok h).imp fun _ hm => hm.1,
      fun ⟨m, hm⟩ => ⟨_, by rw [OrderSystem.step, OrderManager.step, hm, ok_bind]⟩⟩

end Steps

/-! ## 5. Whole runs -/

/-- **Requests and responses of a client arrive exactly once**, in order. -/
structure Delivers (s : OrderSystem) (c : Nat) : Prop where
  /-- What is not yet accepted or forwarded is on the way, under the numbers expected of it. -/
  onTheWay : (s.link c).ExactlyOnce
  accepted : (s.link c).accepted <+: s.enqueued c
  forwarded : (s.gateways c).incomingResponses <+: s.taken.filter fun r => r.clientId = c
  /-- No check turned away a record from its gateway, and no other record names the client. -/
  own : ∀ d ∈ s.log, d.arrival.socket = c ∨ d.arrival.clientId = c →
    d.arrival.socket = c ∧ d.arrival.clientId = c ∧ d.accepted = true
  /-- Once nothing is on the way, everything has arrived. -/
  allAccepted : (s.gateways c).outgoingRequests = [] → (s.link c).requestBytes = [] →
    (s.link c).accepted = s.enqueued c
  allForwarded : (s.link c).responseBytes = [] →
    (s.gateways c).incomingResponses = s.taken.filter fun r => r.clientId = c

theorem Inv.delivers {clients : Nat → Prop} {s : OrderSystem} {c : Nat} (h : Inv clients s)
    (hc : clients c) : s.Delivers c := by
  obtain ⟨hproper, honce⟩ := h.links c hc
  obtain ⟨sent, henqueued, hnumber, htransit⟩ := honce.requests
  refine ⟨honce, ?_, honce.responses.prefix_sent, fun d hd hnamed => ?_, fun hqueue hbytes => ?_,
    fun hbytes => ?_⟩
  · exact htransit.prefix_sent.trans ⟨_, henqueued.symm⟩
  · have hclients : clients d.arrival.socket ∨ clients d.arrival.clientId :=
      hnamed.imp (fun heq => by rwa [heq]) fun heq => by rwa [heq]
    obtain ⟨hsame, haccepted⟩ := h.own d hd hclients
    rw [hsame, or_self] at hnamed
    exact ⟨hnamed, hsame.trans hnamed, haccepted⟩
  · rw [hbytes] at htransit
    rw [htransit.drained (by decide)]
    have hall : s.enqueued c = sent ++ (s.gateways c).outgoingRequests := henqueued
    rw [hall, hqueue, List.append_nil]
  · have hresponses := honce.responses
    rw [hbytes] at hresponses
    exact hresponses.drained (by decide)

/-- **In every state of every run**, whatever the interleaving and the chunking. -/
theorem always_delivers {clients : Nat → Prop} {events : List Event}
    (hallowed : Run.EachStep step (Allowed clients) init events) :
    Run.Always step (fun s => ∀ c, clients c → s.Delivers c) init events := by
  have hinv : Run.Always step (Inv clients) init events :=
    hallowed.always (fun _ _ _ h he hstep => Inv.step h he hstep) Inv.init
  refine hinv.mono ?_
  intro s h c hc
  exact h.delivers hc

/-- **The runs that go through and deliver exactly once** are those whose steps all fit.  In a
state in which no process has stopped the messages of every client are where they should be, as
accepted, forwarded or on the way (`always_delivers`); a step that does not fit stops one of the
processes, and what was on the way is lost with it.  `Fits` is asked of every step that is tried,
in the state it is tried in, so the theorem says of each run how far it gets. -/
theorem exactly_once (clients : Nat → Prop) (events : List Event)
    (hallowed : Run.EachTry step (Allowed clients) init events) :
    ((∃ s, events.foldlM step init = .ok s) ∧
        Run.Always step (fun s => ∀ c, clients c → s.Delivers c) init events) ↔
      Run.EachTry step Fits init events := by
  rw [and_iff_left (always_delivers hallowed.eachStep)]
  exact Run.EachTry.through_iff (I := fun s => s.server.pendingSize ≤ kMaxPendingRequests)
    (fun s e s' hroom _ hstep => step_pendingSize hroom hstep)
    (fun s e hroom _ => step_ok_iff hroom e) (Nat.zero_le _) hallowed

/-- An order of client 0 and the answer of the matcher. -/
def oneOrder : List Event :=
  [.enqueue ⟨.new, 0, 1, 7, .buy, 10, 5⟩, .sendRequest 0, .gatewaySendAndRecv 0 0,
    .serverSendAndRecv 0 20 100, .serverSendAndRecv 0 18 200,
    .otherSendAndRecv 3 (orderManagerClientRequestCodec.encode
      ⟨2, ⟨.canceled, 3, 0, 7, .unset, 0, 0⟩⟩) 300,
    .recvFinished (SortBy.reverseTies _), .sendResponse ⟨.accepted, 0, 1, 7, 1, .buy, 10, 0, 5⟩,
    .serverSendAndRecv 0 0 400, .gatewaySendAndRecv 0 50]

theorem exactly_once_one_order : ∃ s, oneOrder.foldlM step init = .ok s ∧
    (s.link 0).accepted = [⟨.new, 0, 1, 7, .buy, 10, 5⟩] ∧
    (s.gateways 0).incomingResponses = [⟨.accepted, 0, 1, 7, 1, .buy, 10, 0, 5⟩] ∧
    s.Delivers 0 ∧ Run.EachTry step Fits init oneOrder := by
  obtain ⟨s, hrun, hcheck⟩ : ∃ s, oneOrder.foldlM step init = .ok s ∧
      decide ((s.link 0).accepted = [⟨.new, 0, 1, 7, .buy, 10, 5⟩] ∧
        (s.gateways 0).incomingResponses = [⟨.accepted, 0, 1, 7, 1, .buy, 10, 0, 5⟩]) = true :=
    exists_of_returns (by decide +kernel)
  obtain ⟨haccepted, hforwarded⟩ := of_decide_eq_true hcheck
  have hallowed : Run.EachTry step (Allowed (· = 0)) init oneOrder := by decide +kernel
  have hall := always_delivers hallowed.eachStep
  exact ⟨s, hrun, haccepted, hforwarded, hall.of_foldlM hrun 0 rfl,
    (exactly_once (· = 0) oneOrder hallowed).mp ⟨⟨s, hrun⟩, hall⟩⟩

/-! ## 6. More requests than the sequencer holds -/

/-- A cancel of client 0. -/
def cancel : MatchingEngineClientRequest := ⟨.canceled, 0, 0, 0, .unset, 0, 0⟩

/-- Client 0 sends a number of cancels, and the server is busy. -/
def flood : Nat → List Event
  | 0 => []
  | k + 1 => flood k ++ [.enqueue cancel, .sendRequest 0, .gatewaySendAndRecv 0 0]

theorem flood_allowed (k : Nat) : ∀ e ∈ flood k, ∀ s, Allowed (· = 0) s e := by
  induction k with
  | zero => exact fun e he => absurd he List.not_mem_nil
  | succ k ih =>
    intro e he s
    rcases List.mem_append.mp he with he | he
    · exact ih e he s
    · simp only [List.mem_cons, List.not_mem_nil, or_false] at he
      rcases he with rfl | rfl | rfl
      · exact ⟨rfl, by decide⟩
      · rfl
      · rfl

/-- Everything that was sent waits in the network. -/
structure Flooded (s : OrderSystem) (k : Nat) : Prop where
  server : s.server = .init
  log : s.log = []
  enqueued : s.enqueued 0 = List.replicate k cancel
  queue : (s.gateways 0).outgoingRequests = []
  sent : (s.gateways 0).tcpSocket.outboundData = []
  answers : s.toClient 0 = []

theorem flood_run (k : Nat) : ∃ s, (flood k).foldlM step init = .ok s ∧ s.Flooded k := by
  induction k with
  | zero => exact ⟨init, rfl, rfl, rfl, rfl, rfl, rfl, rfl⟩
  | succ k ih =>
    obtain ⟨s, hrun, h⟩ := ih
    have hgateway : (s.enqueue cancel).gateways 0 =
        { s.gateways 0 with outgoingRequests := [cancel] } := by
      simp [OrderSystem.enqueue, cancel, h.queue]
    obtain ⟨g, hsend, hqueue⟩ : ∃ g, ((s.enqueue cancel).gateways 0).sendRequest = .ok g ∧
        g.outgoingRequests = [] := by
      rw [hgateway]
      exact ⟨_, sendRequest_ok rfl (by dsimp only; rw [h.sent]; decide), rfl⟩
    have hstep : (s.enqueue cancel).step (.sendRequest 0) =
        .ok ((s.enqueue cancel).setGateway 0 g) := by
      rw [step, hsend, ok_bind]
    have hturn : g.sendAndRecv [] = { g with tcpSocket := g.tcpSocket.flush } :=
      sendAndRecv_nothing (by rw [TCPSocket.readable, List.take_nil])
    refine ⟨_, Run.foldlM_append_ok.mpr ⟨s, hrun, Run.foldlM_cons_ok.mpr ⟨_, rfl,
      Run.foldlM_cons_ok.mpr ⟨_, hstep, rfl⟩⟩⟩, h.server, h.log, ?_, ?_, ?_, ?_⟩
    · simp [OrderSystem.gatewaySendAndRecv, setGateway, OrderSystem.enqueue, cancel, h.enqueued,
        List.replicate_succ']
    · simp [OrderSystem.gatewaySendAndRecv, setGateway, hturn, hqueue]
    · simp [OrderSystem.gatewaySendAndRecv, setGateway, hturn, TCPSocket.flush]
    · simp [OrderSystem.gatewaySendAndRecv, setGateway, OrderSystem.enqueue, h.answers]

theorem Flooded.bytes {s : OrderSystem} {k : Nat} (h : s.Flooded k) (hinv : Inv (· = 0) s) :
    s.toServer 0 = orderManagerClientRequestCodec.encodeAll (OrderManager.burst k) := by
  obtain ⟨sent, henqueued, -, waiting, hsent, hbytes⟩ := (hinv.links 0 rfl).2.requests
  simp only [Link.requestBytes, link, h.server, h.log, h.enqueued, h.queue, h.sent,
    List.append_nil] at henqueued hsent hbytes
  rw [OrderManager.burst, ← cancel, henqueued, hsent]
  exact hbytes

/-- A read of all of them stops the server if they are too many. -/
theorem Flooded.full {s : OrderSystem} {k : Nat} (h : s.Flooded k) (hinv : Inv (· = 0) s)
    (hfull : kMaxPendingRequests < k)
    (hfit : k * orderManagerClientRequestCodec.size ≤ TCPBufferSize) :
    s.step (.serverSendAndRecv 0 (s.toServer 0).length 0) =
      .error (.fatal "To many pending requests ") := by
  let m := OrderManager.init.recvmsg 0 ((OrderManager.init.recvSockets 0).readable
    (orderManagerClientRequestCodec.encodeAll (OrderManager.burst k)))
  have hseq : m.InSequence ((OrderManager.burst k).map fun r => ⟨0, 0, r⟩) :=
    OrderManager.inSequence_burst k rfl rfl
  have hstop : ((OrderManager.burst k).map fun r => (⟨0, 0, r⟩ : Arrival)).foldlM
      OrderManager.receiveRequest m = .error (.fatal "To many pending requests ") := by
    rw [OrderManager.receiveRequests_settle (Nat.zero_le _) hseq.clients, hseq.pendingSize,
      List.length_map, OrderManager.length_burst, if_neg]
    exact Nat.not_le.mpr (hfull.trans_eq (Nat.zero_add k).symm)
  rw [step, List.take_length, h.bytes hinv, h.server, OrderManager.step,
    OrderManager.sendAndRecv_eq,
    OrderManager.arrived_burst rfl hfit, hstop]
  rfl

/-- **The server stops** when it reads more requests in one pass than its sequencer holds, and none
of them reaches the matcher. -/
theorem not_exactly_once : ¬ ∀ (clients : Nat → Prop) (events : List Event),
    Run.EachTry step (Allowed clients) init events →
      (∃ s, events.foldlM step init = .ok s) ∧
        Run.Always step (fun s => ∀ c, clients c → s.Delivers c) init events := by
  intro hall
  obtain ⟨k, hk⟩ : ∃ k, k = kMaxPendingRequests + 1 := ⟨_, rfl⟩
  obtain ⟨s, hrun, h⟩ := flood_run k
  have hinv : Inv (· = 0) s := ((Run.EachStep.of_forall (flood_allowed k)).always
    (fun _ _ _ h he hstep => Inv.step h he hstep) Inv.init).of_foldlM hrun
  let read : Event := .serverSendAndRecv 0 (s.toServer 0).length 0
  have hallowed : Run.EachTry step (Allowed (· = 0)) init (flood k ++ [read]) := by
    refine Run.EachTry.of_forall fun e he s => ?_
    rcases List.mem_append.mp he with he | he
    · exact flood_allowed k e he s
    · rw [List.mem_singleton.mp he]
      rfl
  obtain ⟨⟨s', hrun'⟩, -⟩ := hall _ _ hallowed
  obtain ⟨s₁, hrun₁, hread⟩ := Run.foldlM_append_ok.mp hrun'
  obtain rfl := Except.ok.inj (hrun.symm.trans hrun₁)
  obtain ⟨s₂, hstep, -⟩ := Run.foldlM_cons_ok.mp hread
  rw [h.full hinv (hk ▸ Nat.lt_succ_self _) (by rw [hk]; decide)] at hstep
  cases hstep

end OrderSystem

end YQuant
