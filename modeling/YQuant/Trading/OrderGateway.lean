/-
# The order gateway

`trading/order_gw/order_gateway.h` and `order_gateway.cpp`: the gateway of a client puts the
requests of its trade engine behind consecutive numbers and sends them to the order server, and
forwards the responses that carry its client id and the number it expects.

`incomingResponses` holds everything that was ever written to the queue of the trade engine; a
running gateway waits for a free slot, so that a wait is not a step here.

The order in which things are written is kept: the number goes out before the request, as two calls
of `send`, and the counters advance afterwards.  A response that is not for this client, or that
carries another number, is dropped, and nothing is sent back for it; so a gateway that has missed
one response forwards none of those behind it.  TCP loses nothing, and that this does not happen is
shown in `ExactlyOnce.lean`.

`sendRequest` fails only where the outbound buffer has no room, since `send` does not check
(`sendRequest_ok_iff`).
-/
import YQuant.OrderManager.Wire
import YQuant.TCPSocket
import YQuant.Lib.NumberedStream

namespace YQuant

/-! ## 1. The gateway -/

structure OrderGateway where
  clientId : Nat
  /-- The queue of the trade engine. -/
  outgoingRequests : List MatchingEngineClientRequest
  incomingResponses : List MatchingEngineClientResponse
  nextOutgoingSeqNum : Nat
  nextExpSeqNum : Nat
  tcpSocket : TCPSocket

namespace OrderGateway

def init (clientId : Nat) : OrderGateway := ⟨clientId, [], [], 1, 1, .init⟩

/-- The loop body of `run`: the number goes out before the request. -/
def sendRequest (g : OrderGateway) : Except Fault OrderGateway :=
  match g.outgoingRequests with
  | [] => .ok g
  | r :: rest => do
    let t ← g.tcpSocket.send (sizeCodec.encode g.nextOutgoingSeqNum)
    let t ← t.send (clientRequestCodec.encode r)
    .ok { g with
      outgoingRequests := rest
      nextOutgoingSeqNum := add64 g.nextOutgoingSeqNum 1
      tcpSocket := t }

/-- The loop body of `recvCallback`. -/
def receiveResponse (g : OrderGateway) (message : OrderManagerClientResponse) : OrderGateway :=
  let response := message.matchingEngineClientResponse
  if response.clientId ≠ g.clientId then g
  else if message.seqNum ≠ g.nextExpSeqNum then g
  else { g with
    nextExpSeqNum := add64 g.nextExpSeqNum 1
    incomingResponses := g.incomingResponses ++ [response] }

def recvCallback (g : OrderGateway) : OrderGateway :=
  let inbound := g.tcpSocket.inboundData
  if orderManagerClientResponseCodec.size ≤ inbound.length then
    let g := (orderManagerClientResponseCodec.frames inbound).foldl receiveResponse g
    { g with tcpSocket := g.tcpSocket.keep (orderManagerClientResponseCodec.rest inbound) }
  else g

/-- `TCPSocket::sendAndRecv`, when the kernel has `available`. -/
def sendAndRecv (g : OrderGateway) (available : List UInt8) : OrderGateway :=
  let data := g.tcpSocket.readable available
  let g := if data = [] then g else { g with tcpSocket := g.tcpSocket.recvmsg data }.recvCallback
  { g with tcpSocket := g.tcpSocket.flush }

/-! ## 2. What the callbacks do -/

variable {g g' : OrderGateway}

/-- A response of the client under the number it expects is forwarded. -/
theorem receiveResponse_expected {n : Nat} {r : MatchingEngineClientResponse}
    (hclient : r.clientId = g.clientId) (hnumber : n = g.nextExpSeqNum) :
    g.receiveResponse ⟨n, r⟩ =
      { g with
        nextExpSeqNum := add64 n 1
        incomingResponses := g.incomingResponses ++ [r] } := by
  subst hnumber
  unfold receiveResponse
  rw [if_neg (not_not.mpr hclient), if_neg (not_not.mpr rfl)]

/-- The record of a response under its number. -/
def responseRecord (n : Nat) (r : MatchingEngineClientResponse) : OrderManagerClientResponse :=
  ⟨n % kWord64, r⟩

/-- The record of a request under its number. -/
def requestRecord (n : Nat) (r : MatchingEngineClientRequest) : OrderManagerClientRequest :=
  ⟨n % kWord64, r⟩

/-- **Responses in order** are all forwarded. -/
theorem receiveResponses_inOrder {rs : List MatchingEngineClientResponse} :
    ∀ {n : Nat} {g : OrderGateway}, (∀ r ∈ rs, r.clientId = g.clientId) →
      g.nextExpSeqNum = n % kWord64 →
      (NumberedStream.stamped responseRecord n rs).foldl receiveResponse g =
        { g with
          nextExpSeqNum := (n + rs.length) % kWord64
          incomingResponses := g.incomingResponses ++ rs } := by
  induction rs with
  | nil =>
    intro n g _ hexpected
    rw [List.append_nil, List.length_nil, Nat.add_zero, ← hexpected]
    rfl
  | cons r rs ih =>
    intro n g hclients hexpected
    rw [NumberedStream.stamped, List.foldl_cons, responseRecord,
      receiveResponse_expected (hclients r List.mem_cons_self) hexpected.symm]
    have hrest := ih (n := n + 1) (g := { g with
      nextExpSeqNum := add64 (n % kWord64) 1
      incomingResponses := g.incomingResponses ++ [r] })
      (fun r' hr' => hclients r' (List.mem_cons_of_mem r hr')) (add64_mod n 1)
    rw [hrest, List.length_cons, Nat.add_assoc, Nat.add_comm 1, List.append_assoc,
      List.singleton_append]

theorem sendRequest_cases (h : g.sendRequest = .ok g') :
    g' = g ∨ ∃ r rest, g.outgoingRequests = r :: rest ∧
      g' = { g with
        outgoingRequests := rest
        nextOutgoingSeqNum := add64 g.nextOutgoingSeqNum 1
        tcpSocket := ⟨g.tcpSocket.inboundData, g.tcpSocket.outboundData ++
          orderManagerClientRequestCodec.encode ⟨g.nextOutgoingSeqNum, r⟩⟩ } := by
  unfold sendRequest at h
  split at h
  · cases h
    exact .inl rfl
  · next r rest hrequests =>
    obtain ⟨t, hnumber, h⟩ := bind_ok h
    obtain ⟨t', hbody, h⟩ := bind_ok h
    cases h
    refine .inr ⟨r, rest, hrequests, ?_⟩
    rw [TCPSocket.send_ok hbody, TCPSocket.send_ok hnumber, List.append_assoc]
    rfl

/-- With room in the outbound buffer the next request of the queue is sent. -/
theorem sendRequest_ok {r : MatchingEngineClientRequest} {rest : List MatchingEngineClientRequest}
    (hqueue : g.outgoingRequests = r :: rest)
    (hroom : g.tcpSocket.outboundData.length + orderManagerClientRequestCodec.size ≤
      TCPBufferSize) :
    g.sendRequest = .ok { g with
      outgoingRequests := rest
      nextOutgoingSeqNum := add64 g.nextOutgoingSeqNum 1
      tcpSocket := ⟨g.tcpSocket.inboundData, g.tcpSocket.outboundData ++
        orderManagerClientRequestCodec.encode ⟨g.nextOutgoingSeqNum, r⟩⟩ } := by
  have hnumber := sizeCodec.length_encode g.nextOutgoingSeqNum
  have hbody := clientRequestCodec.length_encode r
  have hsize : orderManagerClientRequestCodec.size = sizeCodec.size + clientRequestCodec.size := rfl
  unfold sendRequest TCPSocket.send
  rw [hqueue]
  dsimp only
  rw [if_pos (by omega), ok_bind]
  dsimp only
  rw [if_pos (by rw [List.length_append]; omega), ok_bind, List.append_assoc]
  rfl

/-- **The gateway goes on** exactly if nothing is queued or the outbound buffer has room. -/
theorem sendRequest_ok_iff : (∃ g', g.sendRequest = .ok g') ↔ g.outgoingRequests = [] ∨
    g.tcpSocket.outboundData.length + orderManagerClientRequestCodec.size ≤ TCPBufferSize := by
  cases hqueue : g.outgoingRequests with
  | nil => exact iff_of_true ⟨g, by rw [sendRequest, hqueue]⟩ (.inl rfl)
  | cons r rest =>
    constructor
    · rintro ⟨g', hsend⟩
      unfold sendRequest at hsend
      rw [hqueue] at hsend
      obtain ⟨t, hnumber, hsend⟩ := bind_ok hsend
      obtain ⟨t', hbody, -⟩ := bind_ok hsend
      have hroom := TCPSocket.send_room hbody
      rw [TCPSocket.send_ok hnumber, List.length_append, sizeCodec.length_encode,
        clientRequestCodec.length_encode, Nat.add_assoc] at hroom
      exact .inr hroom
    · rintro (hnone | hroom)
      · cases hnone
      · exact ⟨_, sendRequest_ok hqueue hroom⟩

/-- A record touches neither the buffers nor the client id. -/
theorem receiveResponse_frame (g : OrderGateway) (m : OrderManagerClientResponse) :
    (g.receiveResponse m).tcpSocket = g.tcpSocket ∧
      (g.receiveResponse m).clientId = g.clientId := by
  unfold receiveResponse
  dsimp only
  split
  · exact ⟨rfl, rfl⟩
  · split <;> exact ⟨rfl, rfl⟩

theorem receiveResponses_tcpSocket {ms : List OrderManagerClientResponse} :
    ∀ {g : OrderGateway}, (ms.foldl receiveResponse g).tcpSocket = g.tcpSocket := by
  induction ms with
  | nil => exact fun {_} => rfl
  | cons m ms ih =>
    intro g
    rw [List.foldl_cons, ih, (g.receiveResponse_frame m).1]

/-- The check at the top of `recvCallback` changes nothing: a shorter buffer has no records. -/
theorem recvCallback_eq (g : OrderGateway) : g.recvCallback =
    { (orderManagerClientResponseCodec.frames g.tcpSocket.inboundData).foldl receiveResponse g with
      tcpSocket := g.tcpSocket.keep
        (orderManagerClientResponseCodec.rest g.tcpSocket.inboundData) } := by
  unfold recvCallback
  dsimp only
  split
  · rw [receiveResponses_tcpSocket]
  · next hlt =>
    obtain ⟨hframes, hrest⟩ := Codec.frames_of_lt (Nat.not_le.mp hlt)
    rw [hframes, hrest]
    rfl

/-- A turn of the gateway's socket that reads something. -/
theorem sendAndRecv_eq {available : List UInt8} (hdata : g.tcpSocket.readable available ≠ []) :
    g.sendAndRecv available =
      { (orderManagerClientResponseCodec.frames
          (g.tcpSocket.inboundData ++ g.tcpSocket.readable available)).foldl receiveResponse
          { g with tcpSocket := g.tcpSocket.recvmsg (g.tcpSocket.readable available) } with
        tcpSocket := ⟨orderManagerClientResponseCodec.rest
          (g.tcpSocket.inboundData ++ g.tcpSocket.readable available), []⟩ } := by
  unfold sendAndRecv
  dsimp only
  rw [if_neg hdata, recvCallback_eq]
  rfl

theorem receiveResponses_clientId {ms : List OrderManagerClientResponse} :
    ∀ {g : OrderGateway}, (ms.foldl receiveResponse g).clientId = g.clientId := by
  induction ms with
  | nil => exact fun {_} => rfl
  | cons m ms ih =>
    intro g
    rw [List.foldl_cons, ih, (g.receiveResponse_frame m).2]

/-- A turn that reads nothing. -/
theorem sendAndRecv_nothing {available : List UInt8} (hdata : g.tcpSocket.readable available = []) :
    g.sendAndRecv available = { g with tcpSocket := g.tcpSocket.flush } := by
  unfold sendAndRecv
  dsimp only
  rw [if_pos hdata]

/-- **A turn that completes responses in order** forwards them. -/
theorem sendAndRecv_inOrder {available : List UInt8} {n : Nat}
    {rs : List MatchingEngineClientResponse} (hdata : g.tcpSocket.readable available ≠ [])
    (hframes : orderManagerClientResponseCodec.frames
      (g.tcpSocket.inboundData ++ g.tcpSocket.readable available) =
        NumberedStream.stamped responseRecord n rs)
    (hclients : ∀ r ∈ rs, r.clientId = g.clientId) (hexpected : g.nextExpSeqNum = n % kWord64) :
    g.sendAndRecv available =
      { g with
        nextExpSeqNum := (n + rs.length) % kWord64
        incomingResponses := g.incomingResponses ++ rs
        tcpSocket := ⟨orderManagerClientResponseCodec.rest
          (g.tcpSocket.inboundData ++ g.tcpSocket.readable available), []⟩ } := by
  have hfold := receiveResponses_inOrder
    (g := { g with tcpSocket := g.tcpSocket.recvmsg (g.tcpSocket.readable available) })
    hclients hexpected
  rw [sendAndRecv_eq hdata, hframes, hfold]

theorem sendAndRecv_clientId (g : OrderGateway) (available : List UInt8) :
    (g.sendAndRecv available).clientId = g.clientId := by
  by_cases hdata : g.tcpSocket.readable available = []
  · rw [sendAndRecv_nothing hdata]
  · rw [sendAndRecv_eq hdata]
    exact receiveResponses_clientId

end OrderGateway

end YQuant
