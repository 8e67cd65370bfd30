/-
# Cutting the streams into records

The callbacks of `order_manager.h` and `order_gateway.cpp` on the receive buffers as they lie in
memory: the loop over the offset `i`, and the copy of the leftover to the front, a `memcpy` in the
order server and a `memmove` in the gateway.  They do what the models of the two components say
(`sendAndRecv_refines`), and a stream is cut into the same records however it arrives.

The order server stops in the middle of a read when the sequencer is full; then the records behind
are never decoded (`not_framing`).

A turn of a socket is one read and the callback on what is in the buffer then.  Of a record that
came in two pieces the first one waits at the front, and the next read goes behind it.  The two
copies are alike but for what they may do when source and destination overlap, and they never do:
what is left is less than a record, and is copied only if a record was taken
(`recvCallback_no_overlap`).

* `framing_iff`: every run of a gateway cuts its stream into records; a run of the server whose
  records name known clients does if and only if the sequencer has room for what each of its reads
  completes;
* `sendAndRecv_refines`: the buffers may then be forgotten, and the other modules do.
-/
import YQuant.Lib.RecordBuffer
import YQuant.OrderManager.Bursts

namespace YQuant

open RecordBuffer (Framed)

/-! ## 1. The order server -/

/-- The order server with the receive buffers of its sockets.  What `recvSockets` says of them plays
no part; `received` and `decoded` are the histories of the bytes that were read and of the records
that the loop has handled. -/
structure BufferedServer where
  server : OrderManager
  inbound : Nat → RecordBuffer
  received : Nat → List UInt8
  decoded : Nat → List OrderManagerClientRequest

/-- The turns of the server that concern what it receives. -/
inductive ReadTurn where
  | sendAndRecv (r : SocketRead)
  | recvFinished (ranges : ReceiveTimeSort)

namespace BufferedServer

/-- At the start the memory holds anything. -/
def init (memory : Nat → Nat → UInt8) : BufferedServer :=
  ⟨.init, fun socket => ⟨memory socket, 0⟩, fun _ => [], fun _ => []⟩

/-- The loop body of `recvCallback`. -/
def receiveRecord (socket : Nat) (rxTime : Int)
    (s : OrderManager × List OrderManagerClientRequest) (r : OrderManagerClientRequest) :
    Except Fault (OrderManager × List OrderManagerClientRequest) := do
  let m ← s.1.receiveRequest ⟨socket, rxTime, r⟩
  .ok (m, s.2 ++ [r])

def recvCallback (s : BufferedServer) (socket : Nat) (rxTime : Int) :
    Except Fault BufferedServer := do
  let b := s.inbound socket
  if orderManagerClientRequestCodec.size ≤ b.next then
    let ((m, decoded), i) ← b.recordLoop orderManagerClientRequestCodec
      (receiveRecord socket rxTime) 0 (s.server, s.decoded socket)
    match b.memcpy 0 i (b.next - i) with
    | none => .error .overlappingCopy
    | some b' => .ok { s with
        server := m
        inbound := Function.update s.inbound socket { b' with next := b.next - i }
        decoded := Function.update s.decoded socket decoded }
  else .ok s

/-- `recvmsg` writes behind the valid bytes. -/
def recvmsg (s : BufferedServer) (socket : Nat) (data : List UInt8) : BufferedServer :=
  { s with
    inbound := Function.update s.inbound socket ((s.inbound socket).append data)
    received := Function.update s.received socket (s.received socket ++ data) }

/-- `TCPSocket::sendAndRecv` of a socket. -/
def sendAndRecv (s : BufferedServer) (r : SocketRead) : Except Fault BufferedServer := do
  let b := s.inbound r.socket
  let data := r.available.take (TCPBufferSize - b.next)
  let s ← (if data = [] then .ok s else (s.recvmsg r.socket data).recvCallback r.socket r.rxTime)
  .ok { s with server := s.server.setSocket r.socket (s.server.recvSockets r.socket).flush }

def step (s : BufferedServer) : ReadTurn → Except Fault BufferedServer
  | .sendAndRecv r => s.sendAndRecv r
  | .recvFinished ranges => .ok { s with server := s.server.recvFinishedCallback ranges }

/-- The model of the order server sees the valid bytes only. -/
def view (s : BufferedServer) : OrderManager :=
  { s.server with
    recvSockets socket :=
      ⟨(s.inbound socket).valid, (s.server.recvSockets socket).outboundData⟩ }

/-! ## 2. The order server does what its model says -/

section Refines

variable {s : BufferedServer} {socket : Nat} {rxTime : Int}

/-- The records do what they do in the model, whatever it holds of the sockets. -/
theorem receiveRecords_eq {rs : List OrderManagerClientRequest} :
    ∀ {m : OrderManager} {l : List OrderManagerClientRequest},
      rs.foldlM (receiveRecord socket rxTime) (m, l) =
        ((rs.map fun r => ⟨socket, rxTime, r⟩).foldlM OrderManager.receiveRequest m >>= fun m' =>
          .ok (m', l ++ rs)) := by
  induction rs with
  | nil => exact fun {_ _} => congrArg (fun l => Except.ok (_, l)) (List.append_nil _).symm
  | cons r rs ih =>
    intro m l
    rw [List.foldlM_cons, List.map_cons, List.foldlM_cons, receiveRecord]
    cases m.receiveRequest ⟨socket, rxTime, r⟩ with
    | error e => rfl
    | ok m' =>
      simp only [ok_bind]
      rw [ih, List.append_assoc]
      rfl

/-- **The callback** hands the complete records to the model and keeps the rest of the bytes.  The
regions of its `memcpy` never overlap. -/
theorem recvCallback_eq (s : BufferedServer) (socket : Nat) (rxTime : Int) :
    ∃ b', b'.valid = orderManagerClientRequestCodec.rest (s.inbound socket).valid ∧
      s.recvCallback socket rxTime =
        (((orderManagerClientRequestCodec.frames (s.inbound socket).valid).map
          fun r => ⟨socket, rxTime, r⟩).foldlM OrderManager.receiveRequest s.server >>= fun m =>
            .ok { s with
              server := m
              inbound := Function.update s.inbound socket b'
              decoded := Function.update s.decoded socket (s.decoded socket ++
                orderManagerClientRequestCodec.frames (s.inbound socket).valid) }) := by
  have hsize : 0 < orderManagerClientRequestCodec.size := by decide
  unfold recvCallback
  dsimp only
  split
  · next hle =>
    refine ⟨_, RecordBuffer.valid_rest _, ?_⟩
    rw [RecordBuffer.recordLoop_eq hsize, receiveRecords_eq, Nat.sub_zero, Nat.zero_add]
    rw [← RecordBuffer.valid]
    cases ((orderManagerClientRequestCodec.frames (s.inbound socket).valid).map
        fun r => (⟨socket, rxTime, r⟩ : Arrival)).foldlM OrderManager.receiveRequest s.server with
    | error e => rfl
    | ok m =>
      simp only [ok_bind, RecordBuffer.memcpy_rest hsize hle]
  · next hlt =>
    obtain ⟨hframes, hrest⟩ := Codec.frames_of_lt (c := orderManagerClientRequestCodec)
      (RecordBuffer.length_valid.trans_lt (Nat.not_le.mp hlt))
    refine ⟨s.inbound socket, hrest.symm, ?_⟩
    rw [hframes, List.append_nil, Function.update_eq_self, Function.update_eq_self]
    rfl

/-- **A turn of a socket** reads what its buffer has room for and decodes the records that this
completes. -/
theorem sendAndRecv_eq (s : BufferedServer) (r : SocketRead) :
    ∃ b', b'.valid = s.view.remainder r.socket r.available ∧
      s.sendAndRecv r =
        ((s.view.arrivedIn r).foldlM OrderManager.receiveRequest s.server >>= fun m =>
          .ok
            { server := m.setSocket r.socket (m.recvSockets r.socket).flush
              inbound := Function.update s.inbound r.socket b'
              received := Function.update s.received r.socket (s.received r.socket ++
                (s.view.recvSockets r.socket).readable r.available)
              decoded := Function.update s.decoded r.socket (s.decoded r.socket ++
                (s.view.arrivedIn r).map Arrival.record) }) := by
  have hdata : r.available.take (TCPBufferSize - (s.inbound r.socket).next) =
      (s.view.recvSockets r.socket).readable r.available := by
    rw [TCPSocket.readable, view, RecordBuffer.length_valid]
  unfold sendAndRecv OrderManager.arrivedIn OrderManager.arrived OrderManager.remainder
  dsimp only
  rw [hdata]
  split
  · next hnil =>
    refine ⟨s.inbound r.socket, rfl, ?_⟩
    simp only [ok_bind, List.foldlM_nil, hnil, List.map_nil, List.append_nil,
      Function.update_eq_self]
    rfl
  · generalize (s.view.recvSockets r.socket).readable r.available = data
    obtain ⟨b', hvalid, hcallback⟩ := recvCallback_eq (s.recvmsg r.socket data) r.socket r.rxTime
    have hbytes : ((s.recvmsg r.socket data).inbound r.socket).valid =
        (s.inbound r.socket).valid ++ data := by
      rw [recvmsg]
      dsimp only
      rw [Function.update_self, RecordBuffer.valid_append]
    have harrivals : (s.view.recvmsg r.socket data).arrivals r.socket r.rxTime =
        (orderManagerClientRequestCodec.frames ((s.inbound r.socket).valid ++ data)).map
          fun q => ⟨r.socket, r.rxTime, q⟩ := by
      rw [OrderManager.arrivals, OrderManager.recvmsg, OrderManager.setSocket]
      dsimp only
      rw [Function.update_self]
      rfl
    rw [hbytes] at hvalid hcallback
    refine ⟨b', hvalid, ?_⟩
    rw [hcallback, harrivals, List.map_map]
    change (List.foldlM OrderManager.receiveRequest s.server _ >>= _) >>= _ = _
    cases List.foldlM OrderManager.receiveRequest s.server
        ((orderManagerClientRequestCodec.frames ((s.inbound r.socket).valid ++ data)).map
          fun q => (⟨r.socket, r.rxTime, q⟩ : Arrival)) with
    | error e => rfl
    | ok m =>
      simp only [ok_bind, recvmsg, Function.update_idem, Function.comp_def, List.map_id']

/-- The records do not look at the buffers. -/
theorem receiveRequest_anySockets (m : OrderManager) (sockets : Nat → TCPSocket) (a : Arrival) :
    OrderManager.receiveRequest { m with recvSockets := sockets } a =
      (m.receiveRequest a).map fun m' => { m' with recvSockets := sockets } := by
  have hbind : OrderManager.bindSocket { m with recvSockets := sockets } a =
      { m.bindSocket a with recvSockets := sockets } := by
    unfold OrderManager.bindSocket
    dsimp only
    split <;> rfl
  unfold OrderManager.receiveRequest
  rw [hbind]
  dsimp only
  split
  · split
    · rfl
    · split
      · rfl
      · cases (m.bindSocket a).fifoSequencer.addClientRequest a.rxTime a.request <;> rfl
  · rfl

theorem receiveRequests_anySockets (sockets : Nat → TCPSocket) (as : List Arrival) :
    ∀ m : OrderManager, as.foldlM OrderManager.receiveRequest { m with recvSockets := sockets } =
      (as.foldlM OrderManager.receiveRequest m).map fun m' =>
      { m' with recvSockets := sockets } := by
  induction as with
  | nil => exact fun _ => rfl
  | cons a as ih =>
    intro m
    rw [List.foldlM_cons, List.foldlM_cons, receiveRequest_anySockets]
    cases m.receiveRequest a with
    | error e => rfl
    | ok m' => exact ih m'

/-- **The bytes in memory and the valid bytes**: a turn of a socket does to the one what it does to
the other, and fails when the other fails. -/
theorem sendAndRecv_refines (s : BufferedServer) (r : SocketRead) :
    (s.sendAndRecv r).map view = s.view.sendAndRecv r.socket r.available r.rxTime := by
  obtain ⟨b', hvalid, hturn⟩ := s.sendAndRecv_eq r
  have hrecords := receiveRequests_anySockets (s.view.recvmsg r.socket
    ((s.view.recvSockets r.socket).readable r.available)).recvSockets (s.view.arrivedIn r) s.server
  rw [hturn, OrderManager.sendAndRecv_eq]
  refine Eq.trans ?_ (congrArg (· >>= _) hrecords.symm)
  cases hrun : (s.view.arrivedIn r).foldlM OrderManager.receiveRequest s.server with
  | error e => rfl
  | ok m =>
    have hsockets : m.recvSockets = s.server.recvSockets :=
      OrderManager.receiveRequests_sockets hrun
    refine congrArg (fun f => Except.ok { m with recvSockets := f }) (funext fun k => ?_)
    rcases eq_or_ne k r.socket with rfl | hne
    · simp only [OrderManager.setSocket, Function.update_self, hvalid, TCPSocket.flush]
    · simp only [OrderManager.setSocket, OrderManager.recvmsg, view, Function.update_of_ne hne,
        hsockets]

end Refines

end BufferedServer

/-! ## 3. The turns of the server -/

namespace ReadTurn

/-- What a turn does when the sequencer has room. -/
def settle (m : OrderManager) : ReadTurn → OrderManager
  | .sendAndRecv r => m.settleRead r
  | .recvFinished ranges => m.recvFinishedCallback ranges

/-- The records that the turn completes name clients of the exchange. -/
def KnownClients (m : OrderManager) : ReadTurn → Prop
  | .sendAndRecv r => ∀ a ∈ m.arrivedIn r, a.clientId < kMaxNumClients
  | .recvFinished _ => True

/-- The sequencer has room for what the turn completes. -/
def HasRoom (m : OrderManager) : ReadTurn → Prop
  | .sendAndRecv r => m.pendingSize + m.acceptable (m.arrivedIn r) ≤ kMaxPendingRequests
  | .recvFinished _ => True

instance (m : OrderManager) : (t : ReadTurn) → Decidable (t.KnownClients m)
  | .sendAndRecv _ => List.decidableBAll ..
  | .recvFinished _ => isTrue trivial

instance (m : OrderManager) : (t : ReadTurn) → Decidable (t.HasRoom m)
  | .sendAndRecv _ => Nat.decLe ..
  | .recvFinished _ => isTrue trivial

end ReadTurn

namespace BufferedServer

/-- **The streams are cut into their records**: each socket has decoded the records of what it has
received, its buffer holds the tail behind them, and the next read has room. -/
structure Framing (s : BufferedServer) : Prop where
  framed : ∀ socket, Framed orderManagerClientRequestCodec (s.received socket) (s.decoded socket)
    (s.inbound socket)
  short : ∀ socket, (s.inbound socket).next < orderManagerClientRequestCodec.size
  free : ∀ socket, 0 < TCPBufferSize - (s.inbound socket).next

theorem Framing.of_framed {s : BufferedServer} (h : ∀ socket, Framed orderManagerClientRequestCodec
    (s.received socket) (s.decoded socket) (s.inbound socket)) : Framing s := by
  have hshort := fun socket => (h socket).next_lt (by decide)
  refine ⟨h, hshort, fun socket => Nat.sub_pos_of_lt ((hshort socket).trans_le ?_)⟩
  decide

/-- **A turn of a socket that goes through** keeps its stream framed. -/
theorem Framing.sendAndRecv {s s' : BufferedServer} {r : SocketRead} (h : Framing s)
    (hturn : s.sendAndRecv r = .ok s') : Framing s' := by
  obtain ⟨b', hvalid, heq⟩ := s.sendAndRecv_eq r
  rw [heq] at hturn
  obtain ⟨m, -, hs'⟩ := bind_ok hturn
  cases hs'
  refine Framing.of_framed fun k => ?_
  rcases eq_or_ne k r.socket with rfl | hne
  · obtain ⟨hframes, hrest⟩ := OrderManager.arrived_of_short (m := s.view) r.available
      (RecordBuffer.length_valid.trans_lt (h.short r.socket)) r.rxTime
    have hrecords : (s.view.arrivedIn r).map Arrival.record = orderManagerClientRequestCodec.frames
        ((s.view.recvSockets r.socket).inboundData ++
          (s.view.recvSockets r.socket).readable r.available) := by
      rw [OrderManager.arrivedIn, hframes, List.map_map]
      exact List.map_id _
    simp only [Function.update_self]
    rw [hrecords]
    exact (h.framed r.socket).receive (by decide) _ (hvalid.trans hrest)
  · simp only [Function.update_of_ne hne]
    exact h.framed k

/-- What the model and the bytes in memory have in common during a run. -/
structure Follows (s : BufferedServer) (m : OrderManager) : Prop where
  view : s.view = m
  room : m.pendingSize ≤ kMaxPendingRequests
  framing : Framing s

theorem Follows.init (memory : Nat → Nat → UInt8) : Follows (init memory) .init where
  view := rfl
  room := Nat.zero_le _
  framing := Framing.of_framed fun socket => Framed.init (by decide) (memory socket)

variable {s : BufferedServer} {m : OrderManager} {t : ReadTurn}

/-- **A turn that the sequencer has room for** goes through. -/
theorem Follows.settle (h : Follows s m) (hclients : t.KnownClients m) (hroom : t.HasRoom m) :
    ∃ s', s.step t = .ok s' ∧ Follows s' (t.settle m) := by
  obtain ⟨rfl, hsize, hframing⟩ := h
  cases t with
  | sendAndRecv r =>
    have hsettled : (s.view.settleRead r).pendingSize ≤ kMaxPendingRequests :=
      OrderManager.pendingSize_settleRead.trans_le hroom
    have hview := s.sendAndRecv_refines r
    rw [OrderManager.sendAndRecv_settle hsize hclients, if_pos hsettled] at hview
    cases hturn : s.sendAndRecv r with
    | error e => rw [hturn] at hview; cases hview
    | ok s' =>
      rw [hturn] at hview
      exact ⟨s', hturn, Except.ok.inj hview, hsettled, hframing.sendAndRecv hturn⟩
  | recvFinished ranges =>
    exact ⟨_, rfl, rfl, Nat.zero_le _, hframing.framed, hframing.short, hframing.free⟩

/-- And one that it has no room for stops the server. -/
theorem Follows.full (h : Follows s m) (hclients : t.KnownClients m) (hfull : ¬ t.HasRoom m) :
    s.step t = .error (.fatal "To many pending requests ") := by
  obtain ⟨rfl, hsize, hframing⟩ := h
  cases t with
  | sendAndRecv r =>
    have hover : ¬ (s.view.settleRead r).pendingSize ≤ kMaxPendingRequests :=
      fun hle => hfull (OrderManager.pendingSize_settleRead.symm.trans_le hle)
    have hview := s.sendAndRecv_refines r
    rw [OrderManager.sendAndRecv_settle hsize hclients, if_neg hover] at hview
    cases hturn : s.sendAndRecv r with
    | error e =>
      rw [hturn] at hview
      exact hturn.trans (congrArg Except.error (Except.error.inj hview))
    | ok s' => rw [hturn] at hview; cases hview
  | recvFinished ranges => exact absurd trivial hfull

end BufferedServer

/-! ## 4. The gateway -/

/-- A gateway with its receive buffer and the same histories. -/
structure BufferedGateway where
  gateway : OrderGateway
  inbound : RecordBuffer
  received : List UInt8
  decoded : List OrderManagerClientResponse

namespace BufferedGateway

def init (clientId : Nat) (memory : Nat → UInt8) : BufferedGateway :=
  ⟨.init clientId, ⟨memory, 0⟩, [], []⟩

/-- The loop body of `recvCallback`. -/
def receiveRecord (s : OrderGateway × List OrderManagerClientResponse)
    (r : OrderManagerClientResponse) :
    Except Fault (OrderGateway × List OrderManagerClientResponse) :=
  .ok (s.1.receiveResponse r, s.2 ++ [r])

def recvCallback (s : BufferedGateway) : Except Fault BufferedGateway := do
  let b := s.inbound
  if orderManagerClientResponseCodec.size ≤ b.next then
    let ((g, decoded), i) ← b.recordLoop orderManagerClientResponseCodec receiveRecord 0
      (s.gateway, s.decoded)
    .ok { s with
      gateway := g
      inbound := { b.memmove 0 i (b.next - i) with next := b.next - i }
      decoded := decoded }
  else .ok s

/-- `TCPSocket::sendAndRecv`. -/
def sendAndRecv (s : BufferedGateway) (available : List UInt8) : Except Fault BufferedGateway := do
  let data := available.take (TCPBufferSize - s.inbound.next)
  let s ← (if data = [] then .ok s
    else recvCallback { s with
      inbound := s.inbound.append data
      received := s.received ++ data })
  .ok { s with gateway := { s.gateway with tcpSocket := s.gateway.tcpSocket.flush } }

/-- The model of the gateway sees the valid bytes only. -/
def view (s : BufferedGateway) : OrderGateway :=
  { s.gateway with tcpSocket := ⟨s.inbound.valid, s.gateway.tcpSocket.outboundData⟩ }

structure Framing (s : BufferedGateway) : Prop where
  framed : Framed orderManagerClientResponseCodec s.received s.decoded s.inbound
  short : s.inbound.next < orderManagerClientResponseCodec.size
  free : 0 < TCPBufferSize - s.inbound.next

variable {s : BufferedGateway}

theorem Framing.of_framed
    (h : Framed orderManagerClientResponseCodec s.received s.decoded s.inbound) : Framing s := by
  have hshort := h.next_lt (by decide)
  exact ⟨h, hshort, Nat.sub_pos_of_lt (hshort.trans_le (by decide))⟩

theorem receiveRecords_eq {rs : List OrderManagerClientResponse} :
    ∀ {g : OrderGateway} {l : List OrderManagerClientResponse},
      rs.foldlM receiveRecord (g, l) = .ok (rs.foldl OrderGateway.receiveResponse g, l ++ rs) := by
  induction rs with
  | nil => exact fun {_ _} => congrArg (fun l => Except.ok (_, l)) (List.append_nil _).symm
  | cons r rs ih =>
    intro g l
    rw [List.foldlM_cons, receiveRecord, ok_bind, ih, List.append_assoc]
    rfl

/-- **The callback** hands the complete records to the model and keeps the rest of the bytes. -/
theorem recvCallback_eq (s : BufferedGateway) :
    ∃ b', b'.valid = orderManagerClientResponseCodec.rest s.inbound.valid ∧
      s.recvCallback = .ok
        { s with
          gateway := (orderManagerClientResponseCodec.frames s.inbound.valid).foldl
            OrderGateway.receiveResponse s.gateway
          inbound := b'
          decoded := s.decoded ++ orderManagerClientResponseCodec.frames s.inbound.valid } := by
  have hsize : 0 < orderManagerClientResponseCodec.size := by decide
  unfold recvCallback
  dsimp only
  split
  · refine ⟨_, RecordBuffer.valid_rest _, ?_⟩
    rw [RecordBuffer.recordLoop_eq hsize, receiveRecords_eq, Nat.sub_zero, Nat.zero_add]
    rfl
  · next hlt =>
    obtain ⟨hframes, hrest⟩ := Codec.frames_of_lt (c := orderManagerClientResponseCodec)
      (RecordBuffer.length_valid.trans_lt (Nat.not_le.mp hlt))
    refine ⟨s.inbound, hrest.symm, ?_⟩
    rw [hframes, List.append_nil]
    rfl

/-- The records do not look at the buffers. -/
theorem receiveResponses_anySocket (t : TCPSocket) (rs : List OrderManagerClientResponse) :
    ∀ g : OrderGateway, rs.foldl OrderGateway.receiveResponse { g with tcpSocket := t } =
      { rs.foldl OrderGateway.receiveResponse g with tcpSocket := t } := by
  induction rs with
  | nil => exact fun _ => rfl
  | cons r rs ih =>
    intro g
    have hfirst : OrderGateway.receiveResponse { g with tcpSocket := t } r =
        { g.receiveResponse r with tcpSocket := t } := by
      unfold OrderGateway.receiveResponse
      dsimp only
      split
      · rfl
      · split <;> rfl
    rw [List.foldl_cons, List.foldl_cons, hfirst, ih]

/-- **A turn of the gateway** keeps its stream framed and does what the model of the gateway says.
-/
theorem Framing.sendAndRecv (h : Framing s) (available : List UInt8) :
    ∃ s', s.sendAndRecv available = .ok s' ∧ Framing s' ∧ s'.view =
      s.view.sendAndRecv available := by
  have hdata : available.take (TCPBufferSize - s.inbound.next) =
      s.view.tcpSocket.readable available := by
    rw [TCPSocket.readable, view, RecordBuffer.length_valid]
  unfold BufferedGateway.sendAndRecv OrderGateway.sendAndRecv
  dsimp only
  rw [hdata]
  generalize s.view.tcpSocket.readable available = data
  split
  · exact ⟨_, rfl, ⟨h.framed, h.short, h.free⟩, rfl⟩
  · obtain ⟨b', hvalid, hcallback⟩ := recvCallback_eq
      { s with inbound := s.inbound.append data, received := s.received ++ data }
    rw [RecordBuffer.valid_append] at hvalid hcallback
    rw [hcallback, ok_bind]
    refine ⟨_, rfl, Framing.of_framed (h.framed.receive (by decide) data hvalid), ?_⟩
    let rs := orderManagerClientResponseCodec.frames (s.inbound.valid ++ data)
    let g := rs.foldl OrderGateway.receiveResponse s.gateway
    let rest := orderManagerClientResponseCodec.rest (s.inbound.valid ++ data)
    have hfold := receiveResponses_anySocket
      ⟨s.inbound.valid ++ data, s.gateway.tcpSocket.outboundData⟩ rs s.gateway
    have hmodel : ({ s.view with tcpSocket := s.view.tcpSocket.recvmsg data } :
        OrderGateway).recvCallback =
          { g with tcpSocket := ⟨rest, s.gateway.tcpSocket.outboundData⟩ } := by
      rw [OrderGateway.recvCallback_eq]
      exact congrArg (fun g' : OrderGateway =>
        { g' with tcpSocket := ⟨rest, s.gateway.tcpSocket.outboundData⟩ }) hfold
    rw [hmodel]
    change ({ g with tcpSocket := ⟨b'.valid, []⟩ } : OrderGateway) =
      { g with tcpSocket := ⟨rest, []⟩ }
    rw [hvalid]

/-- **Every run of the gateway.** -/
theorem reads_framed (clientId : Nat) (memory : Nat → UInt8) (reads : List (List UInt8)) :
    (∃ s, reads.foldlM sendAndRecv (init clientId memory) = .ok s) ∧
      Run.Always sendAndRecv Framing (init clientId memory) reads := by
  have hinit : Framing (init clientId memory) :=
    Framing.of_framed (Framed.init (by decide) memory)
  have hall : Run.Always sendAndRecv Framing (init clientId memory) reads := by
    refine Run.EachStep.always (C := fun _ _ => True) (fun s available s' h _ hstep => ?_) hinit
      (Run.EachStep.of_forall fun _ _ _ => trivial)
    obtain ⟨s₁, hstep₁, hframing, -⟩ := h.sendAndRecv available
    rw [hstep₁] at hstep
    cases hstep
    exact hframing
  refine ⟨hall.exists_foldlM (fun s available h (_ : True) => ?_) fun _ _ => trivial, hall⟩
  obtain ⟨s', hstep, -⟩ := h.sendAndRecv available
  exact ⟨s', hstep⟩

end BufferedGateway

/-! ## 5. The streams, however they are cut -/

namespace BufferedServer

theorem receiveRequest_no_overlap (m : OrderManager) (a : Arrival) :
    m.receiveRequest a ≠ .error .overlappingCopy := by
  intro hoverlap
  by_cases hclient : a.clientId < kMaxNumClients
  · rw [OrderManager.receiveRequest_eq hclient] at hoverlap
    split at hoverlap
    · split at hoverlap <;> cases hoverlap
    · cases hoverlap
  · rw [OrderManager.receiveRequest, if_neg hclient] at hoverlap
    cases hoverlap

theorem receiveRequests_no_overlap (as : List Arrival) : ∀ m : OrderManager,
    as.foldlM OrderManager.receiveRequest m ≠ .error .overlappingCopy := by
  induction as with
  | nil =>
    intro m hrun
    cases hrun
  | cons a as ih =>
    intro m hrun
    rw [List.foldlM_cons] at hrun
    rcases bind_error hrun with hfirst | ⟨m', -, hrest⟩
    · exact receiveRequest_no_overlap m a hfirst
    · exact ih m' hrest

/-- The `memcpy` of the server is defined in every state. -/
theorem recvCallback_no_overlap (s : BufferedServer) (socket : Nat) (rxTime : Int) :
    s.recvCallback socket rxTime ≠ .error .overlappingCopy := by
  obtain ⟨b', -, hcallback⟩ := s.recvCallback_eq socket rxTime
  intro hoverlap
  rw [hcallback] at hoverlap
  rcases bind_error hoverlap with hrequests | ⟨m, -, hdone⟩
  · exact receiveRequests_no_overlap _ _ hrequests
  · cases hdone

/-- **The streams are cut into their records however they arrive**: on the side of the gateways in
every run, on the side of the exchange in those runs in which the sequencer has room for what each
read completes.  When it has not, the process ends in the middle of the loop and the records behind
are lost with it; the condition counts, before the read, the records that the sequencer would be
handed. -/
theorem framing_iff (memory : Nat → Nat → UInt8) (turns : List ReadTurn)
    (hclients : Run.AlongRun ReadTurn.settle ReadTurn.KnownClients .init turns) :
    ((∃ s, turns.foldlM step (init memory) = .ok s) ∧ Run.Always step Framing (init memory) turns ↔
        Run.AlongRun ReadTurn.settle ReadTurn.HasRoom .init turns) ∧
      (∀ (s : BufferedServer) (socket : Nat) (rxTime : Int),
        s.recvCallback socket rxTime ≠ .error .overlappingCopy) ∧
      ∀ (clientId : Nat) (memory : Nat → UInt8) (reads : List (List UInt8)),
        (∃ g, reads.foldlM BufferedGateway.sendAndRecv (.init clientId memory) = .ok g) ∧
          Run.Always BufferedGateway.sendAndRecv BufferedGateway.Framing (.init clientId memory)
            reads := by
  refine ⟨?_, recvCallback_no_overlap, BufferedGateway.reads_framed⟩
  refine Run.always_iff_alongRun (fun s m h => h.framing) (fun s m t h hclients hroom =>
    h.settle hclients hroom) (fun s m t h hclients hfull s' hstep => ?_) (Follows.init memory)
      hclients
  rw [h.full hclients hfull] at hstep
  cases hstep

/-- A record in two pieces, the second with the first bytes of the next record. -/
def twoPieces : List ReadTurn :=
  let bytes := orderManagerClientRequestCodec.encodeAll (OrderManager.burst 2)
  [.sendAndRecv ⟨0, bytes.take 20, 100⟩, .sendAndRecv ⟨0, (bytes.drop 20).take 30, 101⟩,
    .recvFinished (SortBy.reverseTies _)]

theorem framing_iff_two_pieces : (∃ s, twoPieces.foldlM step (init fun _ _ => 0) = .ok s) ∧
    Run.Always step Framing (init fun _ _ => 0) twoPieces :=
  (framing_iff _ twoPieces (by decide +kernel)).1.mpr (by decide +kernel)

/-- **The records behind a full sequencer are never decoded.** -/
theorem not_framing : ¬ ∀ (memory : Nat → Nat → UInt8) (turns : List ReadTurn),
    Run.AlongRun ReadTurn.settle ReadTurn.KnownClients .init turns →
      (∃ s, turns.foldlM step (init memory) = .ok s) ∧
        Run.Always step Framing (init memory) turns := by
  intro hframing
  let r : SocketRead := ⟨0, orderManagerClientRequestCodec.encodeAll
    (OrderManager.burst (kMaxPendingRequests + 2)), 0⟩
  have harrived : OrderManager.init.arrivedIn r =
      (OrderManager.burst (kMaxPendingRequests + 2)).map fun q => ⟨0, 0, q⟩ :=
    OrderManager.arrived_burst rfl (by decide)
  have hseq : OrderManager.init.InSequence (OrderManager.init.arrivedIn r) := by
    rw [harrived]
    exact OrderManager.inSequence_burst _ rfl rfl
  have hclients : (ReadTurn.sendAndRecv r).KnownClients .init := hseq.clients
  have hfull : ¬ (ReadTurn.sendAndRecv r).HasRoom .init := by
    rw [ReadTurn.HasRoom, hseq.acceptable, harrived, List.length_map, OrderManager.length_burst]
    decide
  obtain ⟨⟨s, hrun⟩, -⟩ := hframing (fun _ _ => 0) [.sendAndRecv r] ⟨hclients, trivial⟩
  obtain ⟨s₁, hstep, -⟩ := Run.foldlM_cons_ok.mp hrun
  rw [(Follows.init _).full hclients hfull] at hstep
  cases hstep

end BufferedServer

end YQuant
