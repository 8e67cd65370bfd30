/-
# What the publisher sends

`MarketDataPublisher::run` copies every update it takes from its queue behind the ones before into
the send buffer of its multicast socket, and calls `sendAndRecv` only when it finds the queue
empty.  Then the whole buffer goes to `::send` as one datagram, and the buffer is emptied whatever
the kernel did with it.  A datagram carries `kMaxUdpPayload` bytes; how many bytes are in the
buffer depends on how many updates the matcher has published by the time the publisher finds
nothing more.

The loop is the one of `PublisherLoop.lean`, with the socket beside it, so the matcher, the
publisher and the synthesizer step in any order.  `fits_iff_within` says which runs send datagrams
that arrive: those in which the publisher never takes more than `kMaxBurst` updates before it finds
the queue empty.

A datagram that is too long is not sent in pieces; the kernel refuses it, and the buffer is emptied
all the same, so all of its updates are missing.  A reader sees the gap and has to recover.  How
long the publisher keeps finding something is a race between two threads, and `burst_does_not_fit`
shows that one burst of orders is enough to lose it.
-/
import YQuant.Lib.NumberedStream
import YQuant.Lib.Run
import YQuant.MarketData.PublisherLoop
import YQuant.Matcher.Refinement
import YQuant.OrderManager.Wire

namespace YQuant

/-! ## 1. Records -/

def MarketUpdateType.toByte : MarketUpdateType → UInt8
  | .invalid => 0
  | .clear => 1
  | .add => 2
  | .modify => 3
  | .cancel => 4
  | .trade => 5
  | .snapshotStart => 6
  | .snapshotEnd => 7
  | .other code => code

/-- `MatchingEngineMarketUpdate` as it lies in memory (`#pragma pack(1)`): `type_`, `symbolId_`,
`orderId_`, `side_`, `price_`, `quantity_`, `priority_`. -/
def MatchingEngineMarketUpdate.bytes (u : MatchingEngineMarketUpdate) : List UInt8 :=
  [u.type.toByte] ++ (Codec.unsigned 4).encode u.symbolId ++ (Codec.unsigned 8).encode u.orderId ++
    [u.side.toByte] ++ (Codec.signed 8).encode u.price ++ (Codec.unsigned 4).encode u.quantity ++
    (Codec.unsigned 8).encode u.priority

/-- `MarketDataPublisherMarketUpdate`: `seq_num`, `update`. -/
def MarketDataPublisherMarketUpdate.bytes (r : MarketDataPublisherMarketUpdate) : List UInt8 :=
  (Codec.signed 8).encode r.seqNum ++ r.update.bytes

/-- The records one after the other. -/
def incrementalBytes (rs : List MarketDataPublisherMarketUpdate) : List UInt8 :=
  rs.flatMap MarketDataPublisherMarketUpdate.bytes

/-- `sizeof(size_t) + sizeof(MatchingEngineMarketUpdate)`. -/
def kIncrementalRecordSize : Nat := 42

theorem MatchingEngineMarketUpdate.length_bytes (u : MatchingEngineMarketUpdate) :
    u.bytes.length = 34 := by
  simp only [bytes, List.length_append, List.length_singleton, Codec.length_encode]
  rfl

theorem MarketDataPublisherMarketUpdate.length_bytes (r : MarketDataPublisherMarketUpdate) :
    r.bytes.length = kIncrementalRecordSize := by
  rw [bytes, List.length_append, Codec.length_encode, MatchingEngineMarketUpdate.length_bytes]
  rfl

theorem length_incrementalBytes (rs : List MarketDataPublisherMarketUpdate) :
    (incrementalBytes rs).length = rs.length * kIncrementalRecordSize := by
  induction rs with
  | nil => rfl
  | cons r rs ih =>
    rw [incrementalBytes, List.flatMap_cons, List.length_append, r.length_bytes, List.length_cons,
      Nat.succ_mul, Nat.add_comm]
    exact congrArg (· + kIncrementalRecordSize) ih

theorem incrementalBytes_append (rs rs' : List MarketDataPublisherMarketUpdate) :
    incrementalBytes (rs ++ rs') = incrementalBytes rs ++ incrementalBytes rs' :=
  List.flatMap_append

theorem incrementalBytes_flatten (batches : List (List MarketDataPublisherMarketUpdate)) :
    (batches.map incrementalBytes).flatten = incrementalBytes batches.flatten := by
  induction batches with
  | nil => rfl
  | cons batch batches ih =>
    rw [List.map_cons, List.flatten_cons, List.flatten_cons, incrementalBytes_append, ih]

/-- What `run` copies for an update is the record of the update. -/
theorem bytes_stamp (n : Nat) (u : MatchingEngineMarketUpdate) :
    (PublisherState.stamp n u).bytes = sizeCodec.encode n ++ u.bytes := by
  have hword : kWord64 = 256 ^ 8 := by decide
  rw [MarketDataPublisherMarketUpdate.bytes, PublisherState.stamp, hword,
    Codec.encode_signed_bmod, sizeCodec]

/-! ## 2. The socket -/

def McastBufferSize : Nat := 64 * 1024 * 1024

/-- `McastSocket`, of which only the first `next_send_valid_index_` bytes of the send buffer
matter to the publisher. -/
structure McastSocket where
  outboundData : List UInt8
deriving DecidableEq, Repr

namespace McastSocket

/-- `send`: the copy first, then the check of the new length. -/
def send (t : McastSocket) (data : List UInt8) : Except Fault McastSocket :=
  if t.outboundData.length + data.length ≤ McastBufferSize then do
    let t : McastSocket := ⟨t.outboundData ++ data⟩
    assertThat (t.outboundData.length < McastBufferSize)
      "Mcast socket buffer filled up and sendAndRecv() not called."
    .ok t
  else .error .outOfBounds

/-- `sendAndRecv`, with the buffer it hands to `::send`.  Nothing is received on this socket. -/
def sendAndRecv (t : McastSocket) : McastSocket × Option (List UInt8) :=
  (⟨[]⟩, if 0 < t.outboundData.length then some t.outboundData else none)

/-- `send` returns while the buffer stays below its size. -/
theorem send_eq_ok_iff {t t' : McastSocket} {data : List UInt8} : t.send data = .ok t' ↔
    t.outboundData.length + data.length < McastBufferSize ∧ t' = ⟨t.outboundData ++ data⟩ := by
  unfold send
  split
  · dsimp only
    rw [List.length_append]
    by_cases hlt : t.outboundData.length + data.length < McastBufferSize
    · simp [hlt, eq_comm]
    · simp [hlt]
  · next hle => simp only [reduceCtorEq, false_iff, not_and]; omega

end McastSocket

/-! ## 3. The publisher and its socket -/

/-- The largest payload of a UDP datagram over IPv4. -/
def kMaxUdpPayload : Nat := 65507

/-- The number of records that a datagram has room for. -/
def kMaxBurst : Nat := kMaxUdpPayload / kIncrementalRecordSize

/-- What a step of the publisher asks of `incremental_socket_`. -/
inductive SocketCall where
  | none
  /-- Two calls of `send`. -/
  | send (seqNum : Nat) (update : MatchingEngineMarketUpdate)
  | sendAndRecv
deriving DecidableEq, Repr

/-- The call that goes with the next step of the publisher.  The inner loop ends when
`GetNextToRead` returns null or `size()` is zero. -/
def PublisherState.socketCall (s : PublisherState) : SocketCall :=
  match s.publisher with
  | .reading =>
    match s.publish.2.1 with
    | .empty => .sendAndRecv
    | _ => .none
  | .sizing =>
    match s.publish.2.1 with
    | .sized _ 0 => .sendAndRecv
    | _ => .none
  | .sending =>
    match s.publish.2.1 with
    | .read update => .send s.nextIncSeqNum update
    | _ => .none
  | _ => .none

structure PublisherOutput where
  loop : PublisherState
  incrementalSocket : McastSocket
  /-- The buffers handed to `::send`. -/
  sent : List (List UInt8)
  /-- How many updates the inner loop has taken since it was entered. -/
  drained : Nat

namespace PublisherOutput

def init : PublisherOutput where
  loop := .init kMaxMarketUpdates kMaxMarketUpdates
  incrementalSocket := ⟨[]⟩
  sent := []
  drained := 0

def sendAndRecv (s : PublisherOutput) : PublisherOutput :=
  let (socket, data) := s.incrementalSocket.sendAndRecv
  { s with incrementalSocket := socket, sent := s.sent ++ data.toList, drained := 0 }

/-- One step of the publisher. -/
def publish (s : PublisherOutput) : Except Fault PublisherOutput :=
  let call := s.loop.socketCall
  let s := { s with loop := s.loop.publish.1 }
  match call with
  | .none => .ok s
  | .send seqNum update => do
    let socket ← s.incrementalSocket.send (sizeCodec.encode seqNum)
    let socket ← socket.send update.bytes
    .ok { s with incrementalSocket := socket, drained := s.drained + 1 }
  | .sendAndRecv => .ok s.sendAndRecv

/-- One step.  The other threads do not touch the socket; a step that a thread cannot make changes
nothing. -/
def step (s : PublisherOutput) : PublisherAction → Except Fault PublisherOutput
  | .publisher => s.publish
  | action =>
    match s.loop.step action with
    | none => .ok s
    | some (loop, _) => .ok { s with loop := loop }

/-- The datagrams the kernel takes; a longer buffer is refused, and has been emptied all the same.
-/
def delivered (s : PublisherOutput) : List (List UInt8) :=
  s.sent.filter fun data => data.length ≤ kMaxUdpPayload

/-- **Every update fits a datagram**: each buffer handed to `::send` holds whole records with
consecutive numbers and is not too long, so what has been numbered has been delivered or is still in
the send buffer. -/
structure Fits (s : PublisherOutput) : Prop where
  records : ∀ data ∈ s.sent, ∃ n updates,
    data = incrementalBytes (NumberedStream.stamped PublisherState.stamp n updates)
  length : ∀ data ∈ s.sent, data.length ≤ kMaxUdpPayload
  lossless : s.delivered.flatten ++ s.incrementalSocket.outboundData =
    incrementalBytes s.loop.incremental

/-- The inner loop takes as many updates as fit into the send buffer at most, and when it ends it
has taken as many as a datagram has room for at most. -/
def Within (s : PublisherOutput) : PublisherAction → Prop
  | .publisher =>
    match s.loop.socketCall with
    | .none => True
    | .send .. => (s.drained + 1) * kIncrementalRecordSize < McastBufferSize
    | .sendAndRecv => s.drained ≤ kMaxBurst
  | _ => True

end PublisherOutput

/-! ## 4. What one step does -/

namespace PublisherState

/-- The record of an update joins the stream when it is copied into the buffer. -/
theorem publish_incremental (s : PublisherState) : s.publish.1.incremental =
    match s.socketCall with
    | .send seqNum update => s.incremental ++ [stamp seqNum update]
    | _ => s.incremental := by
  unfold socketCall publish
  cases s.publisher with
  | reading =>
    rcases s.outgoingMdUpdates.consume with ⟨md, event⟩
    cases event <;> cases hc : md.consumer <;> simp [hc]
  | sizing =>
    rcases s.outgoingMdUpdates.observe 0 with ⟨md, event⟩
    cases event with
    | sized thread size => by_cases hz : size = 0 <;> simp [hz]
    | _ => rfl
  | sending =>
    -- a consumer without a slot reads nothing
    unfold SpscState.consume
    cases hc : s.outgoingMdUpdates.consumer with
    | idle =>
      let q := s.outgoingMdUpdates.queue
      by_cases hsame : q.nextReadIndex = q.cachedWriteIndex <;> simp [q, hsame]
    | reload currentRead =>
      by_cases hsame : currentRead = s.outgoingMdUpdates.queue.nextWriteIndex <;> simp [hsame]
    | slot | taken | storing => rfl
  | releasing index =>
    rcases s.outgoingMdUpdates.consume with ⟨md, event⟩
    cases event <;> rfl
  | forwarding index => dsimp only; split <;> rfl
  | storing update => dsimp only; split <;> rfl

/-- The numbers of the stream are consecutive. -/
theorem stamped_eq (updates : List MatchingEngineMarketUpdate) :
    stamped updates = NumberedStream.stamped stamp 1 updates := by
  have hfrom : ∀ n, (updates.zipIdx n).map (fun u => stamp (u.2 + 1) u.1) =
      NumberedStream.stamped stamp (n + 1) updates := by
    induction updates with
    | nil => exact fun _ => rfl
    | cons u updates ih =>
      intro n
      rw [List.zipIdx_cons, List.map_cons, ih, NumberedStream.stamped]
  exact hfrom 0

end PublisherState

namespace PublisherOutput

variable {s s' : PublisherOutput}

/-- The two copies of an update are one record, and its end has to stay below the size of the
buffer. -/
theorem publish_of_send_iff {n : Nat} {u : MatchingEngineMarketUpdate}
    (hcall : s.loop.socketCall = .send n u) : s.publish = .ok s' ↔
      s.incrementalSocket.outboundData.length + kIncrementalRecordSize < McastBufferSize ∧
      s' = { s with
        loop := s.loop.publish.1
        incrementalSocket :=
          ⟨s.incrementalSocket.outboundData ++ (PublisherState.stamp n u).bytes⟩
        drained := s.drained + 1 } := by
  have hnumber : (sizeCodec.encode n).length = 8 := Codec.length_encode _ _
  have hupdate : u.bytes.length = 34 := u.length_bytes
  unfold publish
  rw [hcall, bytes_stamp, ← List.append_assoc]
  dsimp only
  constructor
  · intro h
    obtain ⟨t, hsend, h⟩ := bind_ok h
    obtain ⟨t', hsend', h⟩ := bind_ok h
    obtain ⟨-, rfl⟩ := McastSocket.send_eq_ok_iff.mp hsend
    obtain ⟨hlt, rfl⟩ := McastSocket.send_eq_ok_iff.mp hsend'
    rw [List.length_append, hnumber, hupdate] at hlt
    exact ⟨hlt, (Except.ok.inj h).symm⟩
  · rintro ⟨hlt, rfl⟩
    unfold kIncrementalRecordSize at hlt
    have hsend := McastSocket.send_eq_ok_iff.mpr
      ⟨show s.incrementalSocket.outboundData.length + (sizeCodec.encode n).length <
        McastBufferSize by omega, rfl⟩
    have hsend' := McastSocket.send_eq_ok_iff.mpr
      ⟨show (s.incrementalSocket.outboundData ++ sizeCodec.encode n).length + u.bytes.length <
        McastBufferSize by rw [List.length_append]; omega, rfl⟩
    rw [hsend, ok_bind, hsend', ok_bind]

theorem publish_of_none (hcall : s.loop.socketCall = .none) :
    s.publish = .ok { s with loop := s.loop.publish.1 } := by
  rw [publish, hcall]

theorem publish_of_sendAndRecv (hcall : s.loop.socketCall = .sendAndRecv) :
    s.publish = .ok ({ s with loop := s.loop.publish.1 } : PublisherOutput).sendAndRecv := by
  rw [publish, hcall]

/-- The other threads leave the stream as it is. -/
theorem step_incremental {loop loop' : PublisherState} {action : PublisherAction}
    {events : PublisherEvents} (haction : action ≠ .publisher)
    (hstep : loop.step action = some (loop', events)) : loop'.incremental = loop.incremental := by
  cases action with
  | matcher update =>
    cases hstep
    rfl
  | publisher => exact absurd rfl haction
  | synthesizer action =>
    have hconsumes : ∀ value, action ≠ .producer value := by
      rintro value rfl
      cases hstep
    rw [PublisherState.Agree.step_synthesizer hconsumes] at hstep
    obtain ⟨_, -, heq⟩ := Option.map_eq_some_iff.mp hstep
    cases heq
    rfl

/-! ## 5. The invariant -/

/-- **What every run keeps**: the stream is cut into the buffers handed to `::send` and the one
being filled. -/
structure Inv (s : PublisherOutput) : Prop where
  agree : ∃ k k' h h', PublisherState.Agree k k' s.loop h h'
  batches : ∃ (batches : List (List MarketDataPublisherMarketUpdate)) (queued : List _),
    s.loop.incremental = batches.flatten ++ queued ∧
    s.sent = batches.map incrementalBytes ∧
    s.incrementalSocket.outboundData = incrementalBytes queued ∧ s.drained = queued.length

namespace Inv

theorem init : Inv init where
  agree := ⟨18, 18, _, _, PublisherState.init_agree (by decide) (by decide) (by decide +kernel)
    (by decide +kernel)⟩
  batches := ⟨[], [], rfl, rfl, rfl, rfl⟩

/-- The length of the send buffer. -/
theorem length_outbound (hi : s.Inv) :
    s.incrementalSocket.outboundData.length = s.drained * kIncrementalRecordSize := by
  obtain ⟨-, queued, -, -, hqueued, hdrained⟩ := hi.batches
  rw [hqueued, length_incrementalBytes, hdrained]

/-- The buffers are made of whole records, and nothing is missing while they are short enough. -/
theorem fits_iff (hi : s.Inv) : s.Fits ↔ ∀ data ∈ s.sent, data.length ≤ kMaxUdpPayload := by
  refine ⟨Fits.length, fun hlength => ?_⟩
  obtain ⟨batches, queued, hstream, hsent, hqueued, -⟩ := hi.batches
  refine ⟨fun data hdata => ?_, hlength, ?_⟩
  · obtain ⟨k, k', h, h', ha⟩ := hi.agree
    rw [hsent] at hdata
    obtain ⟨batch, hbatch, rfl⟩ := List.mem_map.mp hdata
    obtain ⟨before, after, rfl⟩ := List.append_of_mem hbatch
    have hsplit := PublisherState.stamped_eq _ ▸ ha.sent.symm.trans hstream
    rw [List.flatten_append, List.flatten_cons, List.append_assoc] at hsplit
    obtain ⟨_, _, -, -, hrest⟩ := NumberedStream.stamped_split hsplit
    rw [List.append_assoc] at hrest
    obtain ⟨us, _, -, hnumbered, -⟩ := NumberedStream.stamped_split hrest.symm
    exact ⟨_, us, congrArg incrementalBytes hnumbered⟩
  · have hall : s.delivered = s.sent := List.filter_eq_self.mpr (by simpa using hlength)
    rw [hall, hsent, incrementalBytes_flatten, hqueued, ← incrementalBytes_append, hstream]

/-- A step of another thread. -/
theorem step_other (hi : s.Inv) {action : PublisherAction} (haction : action ≠ .publisher) :
    ∃ s', s.step action = .ok s' ∧ s'.Inv ∧ s'.sent = s.sent := by
  have hstep : s.step action = match s.loop.step action with
      | none => .ok s
      | some (loop, _) => .ok { s with loop := loop } := by
    cases action with
    | publisher => exact absurd rfl haction
    | matcher | synthesizer => rfl
  rw [hstep]
  cases hloop : s.loop.step action with
  | none => exact ⟨s, rfl, hi, rfl⟩
  | some next =>
    obtain ⟨loop, events⟩ := next
    obtain ⟨k, k', h, h', ha⟩ := hi.agree
    refine ⟨_, rfl, ⟨⟨k, k', _, _, ha.step hloop⟩, ?_⟩, rfl⟩
    dsimp only
    rw [step_incremental haction hloop]
    exact hi.batches

theorem publish_none (hi : s.Inv) (hcall : s.loop.socketCall = .none) :
    ∃ s', s.publish = .ok s' ∧ s'.Inv ∧ s'.sent = s.sent := by
  obtain ⟨k, k', h, h', ha⟩ := hi.agree
  refine ⟨_, publish_of_none hcall, ⟨⟨k, k', _, _, ha.publish⟩, ?_⟩, rfl⟩
  dsimp only
  rw [PublisherState.publish_incremental, hcall]
  exact hi.batches

/-- A record joins the buffer being filled. -/
theorem publish_send (hi : s.Inv) {n : Nat} {u : MatchingEngineMarketUpdate}
    (hcall : s.loop.socketCall = .send n u) (hstep : s.publish = .ok s') :
    s'.Inv ∧ s'.sent = s.sent := by
  obtain ⟨k, k', h, h', ha⟩ := hi.agree
  obtain ⟨batches, queued, hstream, hsent, hqueued, hdrained⟩ := hi.batches
  obtain ⟨-, rfl⟩ := (publish_of_send_iff hcall).mp hstep
  refine ⟨⟨⟨k, k', _, _, ha.publish⟩, batches, queued ++ [PublisherState.stamp n u],
    ?_, hsent, ?_, ?_⟩, rfl⟩
  · dsimp only
    rw [PublisherState.publish_incremental, hcall]
    dsimp only
    rw [hstream, List.append_assoc]
  · dsimp only
    rw [hqueued, incrementalBytes_append]
    exact congrArg _ (List.append_nil _).symm
  · rw [List.length_append]
    exact congrArg (· + 1) hdrained

/-- The buffer being filled becomes a datagram, unless it is empty. -/
theorem publish_sendAndRecv (hi : s.Inv) (hcall : s.loop.socketCall = .sendAndRecv) :
    ∃ s', s.publish = .ok s' ∧ s'.Inv ∧ ∀ data, data ∈ s'.sent ↔
      data ∈ s.sent ∨ 0 < s.drained ∧ data = s.incrementalSocket.outboundData := by
  obtain ⟨k, k', h, h', ha⟩ := hi.agree
  obtain ⟨batches, queued, hstream, hsent, hqueued, hdrained⟩ := hi.batches
  have hlen := hi.length_outbound
  refine ⟨_, publish_of_sendAndRecv hcall, ⟨⟨k, k', _, _, ha.publish⟩, ?_⟩, ?_⟩
  all_goals unfold PublisherOutput.sendAndRecv McastSocket.sendAndRecv kIncrementalRecordSize at *
  · have hincremental := s.loop.publish_incremental
    rw [hcall] at hincremental
    by_cases hempty : s.drained = 0
    · obtain rfl := List.length_eq_zero_iff.mp (hdrained.symm.trans hempty)
      refine ⟨batches, [], hincremental.trans hstream, ?_, rfl, rfl⟩
      have hnone : ¬ 0 < s.incrementalSocket.outboundData.length := by omega
      dsimp only
      rw [if_neg hnone, Option.toList_none, List.append_nil, hsent]
    · refine ⟨batches ++ [queued], [], ?_, ?_, rfl, rfl⟩
      · dsimp only
        rw [hincremental]
        simpa using hstream
      · have hsome : 0 < s.incrementalSocket.outboundData.length := by omega
        dsimp only
        rw [if_pos hsome, hsent, hqueued, List.map_append]
        rfl
  · intro data
    by_cases hempty : s.drained = 0
    · have hnone : ¬ 0 < s.incrementalSocket.outboundData.length := by omega
      simp [hempty, hnone]
    · have hsome : 0 < s.incrementalSocket.outboundData.length := by omega
      simp [hsome, Nat.pos_of_ne_zero hempty]

/-- **Every step keeps it.** -/
theorem step (hi : s.Inv) {action : PublisherAction} (hstep : s.step action = .ok s') :
    s'.Inv := by
  by_cases haction : action = .publisher
  · subst haction
    cases hcall : s.loop.socketCall with
    | none =>
      obtain ⟨s₁, hs₁, hi₁, -⟩ := hi.publish_none hcall
      obtain rfl := Except.ok.inj (hstep.symm.trans hs₁)
      exact hi₁
    | send n u => exact (hi.publish_send hcall hstep).1
    | sendAndRecv =>
      obtain ⟨s₁, hs₁, hi₁, -⟩ := hi.publish_sendAndRecv hcall
      obtain rfl := Except.ok.inj (hstep.symm.trans hs₁)
      exact hi₁
  · obtain ⟨s₁, hs₁, hi₁, -⟩ := hi.step_other haction
    obtain rfl := Except.ok.inj (hstep.symm.trans hs₁)
    exact hi₁

end Inv

/-! ## 6. The condition -/

/-- A datagram has room for `kMaxBurst` records. -/
theorem le_kMaxUdpPayload_iff {n : Nat} :
    n * kIncrementalRecordSize ≤ kMaxUdpPayload ↔ n ≤ kMaxBurst :=
  (Nat.le_div_iff_mul_le (by decide)).symm

/-- **One step.** -/
theorem Inv.step_fits_iff (hi : s.Inv) (hf : s.Fits) (action : PublisherAction) :
    (∃ s', s.step action = .ok s' ∧ s'.Inv ∧ s'.Fits) ↔ s.Within action := by
  have hlength := hi.fits_iff.mp hf
  -- a step after which the same buffers have been sent
  have hsame : ∀ {s'}, s.step action = .ok s' → s'.Inv → s'.sent = s.sent →
      ∃ s', s.step action = .ok s' ∧ s'.Inv ∧ s'.Fits := fun hstep hi' hsent =>
    ⟨_, hstep, hi', hi'.fits_iff.mpr (hsent ▸ hlength)⟩
  by_cases haction : action = .publisher
  · subst haction
    unfold Within
    cases hcall : s.loop.socketCall with
    | none =>
      obtain ⟨s', hstep, hi', hsent⟩ := hi.publish_none hcall
      exact iff_of_true (hsame hstep hi' hsent) trivial
    | send n u =>
      have hlen := hi.length_outbound
      constructor
      · rintro ⟨s', hstep, -⟩
        obtain ⟨hlt, -⟩ := (publish_of_send_iff hcall).mp hstep
        rw [hlen, ← Nat.succ_mul] at hlt
        exact hlt
      · intro hwithin
        rw [Nat.succ_mul, ← hlen] at hwithin
        have hstep := (publish_of_send_iff hcall).mpr ⟨hwithin, rfl⟩
        obtain ⟨hi', hsent⟩ := hi.publish_send hcall hstep
        exact hsame hstep hi' hsent
    | sendAndRecv =>
      obtain ⟨s', hstep, hi', hsent⟩ := hi.publish_sendAndRecv hcall
      dsimp only
      rw [← le_kMaxUdpPayload_iff, ← hi.length_outbound]
      constructor
      · rintro ⟨s₁, hstep₁, -, hf₁⟩
        obtain rfl := Except.ok.inj (hstep₁.symm.trans hstep)
        rcases Nat.eq_zero_or_pos s.drained with hzero | hpos
        · rw [hi.length_outbound, hzero, Nat.zero_mul]
          exact Nat.zero_le _
        · exact hf₁.length _ ((hsent _).mpr (Or.inr ⟨hpos, rfl⟩))
      · intro hle
        refine ⟨s', hstep, hi', hi'.fits_iff.mpr fun data hdata => ?_⟩
        rcases (hsent data).mp hdata with hold | ⟨-, rfl⟩
        · exact hlength data hold
        · exact hle
  · obtain ⟨s', hstep, hi', hsent⟩ := hi.step_other haction
    refine iff_of_true (hsame hstep hi' hsent) ?_
    cases action with
    | publisher => exact absurd rfl haction
    | matcher | synthesizer => trivial

/-- **A run sends every update in a datagram that fits, if and only if** the publisher has never
taken more than `kMaxBurst` updates when it finds the queue empty, and never takes more of them
than the send buffer holds.  How many it takes is a matter of timing: as long as the matcher
publishes faster than the publisher takes, the inner loop does not end.  That a datagram that fits
arrives is the network's business. -/
theorem fits_iff_within (actions : List PublisherAction) :
    (∃ s, actions.foldlM step init = .ok s) ∧ Run.Always step Fits init actions ↔
      Run.Through step Within init actions := by
  have hfits : init.Fits := Inv.init.fits_iff.mpr (by simp [init])
  rw [← Run.always_and_inv (I := Inv) (fun _ _ _ hi => hi.step) Inv.init]
  refine Run.always_iff_through (fun s action h (_ : True) => ?_) ⟨Inv.init, hfits⟩
    fun _ _ => trivial
  exact h.1.step_fits_iff h.2 action

/-! ## 7. A burst of the matcher -/

/-- The matcher publishes an update; the publisher takes it and forwards it. -/
def relay (u : MatchingEngineMarketUpdate) : List PublisherAction :=
  List.replicate 4 (.matcher u) ++ List.replicate 12 .publisher

/-- The matcher is ahead of the publisher until all updates are taken. -/
def burst (updates : List MatchingEngineMarketUpdate) : List PublisherAction :=
  updates.flatMap relay ++ [.publisher, .publisher]

/-- A queue that has never been full. -/
def ring {T : Type} (store : Nat → T) (written taken known : Nat) (consumer : ConsumerAt) :
    SpscState T where
  queue := ⟨store, kMaxMarketUpdates - 1, kMaxMarketUpdates, written, 0, taken, known⟩
  producer := .idle
  consumer := consumer
  observers := fun _ => none

section Relay

variable {store : Nat → MatchingEngineMarketUpdate}
  {snapshotStore : Nat → MarketDataPublisherMarketUpdate}
  {snapshot : SpscState MarketDataPublisherMarketUpdate} {publisher : PublisherAt}
  {md : SpscState MatchingEngineMarketUpdate}
  {incremental : List MarketDataPublisherMarketUpdate} {socket : McastSocket}
  {sent : List (List UInt8)} {n seqNum drained : Nat}

theorem add64_of_lt (hn : n + 1 < kMaxMarketUpdates) : add64 n 1 = n + 1 := by
  unfold add64 kMaxMarketUpdates kWord64 at *
  omega

theorem ring_not_full {T : Type} {ringStore : Nat → T} {written taken known : Nat}
    (hn : n + 1 < kMaxMarketUpdates) :
    ¬ LFQueue.looksFull ⟨ringStore, kMaxMarketUpdates - 1, kMaxMarketUpdates, written, 0, taken,
      known⟩ n 0 := by
  have hpow : kMaxMarketUpdates = 2 ^ 18 := rfl
  rw [LFQueue.looksFull, add64_of_lt hn, hpow, Nat.and_two_pow_sub_one_eq_mod, Nat.zero_and,
    Nat.mod_eq_of_lt (hpow ▸ hn)]
  omega

theorem matcher_publishes (hn : n + 1 < kMaxMarketUpdates) (u : MatchingEngineMarketUpdate) :
    (List.replicate 4 (.matcher u)).foldlM step
        ⟨⟨ring store n n n .idle, snapshot, publisher, seqNum, incremental⟩, socket, sent,
          drained⟩ =
      .ok ⟨⟨ring (Function.update store (n &&& (kMaxMarketUpdates - 1)) u) (n + 1) n n .idle,
        snapshot, publisher, seqNum, incremental⟩, socket, sent, drained⟩ := by
  simp only [List.replicate, List.foldlM_cons, List.foldlM_nil, step, PublisherState.step, ring,
    SpscState.produce, ring_not_full hn, add64_of_lt hn, if_false, ok_bind]
  rfl

/-- The slot is there only after the write index has been read again. -/
theorem publisher_reads :
    (List.replicate 4 .publisher).foldlM step
        ⟨⟨ring store (n + 1) n n .idle, snapshot, .reading, seqNum, incremental⟩, socket, sent,
          drained⟩ =
      .ok ⟨⟨ring store (n + 1) n (n + 1) (.slot (n &&& (kMaxMarketUpdates - 1))),
        snapshot, .sending, seqNum, incremental⟩, socket, sent, drained⟩ := by
  have hne : ¬ n = n + 1 := by omega
  have hsize : sub64 (n + 1) n = 1 := by
    rw [sub64_of_le (Nat.le_succ n)]
    unfold kWord64
    omega
  have hclear : ∀ a : Nat, Function.update
      (Function.update (fun _ : Nat => (none : Option Nat)) 0 (some a)) 0 none = fun _ => none := by
    intro a
    rw [Function.update_idem]
    exact Function.update_eq_self_iff.mpr rfl
  simp only [List.replicate, List.foldlM_cons, List.foldlM_nil, step, publish,
    PublisherState.publish, PublisherState.socketCall, ring, SpscState.consume, SpscState.observe,
    hne, hsize, hclear, Function.update_self, if_true, if_false, one_ne_zero, ok_bind]
  rfl

theorem publisher_sends {index : Nat}
    (hroom : socket.outboundData.length + kIncrementalRecordSize < McastBufferSize) :
    step ⟨⟨ring store (n + 1) n (n + 1) (.slot index), snapshot, .sending, seqNum, incremental⟩,
        socket, sent, drained⟩ .publisher =
      .ok ⟨⟨ring store (n + 1) n (n + 1) .taken, snapshot, .releasing index, seqNum,
        incremental ++ [PublisherState.stamp seqNum (store index)]⟩,
        ⟨socket.outboundData ++ (PublisherState.stamp seqNum (store index)).bytes⟩, sent,
        drained + 1⟩ := by
  exact (publish_of_send_iff (s := ⟨⟨ring store (n + 1) n (n + 1) (.slot index), snapshot, .sending,
    seqNum, incremental⟩, socket, sent, drained⟩) rfl).mpr ⟨hroom, rfl⟩

theorem publisher_forwards (hn : n + 1 < kMaxMarketUpdates) {index : Nat} :
    (List.replicate 7 .publisher).foldlM step
        ⟨⟨ring store (n + 1) n (n + 1) .taken, ring snapshotStore n 0 0 .idle, .releasing index,
          seqNum, incremental⟩, socket, sent, drained⟩ =
      .ok ⟨⟨ring store (n + 1) (n + 1) (n + 1) .idle,
        ring (Function.update snapshotStore (n &&& (kMaxMarketUpdates - 1))
          (PublisherState.stamp seqNum (store index))) (n + 1) 0 0 .idle, .reading, add64 seqNum 1,
        incremental⟩, socket, sent, drained⟩ := by
  simp only [List.replicate, List.foldlM_cons, List.foldlM_nil, step, publish,
    PublisherState.publish, PublisherState.socketCall, ring, SpscState.consume, SpscState.produce,
    ring_not_full hn, add64_of_lt hn, if_false, ok_bind]
  rfl

/-- `n` updates have been taken, and no datagram has been sent. -/
def relayed (store : Nat → MatchingEngineMarketUpdate)
    (snapshotStore : Nat → MarketDataPublisherMarketUpdate)
    (incremental : List MarketDataPublisherMarketUpdate) (data : List UInt8) (n : Nat) :
    PublisherOutput :=
  ⟨⟨ring store n n n .idle, ring snapshotStore n 0 0 .idle, .reading, n + 1, incremental⟩, ⟨data⟩,
    [], n⟩

theorem relay_run {data : List UInt8} (hn : n + 1 < kMaxMarketUpdates)
    (hdata : data.length = n * kIncrementalRecordSize) (u : MatchingEngineMarketUpdate) :
    ∃ store' snapshotStore' incremental' data',
      (relay u).foldlM step (relayed store snapshotStore incremental data n) =
        .ok (relayed store' snapshotStore' incremental' data' (n + 1)) ∧
      data'.length = (n + 1) * kIncrementalRecordSize := by
  have hroom : data.length + kIncrementalRecordSize < McastBufferSize := by
    unfold kMaxMarketUpdates kIncrementalRecordSize McastBufferSize at *
    omega
  have hseqNum : add64 (n + 1) 1 = n + 1 + 1 := by
    unfold add64 kMaxMarketUpdates kWord64 at *
    omega
  let index := n &&& (kMaxMarketUpdates - 1)
  let store' := Function.update store index u
  let r := PublisherState.stamp (n + 1) (store' index)
  have hpublisher : List.replicate 12 PublisherAction.publisher =
      List.replicate 4 .publisher ++ .publisher :: List.replicate 7 .publisher := rfl
  have hrun : (relay u).foldlM step (relayed store snapshotStore incremental data n) =
      .ok (relayed store' (Function.update snapshotStore index r) (incremental ++ [r])
        (data ++ r.bytes) (n + 1)) := by
    rw [relay, hpublisher]
    refine Run.foldlM_append_ok.mpr ⟨_, matcher_publishes hn u, ?_⟩
    refine Run.foldlM_append_ok.mpr ⟨_, publisher_reads, ?_⟩
    refine Run.foldlM_cons_ok.mpr ⟨_, publisher_sends hroom, ?_⟩
    rw [publisher_forwards hn, hseqNum]
    rfl
  refine ⟨_, _, _, _, hrun, ?_⟩
  rw [List.length_append, r.length_bytes, hdata, Nat.succ_mul]

/-- As many updates as the queue of the synthesizer holds can be taken in one go. -/
theorem relays_run {updates : List MatchingEngineMarketUpdate} :
    ∀ {store : Nat → MatchingEngineMarketUpdate}
      {snapshotStore : Nat → MarketDataPublisherMarketUpdate}
      {incremental : List MarketDataPublisherMarketUpdate} {data : List UInt8} {n : Nat},
      n + updates.length < kMaxMarketUpdates → data.length = n * kIncrementalRecordSize →
      ∃ store' snapshotStore' incremental' data',
        (updates.flatMap relay).foldlM step (relayed store snapshotStore incremental data n) =
          .ok (relayed store' snapshotStore' incremental' data' (n + updates.length)) ∧
        data'.length = (n + updates.length) * kIncrementalRecordSize := by
  induction updates with
  | nil => exact fun _ hdata => ⟨_, _, _, _, rfl, hdata⟩
  | cons u updates ih =>
    intro store snapshotStore incremental data n hlt hdata
    rw [List.length_cons] at hlt
    obtain ⟨_, _, _, _, hfirst, hdata₁⟩ :=
      @relay_run store snapshotStore incremental n data (by omega) hdata u
    have hcount : n + 1 + updates.length = n + (u :: updates).length := by
      rw [List.length_cons]
      omega
    obtain ⟨_, _, _, _, hrest, hdata'⟩ := ih (by omega) hdata₁
    rw [hcount] at hrest hdata'
    rw [List.flatMap_cons]
    exact ⟨_, _, _, _, Run.foldlM_append_ok.mpr ⟨_, hfirst, hrest⟩, hdata'⟩

/-- The queue is found empty once the write index has been read again. -/
theorem relayed_flushes {data : List UInt8} (hdata : 0 < data.length) :
    [.publisher, .publisher].foldlM step (relayed store snapshotStore incremental data n) =
      .ok ⟨⟨ring store n n n .idle, ring snapshotStore n 0 0 .idle, .reading, n + 1, incremental⟩,
        ⟨[]⟩, [data], 0⟩ := by
  simp only [List.foldlM_cons, List.foldlM_nil, step, publish, PublisherState.publish,
    PublisherState.socketCall, relayed, ring, SpscState.consume, sendAndRecv,
    McastSocket.sendAndRecv, hdata, if_true, ok_bind]
  rfl

theorem init_eq_relayed : init = relayed (fun _ => default) (fun _ => default) [] [] 0 := by
  have hcapacity : roundUpToPowerOf2 kMaxMarketUpdates = kMaxMarketUpdates := by decide +kernel
  have hmask : sub64 kMaxMarketUpdates 1 = kMaxMarketUpdates - 1 := by decide +kernel
  unfold init PublisherState.init SpscState.init LFQueue.init
  rw [hcapacity, hmask]
  rfl

end Relay

/-- **All updates of a burst are in one datagram.** -/
theorem burst_run {updates : List MatchingEngineMarketUpdate} (hne : updates ≠ [])
    (hlt : updates.length < kMaxMarketUpdates) :
    ∃ s data, (burst updates).foldlM step init = .ok s ∧ s.sent = [data] ∧
      data.length = updates.length * kIncrementalRecordSize := by
  obtain ⟨store, snapshotStore, incremental, data, hrun, hdata⟩ :=
    @relays_run updates (fun _ => default) (fun _ => default) [] [] 0 (by rwa [Nat.zero_add]) rfl
  rw [Nat.zero_add] at hrun hdata
  have hpos : 0 < data.length := by
    have := List.length_pos_iff.mpr hne
    unfold kIncrementalRecordSize at hdata
    omega
  rw [← init_eq_relayed] at hrun
  exact ⟨_, data, Run.foldlM_append_ok.mpr ⟨_, hrun, relayed_flushes hpos⟩, rfl, hdata⟩

end PublisherOutput

/-- A client's buy orders, all at one price. -/
def restingBuys (n : Nat) : List BookCall :=
  (List.range n).map fun i => .add 1 i .buy 10 1

theorem restingBuys_documented {n : Nat} (hn : n ≤ kMaxOrderIds) :
    ∀ call ∈ restingBuys n, call.Documented kDefaultPriceBand := by
  intro call hcall
  obtain ⟨i, hi, rfl⟩ := List.mem_map.mp hcall
  have hi := List.mem_range.mp hi
  exact ⟨by decide, by omega, .inl rfl, by decide, by decide⟩

theorem restingBuys_succ (n : Nat) :
    restingBuys (n + 1) = restingBuys n ++ [.add 1 n .buy 10 1] := by
  rw [restingBuys, List.range_succ, List.map_append]
  rfl

/-- A buy that meets only buys rests and is announced by one update. -/
theorem buy_rests {x : IndexedBook} (hbuys : ∀ o ∈ x.book.resting, o.side = .buy) (i : Nat) :
    (∃ o, (x.step (.add 1 i .buy 10 1)).book.resting = x.book.resting ++ [o] ∧ o.side = .buy) ∧
      (x.updates 0 (.add 1 i .buy 10 1)).length = 1 := by
  have huncrossed : ∀ o ∈ x.book.resting, ¬ o.CrossedBy .buy 10 := by
    intro o ho hc
    rw [Resting.CrossedBy, hbuys o ho] at hc
    exact absurd hc.1 (by decide)
  have hsweep : sweep .buy 10 x.book.resting 1 = ([], x.book.resting, 1) :=
    sweep_uncrossed huncrossed
  constructor
  · have hbook : (x.step (.add 1 i .buy 10 1)).book =
        ListBook.rest ⟨x.book.resting, x.book.arrivals + 1, x.book.joined⟩ 1 i .buy 10 1 := by
      change x.book.add 1 i .buy 10 1 = _
      rw [ListBook.add, ListBook.left, hsweep, if_neg one_ne_zero, ListBook.traded, hsweep]
    exact ⟨_, congrArg ListBook.resting hbook, rfl⟩
  · change (x.book.addUpdates 0 .buy 10 1).length = 1
    rw [ListBook.addUpdates, ListBook.fills, ListBook.left, hsweep]
    rfl

theorem restingBuys_run (n : Nat) :
    ((restingBuys n).foldl IndexedBook.step .empty).book.resting.length = n ∧
      (∀ o ∈ ((restingBuys n).foldl IndexedBook.step .empty).book.resting, o.side = .buy) ∧
      (Run.outputs IndexedBook.step (IndexedBook.updates 0) .empty (restingBuys n)).length = n := by
  induction n with
  | zero => exact ⟨rfl, by simp [restingBuys, IndexedBook.empty, ListBook.empty], rfl⟩
  | succ n ih =>
    obtain ⟨hlen, hbuys, hupdates⟩ := ih
    obtain ⟨⟨o, hresting, ho⟩, hone⟩ := buy_rests hbuys n
    rw [restingBuys_succ, List.foldl_append, List.foldl_cons, List.foldl_nil, hresting,
      Run.outputs_append, List.length_append, List.length_append, hlen, hupdates, Run.outputs_cons,
      Run.outputs_nil,
      List.append_nil, hone]
    refine ⟨rfl, fun o' ho' => ?_, rfl⟩
    rcases List.mem_append.mp ho' with hold | hnew
    · exact hbuys o' hold
    · rw [List.mem_singleton.mp hnew, ho]

/-- The matcher announces as many updates as there are orders, as long as it has room for them. -/
theorem restingBuys_updates {n : Nat} (hn : n ≤ kMaxOrderIds) :
    ∃ b, BookCore.run 0 kDefaultPriceBand (restingBuys n) = .ok b ∧
      b.outgoingMarketUpdates.length = n := by
  have hadmits : ∀ m ≤ n, Run.AlongRun IndexedBook.step (IndexedBook.Admits kDefaultPriceBand)
      .empty (restingBuys m) := by
    intro m
    induction m with
    | zero => exact fun _ => trivial
    | succ m ih =>
      intro hm
      have hdoc := restingBuys_documented (hm.trans hn)
      have hroom := (restingBuys_run (m + 1)).1
      rw [restingBuys_succ] at hdoc hroom ⊢
      rw [List.foldl_append, List.foldl_cons, List.foldl_nil] at hroom
      refine Run.alongRun_append.mpr ⟨ih (by omega), ⟨hdoc _ (by simp), ?_⟩, trivial⟩
      rw [hroom]
      omega
  obtain ⟨b, hrun, -, -, hupdates⟩ := BookCore.run_sim 0 (by decide) (hadmits n le_rfl)
  exact ⟨b, hrun, hupdates ▸ (restingBuys_run n).2.2⟩

namespace PublisherOutput

/-- **One burst is enough**: the updates of `kMaxBurst + 1` buy orders, taken before the publisher
has found the queue empty, are longer than a datagram. -/
theorem burst_does_not_fit :
    ¬ ∀ (calls : List BookCall) (b : BookCore),
      (∀ call ∈ calls, call.Documented kDefaultPriceBand) →
      BookCore.run 0 kDefaultPriceBand calls = .ok b →
      (∃ s, (burst b.outgoingMarketUpdates).foldlM step init = .ok s) ∧
        Run.Always step Fits init (burst b.outgoingMarketUpdates) := by
  intro hall
  have hroom : kMaxBurst + 1 ≤ kMaxOrderIds := by decide
  obtain ⟨b, hrun, hlen⟩ := restingBuys_updates hroom
  have hpos : 0 < b.outgoingMarketUpdates.length := hlen ▸ Nat.succ_pos _
  have hqueue : b.outgoingMarketUpdates.length < kMaxMarketUpdates := by
    rw [hlen]
    decide
  obtain ⟨s, data, hburst, hsent, hdata⟩ := burst_run (List.length_pos_iff.mp hpos) hqueue
  have hfits := (hall _ b (restingBuys_documented hroom) hrun).2.of_foldlM hburst
  have hle := hfits.length data (by simp [hsent])
  rw [hdata, le_kMaxUdpPayload_iff, hlen] at hle
  omega

end PublisherOutput

end YQuant
