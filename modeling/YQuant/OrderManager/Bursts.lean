/-
# How many requests a pass can take

`TCPServer::sendAndRecv` reads every socket before the sequencer publishes anything, so all requests
of a pass wait in `pendingClientRequests`.  A read returns what fits into the free part of a buffer
of `TCPBufferSize` bytes, which is far more than `kMaxPendingRequests` records.

A record does what it does to the maps and counters whether or not the sequencer has room
(`settle`); the room is a budget on the run of all records of a pass.

Whether a request is accepted does not depend on the requests of other clients in the same pass, so
what a pass does with unlimited room can be computed first (`settle`), socket by socket, and the
limit applied afterwards: the pass goes through as long as the number of accepted records stays
within it (`pass_settle`).  For requests in sequence that is the number of records that the reads
complete.

One read of a full buffer completes many times more than the sequencer holds, so a single client
can do this (`not_pass_ends`); and as `FATAL` ends the process, all others lose their server with
it.
-/
import YQuant.OrderManager.Sessions
import YQuant.Trading.OrderGateway

namespace YQuant

open NumberedStream
open OrderGateway (requestRecord)

/-! ## 1. A pass over the sockets -/

/-- A socket of the server when its turn comes: what the kernel has for it, and the receive time. -/
structure SocketRead where
  socket : Nat
  available : List UInt8
  rxTime : Int
deriving DecidableEq, Repr

namespace TCPServer

/-- The turn of a socket in `sendAndRecv`, with the flag `recv`. -/
def turn (s : OrderManager × Bool) (r : SocketRead) : Except Fault (OrderManager × Bool) := do
  let m ← s.1.sendAndRecv r.socket r.available r.rxTime
  .ok (m, s.2 || decide ((s.1.recvSockets r.socket).readable r.available ≠ []))

/-- `TCPServer::sendAndRecv` with the callbacks of the order server. -/
def sendAndRecv (m : OrderManager) (reads : List SocketRead) (ranges : ReceiveTimeSort) :
    Except Fault OrderManager := do
  let s ← reads.foldlM turn (m, false)
  .ok (if s.2 then s.1.recvFinishedCallback ranges else s.1)

end TCPServer

namespace OrderManager

/-- `pendingSize`. -/
def pendingSize (m : OrderManager) : Nat := m.fifoSequencer.pendingClientRequests.length

/-- The records that the turn of a socket completes. -/
def arrivedIn (m : OrderManager) (r : SocketRead) : List Arrival :=
  m.arrived r.socket r.available r.rxTime

/-- The records that a pass completes, in the order in which the server sees them. -/
def passArrivals (m : OrderManager) (reads : List SocketRead) : List Arrival :=
  reads.flatMap m.arrivedIn

/-- How many records the turn of a socket completes. -/
def recordsCompleted (m : OrderManager) (r : SocketRead) : Nat :=
  let t := m.recvSockets r.socket
  let data := t.readable r.available
  if data = [] then 0
  else (t.inboundData.length + data.length) / orderManagerClientRequestCodec.size

/-! ## 2. Records without a limit -/

/-- What a record does when the sequencer has room. -/
def settle (m : OrderManager) (a : Arrival) : OrderManager :=
  if m.accepts a then m.acceptRecord a else m.bindSocket a

/-- How many of the records are accepted when the sequencer has room. -/
def acceptable (m : OrderManager) : List Arrival → Nat
  | [] => 0
  | a :: as => (m.accepts a).toNat + (m.settle a).acceptable as

/-- Every record names a client of the exchange, comes from the socket of that client and carries
the number expected of it. -/
def InSequence (m : OrderManager) (as : List Arrival) : Prop :=
  Run.AlongRun settle (fun m a => a.clientId < kMaxNumClients ∧ m.accepts a = true) m as

instance (m : OrderManager) (as : List Arrival) : Decidable (m.InSequence as) :=
  inferInstanceAs (Decidable (Run.AlongRun ..))

/-- The turn of a socket when the sequencer has room. -/
def settleRead (m : OrderManager) (r : SocketRead) : OrderManager :=
  ((m.arrivedIn r).foldl settle
    (m.recvmsg r.socket ((m.recvSockets r.socket).readable r.available))).setSocket r.socket
      ⟨m.remainder r.socket r.available, []⟩

/-- The same with the flag of `TCPServer::sendAndRecv`. -/
def settleTurn (s : OrderManager × Bool) (r : SocketRead) : OrderManager × Bool :=
  (s.1.settleRead r, s.2 || decide ((s.1.recvSockets r.socket).readable r.available ≠ []))

section Settle

variable {m m' : OrderManager} {a : Arrival} {as : List Arrival} {r : SocketRead}
  {reads : List SocketRead}

theorem settle_accepted (h : m.accepts a = true) : m.settle a = m.acceptRecord a := if_pos h

theorem settle_rejected (h : m.accepts a = false) : m.settle a = m.bindSocket a := by
  rw [settle, h]
  rfl

@[simp] theorem settle_sockets : (m.settle a).recvSockets = m.recvSockets := by
  unfold settle
  split <;> exact bindSocket_sockets

theorem pendingSize_acceptRecord : (m.acceptRecord a).pendingSize = m.pendingSize + 1 :=
  List.length_append

theorem pendingSize_bindSocket : (m.bindSocket a).pendingSize = m.pendingSize := by
  rw [pendingSize, bindSocket_fifo, pendingSize]

theorem pendingSize_settle : (m.settle a).pendingSize = m.pendingSize + (m.accepts a).toNat := by
  cases haccepts : m.accepts a with
  | false => rw [settle_rejected haccepts, pendingSize_bindSocket]; rfl
  | true => rw [settle_accepted haccepts, pendingSize_acceptRecord]; rfl

theorem pendingSize_settles :
    (as.foldl settle m).pendingSize = m.pendingSize + m.acceptable as := by
  induction as generalizing m with
  | nil => rfl
  | cons a as ih => rw [List.foldl_cons, ih, pendingSize_settle, acceptable, Nat.add_assoc]

/-- **A record** settles, unless that is one request too many. -/
theorem receiveRequest_settle (hroom : m.pendingSize ≤ kMaxPendingRequests)
    (hclient : a.clientId < kMaxNumClients) :
    m.receiveRequest a = if (m.settle a).pendingSize ≤ kMaxPendingRequests then .ok (m.settle a)
      else .error (.fatal "To many pending requests ") := by
  rw [receiveRequest_eq hclient, pendingSize_settle]
  cases haccepts : m.accepts a with
  | false =>
    rw [settle_rejected haccepts]
    exact (if_pos hroom).symm
  | true =>
    rw [settle_accepted haccepts, if_pos rfl, Bool.toNat_true]
    change (if kMaxPendingRequests ≤ m.pendingSize then _ else _) = _
    by_cases hfull : kMaxPendingRequests ≤ m.pendingSize
    · rw [if_pos hfull, if_neg (Nat.not_le.mpr (Nat.lt_succ_of_le hfull))]
    · rw [if_neg hfull, if_pos (Nat.succ_le_of_lt (Nat.not_le.mp hfull))]

/-- **The records of a read** settle, unless they are too many. -/
theorem receiveRequests_settle (hroom : m.pendingSize ≤ kMaxPendingRequests)
    (hclients : ∀ a ∈ as, a.clientId < kMaxNumClients) :
    as.foldlM receiveRequest m =
      if (as.foldl settle m).pendingSize ≤ kMaxPendingRequests then .ok (as.foldl settle m)
      else .error (.fatal "To many pending requests ") :=
  Run.foldlM_eq_of_budget OrderManager.pendingSize
    (fun _ _ => (Nat.le_add_right _ _).trans_eq pendingSize_settle.symm)
    (fun _ _ hroom hclient => receiveRequest_settle hroom hclient) hroom
    (Run.AlongRun.of_forall fun a ha _ => hclients a ha)

/-- **The turn of a socket** settles its records, unless they are too many. -/
theorem sendAndRecv_settle (hroom : m.pendingSize ≤ kMaxPendingRequests)
    (hclients : ∀ a ∈ m.arrivedIn r, a.clientId < kMaxNumClients) :
    m.sendAndRecv r.socket r.available r.rxTime =
      if (m.settleRead r).pendingSize ≤ kMaxPendingRequests then .ok (m.settleRead r)
      else .error (.fatal "To many pending requests ") := by
  have hrecords := receiveRequests_settle (m := m.recvmsg r.socket
    ((m.recvSockets r.socket).readable r.available)) hroom hclients
  rw [arrivedIn] at hrecords
  rw [sendAndRecv_eq, hrecords]
  change _ = if ((m.arrivedIn r).foldl settle _).pendingSize ≤ _ then _ else _
  split
  · next hfits => exact (if_pos hfits).symm
  · next hover => exact (if_neg hover).symm

/-! ## 3. Records in sequence -/

theorem settle_congr (hmap : m.cidTcpSocketMap = m'.cidTcpSocketMap)
    (hexpected : m.cidNextExpSeqNum = m'.cidNextExpSeqNum) :
    m.accepts a = m'.accepts a ∧
      (m.settle a).cidTcpSocketMap = (m'.settle a).cidTcpSocketMap ∧
      (m.settle a).cidNextExpSeqNum = (m'.settle a).cidNextExpSeqNum := by
  have haccepts : m.accepts a = m'.accepts a := by
    unfold accepts
    rw [bindSocket_map, bindSocket_map, hmap, hexpected]
  have hbind : (m.bindSocket a).cidTcpSocketMap = (m'.bindSocket a).cidTcpSocketMap := by
    rw [bindSocket_map, bindSocket_map, hmap]
  refine ⟨haccepts, ?_⟩
  cases h : m'.accepts a with
  | false =>
    rw [settle_rejected (haccepts.trans h), settle_rejected h, bindSocket_expected,
      bindSocket_expected]
    exact ⟨hbind, hexpected⟩
  | true =>
    rw [settle_accepted (haccepts.trans h), settle_accepted h]
    unfold acceptRecord
    dsimp only
    rw [hexpected]
    exact ⟨hbind, rfl⟩

/-- Whether records are in sequence is a matter of the bindings and the expected numbers. -/
theorem InSequence.congr : ∀ {as : List Arrival} {m m' : OrderManager}, m.InSequence as →
    m'.cidTcpSocketMap = m.cidTcpSocketMap → m'.cidNextExpSeqNum = m.cidNextExpSeqNum →
      m'.InSequence as
  | [], _, _, _, _, _ => trivial
  | _ :: _, _, _, h, hmap, hexpected => by
    obtain ⟨haccepts, hmap', hexpected'⟩ := settle_congr hmap hexpected
    exact ⟨⟨h.1.1, haccepts.trans h.1.2⟩, InSequence.congr h.2 hmap' hexpected'⟩

theorem acceptable_congr : ∀ {as : List Arrival} {m m' : OrderManager},
    m'.cidTcpSocketMap = m.cidTcpSocketMap → m'.cidNextExpSeqNum = m.cidNextExpSeqNum →
      m'.acceptable as = m.acceptable as
  | [], _, _, _, _ => rfl
  | _ :: _, _, _, hmap, hexpected => by
    obtain ⟨haccepts, hmap', hexpected'⟩ := settle_congr hmap hexpected
    rw [acceptable, acceptable, haccepts, acceptable_congr hmap' hexpected']

theorem InSequence.clients (h : m.InSequence as) : ∀ a ∈ as, a.clientId < kMaxNumClients := by
  induction as generalizing m with
  | nil => exact fun a ha => absurd ha List.not_mem_nil
  | cons a as ih =>
    intro b hb
    rcases List.mem_cons.mp hb with rfl | hb
    · exact h.1.1
    · exact ih h.2 b hb

/-- All of them are accepted. -/
theorem InSequence.acceptable (h : m.InSequence as) : m.acceptable as = as.length := by
  induction as generalizing m with
  | nil => rfl
  | cons a as ih =>
    rw [OrderManager.acceptable, h.1.2, ih h.2, List.length_cons, Nat.add_comm]
    rfl

theorem InSequence.pendingSize (h : m.InSequence as) :
    (as.foldl settle m).pendingSize = m.pendingSize + as.length := by
  rw [pendingSize_settles, h.acceptable]

/-! ## 4. The sockets of a pass -/

theorem settles_sockets : (as.foldl settle m).recvSockets = m.recvSockets := by
  induction as generalizing m with
  | nil => rfl
  | cons a as ih => rw [List.foldl_cons, ih, settle_sockets]

/-- The sequencer has room for what the turn of a socket completes, and every record of it names a
client of the tables. -/
def ReadFits (m : OrderManager) (r : SocketRead) : Prop :=
  (∀ a ∈ m.arrivedIn r, a.clientId < kMaxNumClients) ∧
    m.pendingSize + m.acceptable (m.arrivedIn r) ≤ kMaxPendingRequests

instance (m : OrderManager) (r : SocketRead) : Decidable (m.ReadFits r) :=
  inferInstanceAs (Decidable (_ ∧ _))

/-- The turn of a socket leaves the other sockets alone. -/
theorem settleRead_other {socket : Nat} (hne : socket ≠ r.socket) :
    (m.settleRead r).recvSockets socket = m.recvSockets socket := by
  unfold settleRead setSocket recvmsg
  dsimp only
  rw [Function.update_of_ne hne, settles_sockets]
  exact Function.update_of_ne hne ..

/-- How many requests are pending after the turn of a socket. -/
theorem pendingSize_settleRead :
    (m.settleRead r).pendingSize = m.pendingSize + m.acceptable (m.arrivedIn r) := by
  let m₁ := m.recvmsg r.socket ((m.recvSockets r.socket).readable r.available)
  have hsame : m₁.acceptable (m.arrivedIn r) = m.acceptable (m.arrivedIn r) :=
    acceptable_congr rfl rfl
  rw [← hsame]
  exact pendingSize_settles (m := m₁)

/-- **The turn of a socket goes through** exactly if what it completes fits. -/
theorem sendAndRecv_ok_iff (hroom : m.pendingSize ≤ kMaxPendingRequests) :
    (∃ m', m.sendAndRecv r.socket r.available r.rxTime = .ok m') ↔ m.ReadFits r := by
  constructor
  · rintro ⟨m', h⟩
    obtain ⟨m₁, hrun, -⟩ := sendAndRecv_cases h
    have hclients : ∀ a ∈ m.arrivedIn r, a.clientId < kMaxNumClients := receiveRequests_clients hrun
    rw [sendAndRecv_settle hroom hclients, pendingSize_settleRead] at h
    split at h
    · next hfits => exact ⟨hclients, hfits⟩
    · cases h
  · rintro ⟨hclients, hfits⟩
    rw [sendAndRecv_settle hroom hclients, pendingSize_settleRead, if_pos hfits]
    exact ⟨_, rfl⟩

/-- A turn that goes through leaves no more pending requests than the sequencer holds. -/
theorem sendAndRecv_pendingSize (hroom : m.pendingSize ≤ kMaxPendingRequests)
    (h : m.sendAndRecv r.socket r.available r.rxTime = .ok m') :
    m'.pendingSize ≤ kMaxPendingRequests := by
  obtain ⟨hclients, hfits⟩ := (sendAndRecv_ok_iff hroom).mp ⟨m', h⟩
  rw [sendAndRecv_settle hroom hclients, pendingSize_settleRead, if_pos hfits] at h
  cases h
  exact pendingSize_settleRead.trans_le hfits

/-- What a read completes depends on its own socket only. -/
theorem arrivedIn_congr (hsocket : m.recvSockets r.socket = m'.recvSockets r.socket) :
    m.arrivedIn r = m'.arrivedIn r := by
  unfold arrivedIn arrived arrivals recvmsg setSocket
  dsimp only
  rw [Function.update_self, Function.update_self, hsocket]

theorem passArrivals_congr
    (hsockets : ∀ r ∈ reads, m.recvSockets r.socket = m'.recvSockets r.socket) :
    m.passArrivals reads = m'.passArrivals reads :=
  List.flatMap_congr fun r hr => arrivedIn_congr (hsockets r hr)

/-- How many records a read completes. -/
theorem length_arrivedIn : (m.arrivedIn r).length = m.recordsCompleted r := by
  unfold arrivedIn arrived recordsCompleted
  dsimp only
  split
  · rfl
  · rw [arrivals, List.length_map, Codec.count_frames, recvmsg, setSocket]
    dsimp only
    rw [Function.update_self, TCPSocket.recvmsg, List.length_append]

theorem length_passArrivals :
    (m.passArrivals reads).length = (reads.map m.recordsCompleted).sum := by
  rw [passArrivals, List.length_flatMap]
  exact congrArg List.sum (List.map_congr_left fun r _ => length_arrivedIn)

/-- **The turns of a pass** read what its sockets held at its start, and all of that is accepted. -/
theorem InSequence.settleTurns (h : m.InSequence (m.passArrivals reads)) (recv : Bool)
    (hsockets : (reads.map SocketRead.socket).Nodup) :
    Run.AlongRun settleTurn (fun s r => ∀ a ∈ s.1.arrivedIn r, a.clientId < kMaxNumClients)
        (m, recv) reads ∧
      (reads.foldl settleTurn (m, recv)).1.pendingSize =
        m.pendingSize + (m.passArrivals reads).length := by
  induction reads generalizing m recv with
  | nil => exact ⟨trivial, rfl⟩
  | cons r reads ih =>
    obtain ⟨hother, hnodup⟩ := List.nodup_cons.mp hsockets
    let m₁ := m.recvmsg r.socket ((m.recvSockets r.socket).readable r.available)
    have hstart : m₁.InSequence (m.passArrivals (r :: reads)) := h.congr rfl rfl
    rw [passArrivals, List.flatMap_cons] at hstart ⊢
    obtain ⟨hfirst, hrest⟩ := Run.alongRun_append.mp hstart
    have hsame : m.passArrivals reads = (m.settleRead r).passArrivals reads :=
      passArrivals_congr fun r' hr' =>
        (settleRead_other fun he => hother (he ▸ List.mem_map_of_mem hr')).symm
    have hseq : (m.settleRead r).InSequence ((m.settleRead r).passArrivals reads) := by
      rw [← hsame]
      exact InSequence.congr (m := (m.arrivedIn r).foldl settle m₁) hrest rfl rfl
    obtain ⟨hclients, hsize⟩ := ih hseq _ hnodup
    have hread : (m.settleRead r).pendingSize = m.pendingSize + (m.arrivedIn r).length :=
      InSequence.pendingSize hfirst
    refine ⟨⟨InSequence.clients hfirst, hclients⟩, ?_⟩
    rw [List.foldl_cons, settleTurn, hsize, hread, List.length_append, ← hsame, Nat.add_assoc]
    rfl

/-- Without a read there is no record. -/
theorem settleTurns_nothing : ∀ {reads : List SocketRead} {s : OrderManager × Bool},
    (reads.foldl settleTurn s).2 = false →
      s.2 = false ∧ (reads.foldl settleTurn s).1.pendingSize = s.1.pendingSize
  | [], _, h => ⟨h, rfl⟩
  | r :: reads, s, h => by
    have hrest : (reads.foldl settleTurn (settleTurn s r)).2 = false := h
    obtain ⟨hflag, hsize⟩ := settleTurns_nothing hrest
    obtain ⟨hflag, hdata⟩ := Bool.or_eq_false_iff.mp hflag
    have hnone : s.1.arrivedIn r = [] := if_pos (not_not.mp (of_decide_eq_false hdata))
    refine ⟨hflag, hsize.trans ?_⟩
    change ((s.1.arrivedIn r).foldl settle _).pendingSize = _
    rw [hnone]
    rfl

end Settle

/-! ## 5. A pass -/

section Pass

variable {m : OrderManager} {reads : List SocketRead}

/-- **A pass** over requests in sequence reaches its end or stops at the request that the sequencer
has no room for. -/
theorem pass_settle (ranges : ReceiveTimeSort) (hsockets : (reads.map SocketRead.socket).Nodup)
    (hroom : m.pendingSize ≤ kMaxPendingRequests) (hseq : m.InSequence (m.passArrivals reads)) :
    TCPServer.sendAndRecv m reads ranges =
      if m.pendingSize + (m.passArrivals reads).length ≤ kMaxPendingRequests then
        .ok (if (reads.foldl settleTurn (m, false)).2 then
            (reads.foldl settleTurn (m, false)).1.recvFinishedCallback ranges
          else (reads.foldl settleTurn (m, false)).1)
      else .error (.fatal "To many pending requests ") := by
  obtain ⟨hclients, hsize⟩ := hseq.settleTurns false hsockets
  have hturns : reads.foldlM TCPServer.turn (m, false) =
      if (reads.foldl settleTurn (m, false)).1.pendingSize ≤ kMaxPendingRequests then
        .ok (reads.foldl settleTurn (m, false))
      else .error (.fatal "To many pending requests ") := by
    refine Run.foldlM_eq_of_budget (fun s => s.1.pendingSize)
      (fun s r => (Nat.le_add_right _ _).trans_eq pendingSize_settleRead.symm)
      (fun s r hroom hclients => ?_) hroom hclients
    rw [TCPServer.turn, sendAndRecv_settle hroom hclients]
    change _ = if (s.1.settleRead r).pendingSize ≤ _ then _ else _
    split <;> rfl
  rw [TCPServer.sendAndRecv, hturns, hsize]
  split <;> rfl

/-- **The bursts that the exchange survives.**  A pass over requests in sequence ends, with nothing
left pending, if and only if the reads complete no more records than the sequencer holds.  A pass
publishes nothing before it has read all its sockets, so it is the sum over all of them that
counts; a record that is out of sequence would not count, and is excluded here. -/
theorem pass_ends_iff (ranges : ReceiveTimeSort) (hsockets : (reads.map SocketRead.socket).Nodup)
    (hstart : m.pendingSize = 0) (hseq : m.InSequence (m.passArrivals reads)) :
    (∃ m', TCPServer.sendAndRecv m reads ranges = .ok m' ∧ m'.pendingSize = 0) ↔
      (reads.map m.recordsCompleted).sum ≤ kMaxPendingRequests := by
  rw [pass_settle ranges hsockets (hstart.trans_le (Nat.zero_le _)) hseq, hstart, Nat.zero_add,
    length_passArrivals]
  constructor
  · rintro ⟨m', hpass, -⟩
    by_contra hover
    rw [if_neg hover] at hpass
    cases hpass
  · intro hfits
    rw [if_pos hfits]
    refine ⟨_, rfl, ?_⟩
    split
    · rfl
    · next hflag =>
      exact (settleTurns_nothing (Bool.eq_false_of_not_eq_true hflag)).2.trans hstart

/-- Two clients on their own sockets, with one cancel each. -/
def twoClients : List SocketRead :=
  [⟨3, orderManagerClientRequestCodec.encode ⟨1, ⟨.canceled, 1, 0, 7, .unset, 0, 0⟩⟩, 100⟩,
    ⟨4, orderManagerClientRequestCodec.encode ⟨1, ⟨.canceled, 2, 0, 7, .unset, 0, 0⟩⟩, 100⟩]

theorem pass_ends_iff_two_clients : (twoClients.map init.recordsCompleted).sum = 2 ∧
    ∃ m', TCPServer.sendAndRecv init twoClients (SortBy.reverseTies _) = .ok m' ∧
      m'.pendingSize = 0 :=
  ⟨by decide +kernel, (pass_ends_iff _ (by decide) rfl (by decide +kernel)).mpr (by decide +kernel)⟩

end Pass

/-! ## 6. A burst -/

section Burst

variable {m : OrderManager} {c : Nat}

/-- The next record of a client is accepted. -/
theorem accepts_next {a : Arrival} {n : Nat} (hsocket : a.socket = a.clientId)
    (hnumber : a.record.seqNum = n % kWord64)
    (hexpected : m.cidNextExpSeqNum a.clientId = n % kWord64)
    (hbound : (m.cidTcpSocketMap a.clientId).getD a.clientId = a.clientId) :
    m.accepts a = true := by
  refine decide_eq_true ⟨?_, hnumber.trans hexpected.symm⟩
  rw [bindSocket_map, Function.update_self, hsocket, hbound]

/-- And then the one after it is expected. -/
theorem acceptRecord_next {a : Arrival} {n : Nat} (hsocket : a.socket = a.clientId)
    (hexpected : m.cidNextExpSeqNum a.clientId = n % kWord64)
    (hbound : (m.cidTcpSocketMap a.clientId).getD a.clientId = a.clientId) :
    (m.acceptRecord a).cidNextExpSeqNum a.clientId = (n + 1) % kWord64 ∧
      ((m.acceptRecord a).cidTcpSocketMap a.clientId).getD a.clientId = a.clientId := by
  unfold acceptRecord
  dsimp only
  rw [bindSocket_map, Function.update_self, Function.update_self, hexpected, Option.getD_some,
    hsocket, hbound]
  exact ⟨add64_mod n 1, rfl⟩

/-- **Numbered records** on the socket of their client are in sequence. -/
theorem inSequence_stamped {rxTime : Int} {rs : List MatchingEngineClientRequest} {n : Nat}
    (hclient : c < kMaxNumClients) (hclients : ∀ r ∈ rs, r.clientId = c)
    (hexpected : m.cidNextExpSeqNum c = n % kWord64)
    (hbound : (m.cidTcpSocketMap c).getD c = c) :
    m.InSequence ((stamped requestRecord n rs).map fun r => ⟨c, rxTime, r⟩) := by
  induction rs generalizing n m with
  | nil => trivial
  | cons r rs ih =>
    obtain rfl : r.clientId = c := hclients r List.mem_cons_self
    let a : Arrival := ⟨r.clientId, rxTime, requestRecord n r⟩
    have haccepts : m.accepts a = true := accepts_next (a := a) rfl rfl hexpected hbound
    obtain ⟨hexpected', hbound'⟩ := acceptRecord_next (a := a) rfl hexpected hbound
    refine ⟨⟨hclient, haccepts⟩, ?_⟩
    rw [settle_accepted haccepts]
    exact ih (fun r' hr' => hclients r' (List.mem_cons_of_mem r hr')) hexpected' hbound'

/-- The first cancels of client 0. -/
def burst (k : Nat) : List OrderManagerClientRequest :=
  stamped requestRecord 1 (List.replicate k ⟨.canceled, 0, 0, 0, .unset, 0, 0⟩)

theorem length_burst (k : Nat) : (burst k).length = k := by
  rw [burst, length_stamped, List.length_replicate]

/-- One read brings the whole burst if the buffer has room for it. -/
theorem arrived_burst {k : Nat} (hempty : (m.recvSockets 0).inboundData = [])
    (hfit : k * orderManagerClientRequestCodec.size ≤ TCPBufferSize) :
    m.arrived 0 (orderManagerClientRequestCodec.encodeAll (burst k)) 0 =
      (burst k).map fun r => ⟨0, 0, r⟩ := by
  refine (arrived_encodeAll hempty (fun r hr => ?_) ?_ 0).1
  · obtain ⟨n, r', hr', rfl⟩ := mem_stamped hr
    rw [List.eq_of_mem_replicate hr']
    exact MatchingEngineClientRequest.InRange.representable (by decide) (Nat.mod_lt n (by decide))
  · rw [Codec.length_encodeAll, length_burst]
    exact hfit

/-- The first records of client 0 are in sequence. -/
theorem inSequence_burst (k : Nat) (hexpected : m.cidNextExpSeqNum 0 = 1)
    (hbound : (m.cidTcpSocketMap 0).getD 0 = 0) :
    m.InSequence ((burst k).map fun r => ⟨0, 0, r⟩) :=
  inSequence_stamped (by decide) (fun r hr => by rw [List.eq_of_mem_replicate hr])
    hexpected hbound

/-- **A read of one record too many stops the exchange.** -/
theorem not_pass_ends : ¬ ∀ (m : OrderManager) (reads : List SocketRead) (ranges : ReceiveTimeSort),
    (reads.map SocketRead.socket).Nodup → m.pendingSize = 0 → m.InSequence (m.passArrivals reads) →
      ∃ m', TCPServer.sendAndRecv m reads ranges = .ok m' ∧ m'.pendingSize = 0 := by
  intro hends
  let k := kMaxPendingRequests + 1
  let reads : List SocketRead := [⟨0, orderManagerClientRequestCodec.encodeAll (burst k), 0⟩]
  have harrived : init.passArrivals reads = (burst k).map fun r => ⟨0, 0, r⟩ :=
    (List.append_nil _).trans (arrived_burst rfl (by decide))
  have hseq : init.InSequence (init.passArrivals reads) := by
    rw [harrived]
    exact inSequence_burst k rfl rfl
  have hsockets : (reads.map SocketRead.socket).Nodup := List.nodup_singleton _
  obtain ⟨m', hpass, -⟩ := hends init reads (SortBy.reverseTies _) hsockets rfl hseq
  rw [pass_settle _ hsockets (Nat.zero_le _) hseq, harrived, List.length_map,
    length_burst, if_neg (by decide)] at hpass
  cases hpass

end Burst

end OrderManager

end YQuant
