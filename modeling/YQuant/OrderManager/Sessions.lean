/-
# Client sessions

A client is bound to the socket that first delivered a record naming it, whether or not that record
is accepted, and its records are accepted in the order of their numbers.  Both hold for any
interleaving of reads on any number of sockets (`Sessions`), and since the index of a book only
returns orders of the client that asks, an order can only be cancelled through the socket through
which it was entered (`sessions_are_kept`).

The counter of expected numbers is a `size_t`: after `2 ^ 64` requests it starts again at zero
(`not_numbered_without_repeat`).

`firstSocket` reads the binding off the log: the first record that names a client binds it, also
when it comes with a wrong number, and also when somebody else has sent it.  From then on records
of that client on other sockets change nothing (`receiveRequest_rejected`).  So sessions are kept
in the sense that nobody can speak for a client that is bound; who is bound is decided by who comes
first.

The part about cancels is put together from three modules: the record was accepted on the client's
socket, the cancel names an order of that client in the index, and an order that rests was entered
by its owner (`Provenance.lean`).
-/
import YQuant.Matcher.Provenance
import YQuant.OrderManager.OrderManager

namespace YQuant

namespace OrderManager

/-! ## 1. The invariant -/

/-- The socket that first delivered a record naming the client. -/
def firstSocket (l : List Delivery) (c : Nat) : Option Nat :=
  ((arrivalsOf l).find? fun a => a.clientId = c).map Arrival.socket

/-- The accepted records of a client. -/
def acceptedFrom (l : List Delivery) (c : Nat) : List Arrival :=
  (acceptedOf l).filter fun a => a.clientId = c

/-- The first `n` numbers of a counter that starts at one. -/
def numbers (n : Nat) : List Nat := (List.range n).map fun k => (k + 1) % kWord64

/-- **The sessions of all clients**, as the server keeps them and as its log shows them. -/
structure Sessions (l : List Delivery) (m : OrderManager) : Prop where
  bound : ∀ c, m.cidTcpSocketMap c = firstSocket l c
  socket : ∀ a ∈ acceptedOf l, m.cidTcpSocketMap a.clientId = some a.socket
  expected : ∀ c, m.cidNextExpSeqNum c = ((acceptedFrom l c).length + 1) % kWord64
  numbered : ∀ c, (acceptedFrom l c).map (fun a => a.record.seqNum) =
    numbers (acceptedFrom l c).length
  handed : (m.fifoSequencer.incomingRequest ++
    m.fifoSequencer.pendingClientRequests.map TimestampedClientRequest.request).Perm
      ((acceptedOf l).map Arrival.request)

variable {l : List Delivery} {m m' : OrderManager} {a : Arrival}

theorem Sessions.init : Sessions [] OrderManager.init where
  bound _ := rfl
  socket _ ha := absurd ha List.not_mem_nil
  expected _ := rfl
  numbered _ := rfl
  handed := List.Perm.nil

theorem firstSocket_append (a : Arrival) (accepted : Bool) :
    firstSocket (l ++ [⟨a, accepted⟩]) = Function.update (firstSocket l) a.clientId
      (some ((firstSocket l a.clientId).getD a.socket)) := by
  funext c
  have hfind : firstSocket (l ++ [⟨a, accepted⟩]) c =
      (((arrivalsOf l).find? fun a => a.clientId = c).or
        ([a].find? fun a => a.clientId = c)).map Arrival.socket := by
    rw [firstSocket, arrivalsOf_append, List.find?_append]
    rfl
  rw [hfind]
  rcases eq_or_ne c a.clientId with rfl | hne
  · rw [Function.update_self, List.find?_cons_of_pos (by simp), firstSocket]
    cases (arrivalsOf l).find? fun b => b.clientId = a.clientId <;> rfl
  · rw [Function.update_of_ne hne, List.find?_cons_of_neg (by simpa using Ne.symm hne),
      List.find?_nil, Option.or_none]
    rfl

theorem acceptedFrom_append (l l' : List Delivery) (c : Nat) :
    acceptedFrom (l ++ l') c = acceptedFrom l c ++ acceptedFrom l' c := by
  rw [acceptedFrom, acceptedOf_append, List.filter_append]
  rfl

theorem acceptedFrom_accepted (c : Nat) :
    acceptedFrom [⟨a, true⟩] c = if a.clientId = c then [a] else [] := by
  rw [acceptedFrom, acceptedOf_accepted, List.filter_singleton]
  simp

@[simp] theorem acceptedFrom_rejected (c : Nat) : acceptedFrom [⟨a, false⟩] c = [] := rfl

theorem numbers_succ (n : Nat) : numbers (n + 1) = numbers n ++ [(n + 1) % kWord64] := by
  rw [numbers, List.range_succ, List.map_append]
  rfl

/-- The map of bound clients, whether the record is accepted or not. -/
theorem Sessions.bindSocket (h : Sessions l m) (accepted : Bool) (c : Nat) :
    (m.bindSocket a).cidTcpSocketMap c = firstSocket (l ++ [⟨a, accepted⟩]) c := by
  rw [bindSocket_map, firstSocket_append, h.bound]
  congr 1
  exact funext h.bound

/-- A binding stays. -/
theorem Sessions.bound_stays (h : Sessions l m) {b : Arrival} (hb : b ∈ acceptedOf l) :
    (m.bindSocket a).cidTcpSocketMap b.clientId = some b.socket := by
  have hsocket := h.socket b hb
  rw [bindSocket_map]
  rcases eq_or_ne b.clientId a.clientId with heq | hne
  · rw [heq] at hsocket
    rw [heq, Function.update_self, hsocket, Option.getD_some]
  · rw [Function.update_of_ne hne, hsocket]

/-- **A rejected record** changes no number and no pending request. -/
theorem receiveRequest_rejected (h : m.receiveRequest a = .ok m') (hrejects : m.accepts a = false) :
    m'.cidNextExpSeqNum = m.cidNextExpSeqNum ∧ m'.fifoSequencer = m.fifoSequencer := by
  obtain ⟨-, ⟨haccepts, -⟩ | ⟨-, rfl⟩⟩ := receiveRequest_cases h
  · rw [hrejects] at haccepts
    cases haccepts
  · exact ⟨bindSocket_expected, bindSocket_fifo⟩

/-- **One record.** -/
theorem Sessions.receiveRequest (h : Sessions l m) (hrequest : m.receiveRequest a = .ok m') :
    Sessions (l ++ [⟨a, m.accepts a⟩]) m' := by
  obtain ⟨-, ⟨haccepts, -, rfl⟩ | ⟨hrejects, rfl⟩⟩ := receiveRequest_cases hrequest
  · rw [haccepts]
    obtain ⟨hsocket, hseq⟩ := of_decide_eq_true haccepts
    refine ⟨h.bindSocket true, ?_, ?_, ?_, ?_⟩
    · intro b hb
      rw [acceptedOf_append, acceptedOf_accepted] at hb
      rcases List.mem_append.mp hb with hb | hb
      · exact h.bound_stays hb
      · rw [List.mem_singleton.mp hb]
        exact hsocket
    · intro c
      change Function.update m.cidNextExpSeqNum a.clientId _ c = _
      rw [acceptedFrom_append, acceptedFrom_accepted]
      rcases eq_or_ne c a.clientId with rfl | hne
      · rw [Function.update_self, if_pos rfl, List.length_append, h.expected, add64_mod]
        rfl
      · rw [Function.update_of_ne hne, if_neg (Ne.symm hne), List.append_nil]
        exact h.expected c
    · intro c
      rw [acceptedFrom_append, acceptedFrom_accepted]
      split
      · next heq =>
        rw [List.map_append, h.numbered, List.length_append, List.length_singleton, numbers_succ,
          ← h.expected, ← heq, ← hseq]
        rfl
      · rw [List.append_nil]
        exact h.numbered c
    · rw [acceptedOf_append, acceptedOf_accepted, List.map_append]
      change (m.fifoSequencer.incomingRequest ++
        (m.fifoSequencer.pendingClientRequests ++ [a.timestamped]).map _).Perm _
      rw [List.map_append, ← List.append_assoc]
      exact h.handed.append_right _
  · rw [hrejects]
    refine ⟨h.bindSocket false, ?_, ?_, ?_, ?_⟩
    · rw [acceptedOf_append, acceptedOf_rejected, List.append_nil]
      exact fun b hb => h.bound_stays hb
    · intro c
      rw [bindSocket_expected, acceptedFrom_append]
      simpa [acceptedFrom] using h.expected c
    · intro c
      rw [acceptedFrom_append]
      simpa [acceptedFrom] using h.numbered c
    · rw [bindSocket_fifo, acceptedOf_append, acceptedOf_rejected, List.append_nil]
      exact h.handed

/-- **Every run keeps the sessions.** -/
theorem Sessions.run {events : List OrderManagerEvent} (h : Sessions l m)
    (hrun : events.foldlM step m = .ok m') : Sessions (l ++ log m events) m' := by
  refine log_inv (fun l m socket t h => ⟨h.bound, h.socket, h.expected, h.numbered, h.handed⟩)
    (fun l m a m' h hrequest => h.receiveRequest hrequest) ?_ ?_ h (fun _ _ => trivial) hrun
  · intro l m ranges h (_ : True)
    refine ⟨h.bound, h.socket, h.expected, h.numbered, ?_⟩
    change ((m.fifoSequencer.incomingRequest ++ _) ++ []).Perm _
    rw [List.append_nil]
    exact (((ranges.sort_perm _).map _).append_left _).trans h.handed
  · intro l m r m' h hresponse
    obtain ⟨-, socket, -, rfl⟩ := sendResponse_cases hresponse
    exact ⟨h.bound, h.socket, h.expected, h.numbered, h.handed⟩

theorem Sessions.step {e : OrderManagerEvent} (h : Sessions l m) (hstep : m.step e = .ok m') :
    Sessions (l ++ m.deliveries e) m' := by
  have hone : [e].foldlM OrderManager.step m = .ok m' := Run.foldlM_cons_ok.mpr ⟨m', hstep, rfl⟩
  have hrun := h.run hone
  rwa [log, Run.emitted_cons hstep, Run.emitted, List.append_nil] at hrun

theorem run_sessions {events : List OrderManagerEvent} (hrun : run events = .ok m) :
    Sessions (log init events) m := Sessions.init.run hrun

/-! ## 2. Whole runs -/

/-- **Sessions are kept**, from the records that arrived to the orders that are cancelled. -/
structure KeepsSessions (l : List Delivery) (m : OrderManager) : Prop where
  /-- The sequencer was handed the accepted requests and nothing else. -/
  handed : (m.fifoSequencer.incomingRequest ++
    m.fifoSequencer.pendingClientRequests.map TimestampedClientRequest.request).Perm
      ((acceptedOf l).map Arrival.request)
  /-- They arrived on the socket that first delivered a record naming their client. -/
  socket : ∀ a ∈ acceptedOf l, firstSocket l a.clientId = some a.socket
  /-- Those of a client carry the numbers one, two, three and so on of a `size_t`. -/
  numbered : ∀ c, (acceptedFrom l c).map (fun a => a.record.seqNum) =
    numbers (acceptedFrom l c).length
  /-- A record that is not accepted changes no expected number and no pending request. -/
  rejected : ∀ (s s' : OrderManager) (a : Arrival), s.receiveRequest a = .ok s' →
    s.accepts a = false →
      s'.cidNextExpSeqNum = s.cidNextExpSeqNum ∧ s'.fifoSequencer = s.fifoSequencer
  /-- An order that leaves its book through a cancel was entered on the socket of that cancel. -/
  canceled : (∀ a ∈ acceptedOf l, a.request.Documented) → ∀ before r after engine engine',
    m.fifoSequencer.incomingRequest = before ++ r :: after →
    MatchingEngine.run before = .ok engine → engine.processClientRequest r = .ok engine' →
    ∀ x ∈ engine'.newResponses engine, x.type = .canceled →
      ∃ arrival e, EnteredBy before r.symbolId arrival e ∧ x.marketOrderId = arrival % kWord64 ∧
        (∃ a ∈ acceptedOf l, a.request = e) ∧ (∃ b ∈ acceptedOf l, b.request = r) ∧
        ∀ a ∈ acceptedOf l, ∀ b ∈ acceptedOf l, a.request = e → b.request = r →
          a.socket = b.socket

/-- **Every run keeps the sessions of its clients**, for any interleaving of reads on any sockets.
A record that is rejected still binds its client to the socket it came on, and then changes nothing
else (`receiveRequest_rejected`).  That a cancel only reaches orders entered on its own socket
takes the books as well: what a book cancels for a client, that client has entered
(`canceled_entered`). -/
theorem sessions_are_kept {events : List OrderManagerEvent} (hrun : run events = .ok m) :
    KeepsSessions (log init events) m := by
  have h := run_sessions hrun
  refine ⟨h.handed, fun a ha => (h.bound _).symm.trans (h.socket a ha), h.numbered,
    fun s s' a => receiveRequest_rejected, ?_⟩
  intro hdoc before r after engine engine' hincoming hengine hprocess x hx htype
  -- whatever was published was accepted
  have haccepted : ∀ r' ∈ before ++ r :: after,
      ∃ a ∈ acceptedOf (log init events), a.request = r' := fun r' hr' =>
    List.mem_map.mp (h.handed.mem_iff.mp (List.mem_append_left _ (hincoming ▸ hr')))
  have hdocumented : ∀ r' ∈ before ++ r :: after, r'.Documented := fun r' hr' => by
    obtain ⟨a, ha, rfl⟩ := haccepted r' hr'
    exact hdoc a ha
  obtain ⟨-, arrival, e, hentered, hid, hclient⟩ := MatchingEngine.canceled_entered
    (fun r' hr' => hdocumented r' (List.mem_append_left _ hr')) (hdocumented r (by simp)) hengine
    hprocess hx htype
  refine ⟨arrival, e, hentered, hid, haccepted e (List.mem_append_left _ hentered.mem),
    haccepted r (by simp), ?_⟩
  rintro a ha b hb rfl rfl
  have hsame : a.clientId = b.clientId := hclient
  have hsocket := h.socket a ha
  rw [hsame, h.socket b hb] at hsocket
  exact (Option.some.inj hsocket).symm

/-- Socket 3 enters an order and cancels it; socket 4 tries to cancel it in between. -/
def spoofedCancel : List OrderManagerEvent :=
  [.sendAndRecv 3 (orderManagerClientRequestCodec.encode ⟨1, ⟨.new, 1, 0, 7, .buy, 10, 5⟩⟩) 100,
    .sendAndRecv 4 (orderManagerClientRequestCodec.encode
      ⟨2, ⟨.canceled, 1, 0, 7, .unset, 0, 0⟩⟩) 200,
    .sendAndRecv 3 (orderManagerClientRequestCodec.encode
      ⟨2, ⟨.canceled, 1, 0, 7, .unset, 0, 0⟩⟩) 300,
    .recvFinished (SortBy.reverseTies _)]

theorem sessions_are_kept_spoofed : ∃ m, run spoofedCancel = .ok m ∧
    acceptedOf (log init spoofedCancel) =
      [⟨3, 100, ⟨1, ⟨.new, 1, 0, 7, .buy, 10, 5⟩⟩⟩,
        ⟨3, 300, ⟨2, ⟨.canceled, 1, 0, 7, .unset, 0, 0⟩⟩⟩] ∧
    KeepsSessions (log init spoofedCancel) m := by
  obtain ⟨m, hrun, -⟩ : ∃ m, run spoofedCancel = .ok m ∧ true = true :=
    exists_of_returns (by decide +kernel)
  exact ⟨m, hrun, by decide +kernel, sessions_are_kept hrun⟩

/-! ## 3. The counter starts again -/

/-- A cancel of client 0 on socket 0. -/
def nextCancel (n : Nat) : OrderManagerClientRequest := ⟨n, ⟨.canceled, 0, 0, 0, .unset, 0, 0⟩⟩

theorem nextCancel_representable (n : Nat) :
    orderManagerClientRequestCodec.Representable (nextCancel (n % kWord64)) :=
  MatchingEngineClientRequest.InRange.representable
    ⟨rfl, by decide, by decide, by decide, rfl, by decide, by decide⟩ (Nat.mod_lt n (by decide))

/-- A run that accepts any number of requests, one in each pass. -/
theorem exists_accepted (n : Nat) : ∃ events m, run events = .ok m ∧
    (acceptedFrom (log init events) 0).length = n ∧ m.fifoSequencer.pendingClientRequests = [] ∧
    (m.recvSockets 0).inboundData = [] ∧ (m.cidTcpSocketMap 0).getD 0 = 0 := by
  induction n with
  | zero => exact ⟨[], init, rfl, rfl, rfl, rfl, rfl⟩
  | succ n ih =>
    obtain ⟨events, m, hrun, hcount, hpending, hempty, hbound⟩ := ih
    let r := nextCancel ((n + 1) % kWord64)
    let a : Arrival := ⟨0, 0, r⟩
    obtain ⟨harrived, hremainder⟩ := arrived_encode hempty (nextCancel_representable (n + 1)) 0
    let read : OrderManagerEvent := .sendAndRecv 0 (orderManagerClientRequestCodec.encode r) 0
    let m₁ := m.recvmsg 0 ((m.recvSockets 0).readable (orderManagerClientRequestCodec.encode r))
    have hexpected : m₁.cidNextExpSeqNum 0 = (n + 1) % kWord64 := by
      rw [← hcount]
      exact (run_sessions hrun).expected 0
    have haccepts : m₁.accepts a = true := by
      refine decide_eq_true ⟨?_, hexpected.symm⟩
      rw [bindSocket_map]
      exact (Function.update_self ..).trans (congrArg some hbound)
    have haccepted : m₁.receiveRequest a = .ok (m₁.acceptRecord a) := by
      have hclient : a.clientId < kMaxNumClients := (by decide : 0 < kMaxNumClients)
      rw [receiveRequest_eq hclient, if_pos haccepts]
      exact if_neg (by rw [show m₁.fifoSequencer.pendingClientRequests = [] from hpending]; decide)
    have hread : m.step read = .ok ((m₁.acceptRecord a).setSocket 0 ⟨[], []⟩) := by
      change m.sendAndRecv _ _ _ = _
      rw [sendAndRecv_eq, harrived, hremainder]
      change (m₁.receiveRequest a >>= pure) >>= _ = _
      rw [haccepted]
      rfl
    have hlog : log init (events ++ [read, .recvFinished (SortBy.reverseTies _)]) =
        log init events ++ [⟨a, true⟩] := by
      rw [log, Run.emitted_append hrun, Run.emitted_cons hread]
      change log init events ++ (Run.emitted receiveRequest _ m₁ (m.arrived _ _ _) ++ []) = _
      rw [harrived, Run.emitted_cons haccepted, haccepts]
      rfl
    refine ⟨events ++ [read, .recvFinished (SortBy.reverseTies _)], _, Run.foldlM_append_ok.mpr
      ⟨m, hrun, Run.foldlM_cons_ok.mpr ⟨_, hread, rfl⟩⟩, ?_, rfl, ?_, ?_⟩
    · rw [hlog, acceptedFrom_append, acceptedFrom_accepted, List.length_append, hcount]
      rfl
    · change TCPSocket.inboundData (Function.update (m₁.acceptRecord a).recvSockets 0 ⟨[], []⟩ 0) =
        []
      rw [Function.update_self]
    · change (((m₁.bindSocket a).cidTcpSocketMap 0).getD 0) = 0
      rw [bindSocket_map]
      change (Function.update m.cidTcpSocketMap 0 (some ((m.cidTcpSocketMap 0).getD 0)) 0).getD 0 =
        0
      rw [Function.update_self, Option.getD_some, hbound]

/-- **Numbers repeat**: request number `2 ^ 64` carries the number zero. -/
theorem not_numbered_without_repeat : ¬ ∀ (events : List OrderManagerEvent) (m : OrderManager),
    run events = .ok m → ∀ c, (acceptedFrom (log init events) c).map (fun a => a.record.seqNum) =
      (List.range (acceptedFrom (log init events) c).length).map (· + 1) := by
  intro hall
  obtain ⟨events, m, hrun, hcount, -⟩ := exists_accepted kWord64
  have hnumbers := hall events m hrun 0
  rw [(run_sessions hrun).numbered, hcount] at hnumbers
  have hmem : 0 ∈ numbers kWord64 :=
    List.mem_map.mpr ⟨kWord64 - 1, List.mem_range.mpr (by decide), by decide⟩
  rw [hnumbers] at hmem
  obtain ⟨k, -, hk⟩ := List.mem_map.mp hmem
  exact Nat.succ_ne_zero k hk

end OrderManager

end YQuant
