/-
# Every response has a socket to go to

The exchange as a whole: the order server of `OrderManager.lean` and the two threads and queues of
`Backpressure.lean`.  The server thread reads its sockets, publishes the batch it has accepted,
drains the responses and starts again; the matcher takes requests and pushes responses, and the two
go on in any order.

A client is bound to a socket before its first request is accepted, and stays bound.  So is, from
then on, the client of everything that comes of the request: it waits in the sequencer, in the
queue, as an order in a book for as long as nobody takes it, and then as a response to itself or to
somebody else (`Routed`).  The assertion in front of a response cannot fail (`responses_routed`).

The assertion in front of a response is about the table of sockets, and it is the only thing that
could go wrong with a response on account of its client.  Responses are answers to requests or to
orders, both of which have come through the server; but an order may have rested for any time, and
the client that entered it may never send anything again.  So the invariant has the clients of all
resting orders, and what a step adds to the responses belongs to the client of the request or to
one of those (`Knows.process`).

A table entry is written once and never taken away, also when the client has nothing more to say.
-/
import YQuant.Matcher.KeyedOrders
import YQuant.OrderManager.Backpressure

namespace YQuant

/-! ## 1. The exchange -/

/-- The order server, with the two threads and the queues between them. -/
structure Exchange where
  server : OrderManager
  threads : ServerState

namespace Exchange

def init : Except Fault Exchange := do
  let engine ← MatchingEngine.init
  .ok ⟨.init, .init engine⟩

/-- The pending requests in the order in which they will be published. -/
def batch (s : Exchange) (ranges : ReceiveTimeSort) : List MatchingEngineClientRequest :=
  (ranges.sort s.server.fifoSequencer.pendingClientRequests).map TimestampedClientRequest.request

/-- What the server thread does with the response it takes, if it is about to take one. -/
def sendNext (s : Exchange) : Except Fault OrderManager :=
  match s.threads.manager, s.threads.responses with
  | .draining, r :: _ => s.server.sendResponse r
  | _, _ => .ok s.server

inductive Event where
  /-- The turn of a socket. -/
  | sendAndRecv (socket : Nat) (available : List UInt8) (rxTime : Int)
  /-- The end of a pass over the sockets. -/
  | recvFinished (ranges : ReceiveTimeSort)
  /-- The server thread publishes a request, takes a response, or is done with either. -/
  | manager
  | matcher

section Steps

variable (requestCapacity responseCapacity : Nat)

/-- One event.  A thread that has to wait, and one that is elsewhere, leaves everything as it is. -/
def step (s : Exchange) : Event → Except Fault Exchange
  | .sendAndRecv socket available rxTime =>
    if s.threads.manager = .reading then do
      let server ← s.server.sendAndRecv socket available rxTime
      .ok { s with server := server }
    else .ok s
  | .recvFinished ranges =>
    if s.threads.manager = .reading then
      .ok ⟨s.server.recvFinishedCallback ranges, s.threads.receive (s.batch ranges)⟩
    else .ok s
  | .manager =>
    match s.threads.managerStep requestCapacity with
    | none => .ok s
    | some threads => do
      let server ← s.sendNext
      .ok ⟨server, threads⟩
  | .matcher =>
    match s.threads.matcherStep responseCapacity with
    | none => .ok s
    | some threads => .ok { s with threads := threads }

end Steps

/-- What is published meets the preconditions of the matcher. -/
def Allowed (s : Exchange) : Event → Prop
  | .recvFinished ranges => ∀ r ∈ s.batch ranges, r.Documented
  | .sendAndRecv .. | .manager | .matcher => True

instance (s : Exchange) : (e : Event) → Decidable (s.Allowed e)
  | .recvFinished _ => List.decidableBAll ..
  | .sendAndRecv .. | .manager | .matcher => isTrue trivial

/-! ## 2. Bound clients -/

/-- The client has an entry in the tables, and a socket in it. -/
def Bound (m : OrderManager) (c : Nat) : Prop := c < kMaxNumClients ∧ m.cidTcpSocketMap c ≠ none

/-- Everything on its way through the threads belongs to a client of `P`. -/
structure Knows (P : Nat → Prop) (t : ServerState) : Prop where
  pending : ∀ r ∈ t.pending, P r.clientId ∧ r.Documented
  requests : ∀ r ∈ t.requests, P r.clientId ∧ r.Documented
  resting : ∃ xs, t.engine.Simulates xs ∧ ∀ b, ∀ o ∈ (xs b).book.resting, P o.clientId
  sending : ∀ rest, t.matcher = .sending rest → ∀ x ∈ rest, P x.clientId
  responses : ∀ x ∈ t.responses, P x.clientId

section Threads

variable {P P' : Nat → Prop} {t t' : ServerState} {requestCapacity responseCapacity : Nat}

theorem Knows.mono (h : Knows P t) (hP : ∀ c, P c → P' c) : Knows P' t := by
  obtain ⟨xs, hsim, hresting⟩ := h.resting
  exact ⟨fun r hr => ⟨hP _ (h.pending r hr).1, (h.pending r hr).2⟩,
    fun r hr => ⟨hP _ (h.requests r hr).1, (h.requests r hr).2⟩,
    ⟨xs, hsim, fun b o ho => hP _ (hresting b o ho)⟩,
    fun rest hrest x hx => hP _ (h.sending rest hrest x hx),
    fun x hx => hP _ (h.responses x hx)⟩

theorem Knows.init {engine : MatchingEngine} (hengine : MatchingEngine.init = .ok engine) :
    Knows P (.init engine) := by
  obtain ⟨engine', hinit, hsim, -⟩ := MatchingEngine.init_spec
  obtain rfl := Except.ok.inj (hengine.symm.trans hinit)
  refine ⟨?_, ?_, ⟨.empty, hsim, fun _ o ho => absurd ho List.not_mem_nil⟩, ?_, ?_⟩
  · exact fun r hr => absurd hr List.not_mem_nil
  · exact fun r hr => absurd hr List.not_mem_nil
  · intro rest hrest
    cases hrest
  · exact fun x hx => absurd hx List.not_mem_nil

theorem Knows.receive (h : Knows P t) {batch : List MatchingEngineClientRequest}
    (hbatch : ∀ r ∈ batch, P r.clientId ∧ r.Documented) : Knows P (t.receive batch) :=
  ⟨hbatch, h.requests, h.resting, h.sending, h.responses⟩

/-- **The server thread** moves a request of the batch to the queue, or takes a response. -/
theorem Knows.managerStep (h : Knows P t) (hstep : t.managerStep requestCapacity = some t') :
    Knows P t' := by
  unfold ServerState.managerStep at hstep
  split at hstep
  · cases hstep
  · split at hstep
    · cases hstep
      exact ⟨h.pending, h.requests, h.resting, h.sending, h.responses⟩
    · next r rest hpending =>
      split at hstep
      · cases hstep
        have hr := h.pending r (hpending ▸ List.mem_cons_self)
        refine ⟨fun r' hr' => h.pending r' (hpending ▸ List.mem_cons_of_mem r hr'), ?_, h.resting,
          h.sending, h.responses⟩
        intro r' hr'
        rcases List.mem_append.mp hr' with hr' | hr'
        · exact h.requests r' hr'
        · rw [List.mem_singleton.mp hr']
          exact hr
      · cases hstep
  · split at hstep
    · cases hstep
      exact ⟨h.pending, h.requests, h.resting, h.sending, h.responses⟩
    · next x rest hresponses =>
      cases hstep
      exact ⟨h.pending, h.requests, h.resting, h.sending,
        fun y hy => h.responses y (hresponses ▸ List.mem_cons_of_mem x hy)⟩

/-- **The matcher answers** the client of a request, and the clients of orders that rest. -/
theorem Knows.process (h : Knows P t) {r : MatchingEngineClientRequest} {engine : MatchingEngine}
    (hr : r ∈ t.requests) (hprocess : t.engine.processClientRequest r = .ok engine) :
    Knows P { t with engine := engine, matcher := .sending (engine.newResponses t.engine) } := by
  obtain ⟨xs, hsim, hresting⟩ := h.resting
  obtain ⟨hclient, hdoc⟩ := h.requests r hr
  obtain ⟨engine', hprocess', hsim', hemits⟩ :=
    MatchingEngine.process_sim hsim (hsim.admits hdoc hprocess)
  obtain rfl := Except.ok.inj (hprocess.symm.trans hprocess')
  refine ⟨h.pending, h.requests, ⟨xs.step r, hsim', fun b o ho => ?_⟩, fun rest hrest x hx => ?_,
    h.responses⟩
  · rcases IndexedBooks.mem_step ho with ⟨o', ho', heq⟩ | ⟨-, -, hkey, -⟩
    · rw [heq]
      exact hresting b o' ho'
    · rw [hkey.1]
      exact hclient
  · obtain rfl := MatcherAt.sending.inj hrest
    rw [hemits.newResponses] at hx
    rcases IndexedBooks.client_of_mem hx with ⟨o, ho, heq⟩ | heq
    · rw [heq]
      exact hresting _ o ho
    · rw [heq]
      exact hclient

/-- **The matcher** takes a request, pushes a response or releases a request. -/
theorem Knows.matcherStep (h : Knows P t) (hstep : t.matcherStep responseCapacity = some t') :
    Knows P t' := by
  unfold ServerState.matcherStep at hstep
  split at hstep
  · split at hstep
    · cases hstep
    · next r rs hrequests =>
      split at hstep
      · cases hstep
      · next engine hprocess =>
        cases hstep
        exact h.process (hrequests ▸ List.mem_cons_self) hprocess
  · cases hstep
    refine ⟨h.pending, fun r hr => h.requests r (List.mem_of_mem_tail hr), h.resting, ?_,
      h.responses⟩
    intro rest hrest
    cases hrest
  · next x rest hsending =>
    split at hstep
    · cases hstep
      refine ⟨h.pending, h.requests, h.resting, fun rest' hrest' y hy => ?_, fun y hy => ?_⟩
      · obtain rfl := MatcherAt.sending.inj hrest'
        exact h.sending _ hsending y (List.mem_cons_of_mem x hy)
      · rcases List.mem_append.mp hy with hy | hy
        · exact h.responses y hy
        · rw [List.mem_singleton.mp hy]
          exact h.sending _ hsending x List.mem_cons_self
    · cases hstep

end Threads

/-! ## 3. The server keeps its clients bound -/

section Server

variable {m m' : OrderManager} {a : Arrival}

/-- A record binds its client and unbinds nobody. -/
theorem bound_bindSocket (hclient : a.clientId < kMaxNumClients) {c : Nat} :
    Bound (m.bindSocket a) c ↔ Bound m c ∨ c = a.clientId := by
  unfold Bound
  rw [OrderManager.bindSocket_map]
  rcases eq_or_ne c a.clientId with rfl | hne
  · simp [hclient]
  · simp [hne]

/-- **What the server keeps** since it was `m`: whoever was bound is bound, and so is the client of
every pending request. -/
structure Serves (m m' : OrderManager) : Prop where
  bound : ∀ c, Bound m c → Bound m' c
  pending : ∀ p ∈ m'.fifoSequencer.pendingClientRequests, Bound m' p.request.clientId

theorem Serves.receiveRequest {m₀ : OrderManager} (h : Serves m₀ m)
    (hrequest : m.receiveRequest a = .ok m') : Serves m₀ m' := by
  obtain ⟨hclient, ⟨-, -, rfl⟩ | ⟨-, rfl⟩⟩ := OrderManager.receiveRequest_cases hrequest
  · have hbound : ∀ c, Bound (m.acceptRecord a) c ↔ Bound m c ∨ c = a.clientId := fun c =>
      bound_bindSocket hclient
    refine ⟨fun c hc => (hbound c).mpr (.inl (h.bound c hc)), fun p hp => (hbound _).mpr ?_⟩
    rcases List.mem_append.mp hp with hp | hp
    · exact .inl (h.pending p hp)
    · rw [List.mem_singleton.mp hp]
      exact .inr rfl
  · refine ⟨fun c hc => (bound_bindSocket hclient).mpr (.inl (h.bound c hc)), fun p hp => ?_⟩
    rw [OrderManager.bindSocket_fifo] at hp
    exact (bound_bindSocket hclient).mpr (.inl (h.pending p hp))

theorem Serves.setSocket {m₀ : OrderManager} (h : Serves m₀ m) (socket : Nat) (t : TCPSocket) :
    Serves m₀ (m.setSocket socket t) := ⟨h.bound, h.pending⟩

theorem Serves.sendAndRecv {m₀ : OrderManager} (h : Serves m₀ m) {socket : Nat}
    {available : List UInt8} {rxTime : Int}
    (hread : m.sendAndRecv socket available rxTime = .ok m') : Serves m₀ m' := by
  obtain ⟨m₁, hrequests, rfl⟩ := OrderManager.sendAndRecv_cases hread
  have h₁ : Serves m₀ m₁ := Run.foldlM_inv
    (fun m m' a h (_ : True) hrequest => Serves.receiveRequest h hrequest) (h.setSocket _ _)
    (fun _ _ => trivial) hrequests
  exact h₁.setSocket _ _

theorem Serves.sendResponse {m₀ : OrderManager} (h : Serves m₀ m)
    {r : MatchingEngineClientResponse} (hsend : m.sendResponse r = .ok m') : Serves m₀ m' := by
  obtain ⟨-, socket, -, rfl⟩ := OrderManager.sendResponse_cases hsend
  exact ⟨h.bound, h.pending⟩

/-- A response to a bound client meets no failing assertion. -/
theorem sendResponse_ne_assertion {r : MatchingEngineClientResponse} (hbound : Bound m r.clientId)
    (text : String) : m.sendResponse r ≠ .error (.assertion text) := by
  intro herror
  obtain ⟨hclient, hsocket⟩ := hbound
  obtain ⟨socket, hsocket⟩ := Option.ne_none_iff_exists'.mp hsocket
  rw [OrderManager.sendResponse, if_pos hclient, hsocket] at herror
  dsimp only at herror
  -- all that can go wrong then is that a buffer is full
  rcases bind_error herror with hnumber | ⟨t, -, herror⟩
  · cases TCPSocket.send_error hnumber
  · rcases bind_error herror with hbody | ⟨t', -, herror⟩
    · cases TCPSocket.send_error hbody
    · cases herror

end Server

/-! ## 4. Whole runs -/

/-- **Whatever is on its way belongs to a bound client.** -/
structure Routed (s : Exchange) : Prop where
  threads : Knows (Bound s.server) s.threads
  pending : ∀ p ∈ s.server.fifoSequencer.pendingClientRequests, Bound s.server p.request.clientId

section Runs

variable {s s' : Exchange} {requestCapacity responseCapacity : Nat}

theorem Routed.init (hinit : Exchange.init = .ok s) : Routed s := by
  obtain ⟨engine, hengine, hrest⟩ := bind_ok hinit
  cases hrest
  exact ⟨Knows.init hengine, fun p hp => absurd hp List.not_mem_nil⟩

theorem Routed.serves (h : Routed s) : Serves s.server s.server := ⟨fun _ hc => hc, h.pending⟩

/-- The server thread has done something that concerns no request and no response. -/
theorem Routed.setServer (h : Routed s) {server : OrderManager} (hserves : Serves s.server server) :
    Routed { s with server := server } := ⟨h.threads.mono hserves.bound, hserves.pending⟩

theorem Routed.sendNext (h : Routed s) {server : OrderManager} (hsend : s.sendNext = .ok server) :
    Serves s.server server := by
  unfold Exchange.sendNext at hsend
  split at hsend
  · exact h.serves.sendResponse hsend
  · cases hsend
    exact h.serves

/-- **One event.** -/
theorem Routed.step (h : Routed s) {e : Event} (hallowed : s.Allowed e)
    (hstep : s.step requestCapacity responseCapacity e = .ok s') : Routed s' := by
  cases e with
  | sendAndRecv socket available rxTime =>
    rw [Exchange.step] at hstep
    split at hstep
    · obtain ⟨server, hread, hrest⟩ := bind_ok hstep
      cases hrest
      exact h.setServer (h.serves.sendAndRecv hread)
    · cases hstep
      exact h
  | recvFinished ranges =>
    rw [Exchange.step] at hstep
    split at hstep
    · cases hstep
      refine ⟨h.threads.receive fun r hr => ⟨?_, hallowed r hr⟩,
        fun p hp => absurd hp List.not_mem_nil⟩
      obtain ⟨p, hp, rfl⟩ := List.mem_map.mp hr
      exact h.pending p ((ranges.sort_perm _).mem_iff.mp hp)
    · cases hstep
      exact h
  | manager =>
    rw [Exchange.step] at hstep
    split at hstep
    · cases hstep
      exact h
    · next threads hthreads =>
      obtain ⟨server, hsend, hrest⟩ := bind_ok hstep
      cases hrest
      have hnext := h.setServer (h.sendNext hsend)
      exact ⟨hnext.threads.managerStep hthreads, hnext.pending⟩
  | matcher =>
    rw [Exchange.step] at hstep
    split at hstep
    · cases hstep
      exact h
    · next threads hthreads =>
      cases hstep
      exact ⟨h.threads.matcherStep hthreads, h.pending⟩

/-- **Every response has a socket to go to**, in every state of every run: the table entry of its
client exists and is not empty, and taking the response does not end in an assertion.  A response
may be for a client that has not sent anything for a long time, the owner of an old order that is
filled now; so the invariant follows the orders in the books too (`Routed`).  Entries of the table
are never taken away. -/
theorem responses_routed {s₀ : Exchange} (hinit : init = .ok s₀) {events : List Event}
    (hallowed : Run.EachStep (step requestCapacity responseCapacity) Allowed s₀ events) :
    Run.Always (step requestCapacity responseCapacity) (fun s =>
      (∀ r ∈ s.threads.responses, r.clientId < kMaxNumClients ∧
        ∃ socket, s.server.cidTcpSocketMap r.clientId = some socket) ∧
      ∀ text, s.step requestCapacity responseCapacity .manager ≠ .error (.assertion text))
      s₀ events := by
  refine (hallowed.always (fun s e s' h he hstep => h.step he hstep) (Routed.init hinit)).mono ?_
  intro s h
  refine ⟨fun r hr => ?_, fun text herror => ?_⟩
  · obtain ⟨hclient, hsocket⟩ := h.threads.responses r hr
    exact ⟨hclient, Option.ne_none_iff_exists'.mp hsocket⟩
  · rw [Exchange.step] at herror
    split at herror
    · cases herror
    · unfold Exchange.sendNext at herror
      split at herror
      · next r rest hmanager hresponses =>
        have hbound := h.threads.responses r (hresponses ▸ List.mem_cons_self)
        rcases bind_error herror with hsend | ⟨server, -, herror⟩
        · exact sendResponse_ne_assertion hbound text hsend
        · cases herror
      · cases herror

/-- Client 1 offers on socket 3, and client 2 takes it on socket 4 in a later pass. -/
def makerFilled : List Event :=
  [.sendAndRecv 3 (orderManagerClientRequestCodec.encode ⟨1, ⟨.new, 1, 0, 7, .sell, 10, 5⟩⟩) 100,
    .recvFinished (SortBy.reverseTies _), .manager, .manager, .manager, .matcher, .matcher,
      .matcher,
    .sendAndRecv 4 (orderManagerClientRequestCodec.encode ⟨1, ⟨.new, 2, 0, 1, .buy, 10, 2⟩⟩) 200,
    .recvFinished (SortBy.reverseTies _), .manager, .manager, .manager, .matcher, .matcher,
      .matcher,
    .matcher]

theorem responses_routed_maker_filled : ∃ s₀ s, init = .ok s₀ ∧
    makerFilled.foldlM (step 16 16) s₀ = .ok s ∧
    s.threads.responses.map (fun r => (r.type, r.clientId)) =
      [(.accepted, 2), (.filled, 2), (.filled, 1)] ∧
    (∀ r ∈ s.threads.responses, r.clientId < kMaxNumClients ∧
      ∃ socket, s.server.cidTcpSocketMap r.clientId = some socket) ∧
    ∀ text, s.step 16 16 .manager ≠ .error (.assertion text) := by
  obtain ⟨s₀, hinit, hcheck⟩ : ∃ s₀, init = .ok s₀ ∧
      (decide (Run.EachStep (step 16 16) Allowed s₀ makerFilled) &&
        returns (fun s => decide (s.threads.responses.map (fun r => (r.type, r.clientId)) =
          [(.accepted, 2), (.filled, 2), (.filled, 1)])) (makerFilled.foldlM (step 16 16) s₀)) =
        true := exists_of_returns (by decide +kernel)
  rw [Bool.and_eq_true] at hcheck
  obtain ⟨s, hrun, hresponses⟩ := exists_of_returns hcheck.2
  have hall := responses_routed hinit (of_decide_eq_true hcheck.1)
  exact ⟨s₀, s, hinit, hrun, of_decide_eq_true hresponses, hall.of_foldlM hrun⟩

end Runs

end Exchange

end YQuant
