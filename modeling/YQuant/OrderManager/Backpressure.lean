/-
# The order server and the matcher wait for each other

Two threads share two bounded queues.  `exchange::OrderManager` reads its sockets, publishes the
batch it has decoded and drains the responses, in this order and never two of them at once;
`MatchingEngine` takes a request, pushes its responses, and releases the request's slot last.  A
push waits while its queue is full (`GetNextToWriteTo`), and each thread is the only consumer of
the queue the other one pushes to.

So a batch that finds the request queue full is published at the pace of the matcher, and until then
nobody drains the responses.  The server has to wait for as many requests as do not fit at once; if
the responses to these find room, it cannot come to a standstill, and if they do not, it can
(`never_deadlocked_iff`).

A queue of capacity `C` holds `C - 1` elements (`BoundedFifo.lean`); the market updates are always
drained, so they are not part of the state.

The invariant is a comparison of two numbers (`Safe`): the responses that have to be sent before
the server can have published its batch, and the room for responses.  Every step moves both in a
way that keeps the comparison (`Safe.step`), and where it fails the schedule that leads to the
standstill is built: the server publishes whenever it can, the matcher works whenever it cannot
(`exists_deadlocked`).
-/
import Mathlib.Logic.Relation
import YQuant.Matcher.MatchingEngine
import YQuant.OrderManager.OrderManager

namespace YQuant

/-! ## 1. The two threads -/

inductive ManagerAt where
  /-- About to read the sockets. -/
  | reading
  /-- In `sequenceAndPublish`. -/
  | publishing
  /-- In the loop of `run` over the responses. -/
  | draining
deriving DecidableEq, Repr

inductive MatcherAt where
  /-- About to call `GetNextToRead`. -/
  | idle
  /-- In `ProcessClientRequest`, with these responses still to send. -/
  | sending (responses : List MatchingEngineClientResponse)
deriving DecidableEq, Repr

/-- The state of both threads and of the queues between them.  The request in process stays at the
head of `requests`; `engine` has already made the call whose responses are being sent. -/
structure ServerState where
  engine : MatchingEngine
  requests : List MatchingEngineClientRequest
  responses : List MatchingEngineClientResponse
  /-- What is left of the batch, in the order of publication. -/
  pending : List MatchingEngineClientRequest
  manager : ManagerAt
  matcher : MatcherAt

namespace ServerState

def init (engine : MatchingEngine) : ServerState := ⟨engine, [], [], [], .reading, .idle⟩

/-- A pass over the sockets has decoded and sequenced a batch. -/
def receive (s : ServerState) (batch : List MatchingEngineClientRequest) : ServerState :=
  { s with pending := batch, manager := .publishing }

section Steps

variable (requestCapacity responseCapacity : Nat)

/-- One step of the order server, if it can make one. -/
def managerStep (s : ServerState) : Option ServerState :=
  match s.manager with
  | .reading => none
  | .publishing =>
    match s.pending with
    | [] => some { s with manager := .draining }
    | r :: rest =>
      if s.requests.length + 1 < requestCapacity then
        some { s with requests := s.requests ++ [r], pending := rest }
      else none
  | .draining =>
    match s.responses with
    | [] => some { s with manager := .reading }
    | _ :: rest => some { s with responses := rest }

/-- One step of the matcher, if it can make one. -/
def matcherStep (s : ServerState) : Option ServerState :=
  match s.matcher with
  | .idle =>
    match s.requests with
    | [] => none
    | r :: _ =>
      match s.engine.processClientRequest r with
      | .error _ => none
      | .ok engine =>
        some { s with engine := engine, matcher := .sending (engine.newResponses s.engine) }
  | .sending [] => some { s with requests := s.requests.tail, matcher := .idle }
  | .sending (r :: rest) =>
    if s.responses.length + 1 < responseCapacity then
      some { s with responses := s.responses ++ [r], matcher := .sending rest }
    else none

/-- A step of either thread. -/
inductive Step (s s' : ServerState) : Prop
  | manager (hstep : s.managerStep requestCapacity = some s')
  | matcher (hstep : s.matcherStep responseCapacity = some s')

/-- Every state of a run in which each batch meets the condition `C` where it arrives. -/
inductive Reachable (C : ServerState → List MatchingEngineClientRequest → Prop) :
    ServerState → Prop
  | init {engine : MatchingEngine} (hinit : MatchingEngine.init = .ok engine) :
      Reachable C (init engine)
  | receive {s : ServerState} {batch : List MatchingEngineClientRequest} (hreach : Reachable C s)
      (hreading : s.manager = .reading) (hdoc : ∀ r ∈ batch, r.Documented)
      (hlen : batch.length ≤ kMaxPendingRequests) (hcond : C s batch) :
      Reachable C (s.receive batch)
  | step {s s' : ServerState} (hreach : Reachable C s)
      (hstep : Step requestCapacity responseCapacity s s') : Reachable C s'

/-- **The standstill**: the order server waits in `sequenceAndPublish` on a full request queue while
the matcher waits in `SendClientResponse` on a full response queue. -/
structure Deadlocked (s : ServerState) : Prop where
  publishing : s.manager = .publishing
  pending : s.pending ≠ []
  requestsFull : requestCapacity ≤ s.requests.length + 1
  sending : ∃ r rest, s.matcher = .sending (r :: rest)
  responsesFull : responseCapacity ≤ s.responses.length + 1

end Steps

/-! ## 2. The condition -/

/-- The number of responses to a sequence of requests; a request that stops the process has none. -/
def emitted (m : MatchingEngine) : List MatchingEngineClientRequest → Nat
  | [] => 0
  | r :: rs =>
    match m.processClientRequest r with
    | .error _ => 0
    | .ok m' => (m'.newResponses m).length + emitted m' rs

/-- The number of responses the matcher has to send until it has released the first `n` of the
requests `outstanding`; the first of them may be in process. -/
def workload (s : ServerState) : Nat → List MatchingEngineClientRequest → Nat
  | 0, _ => 0
  | n + 1, outstanding =>
    match s.matcher with
    | .idle => emitted s.engine (outstanding.take (n + 1))
    | .sending rest => rest.length + emitted s.engine (outstanding.tail.take n)

/-- **The responses to the requests the server has to wait for find room.**  The server waits for as
many releases as requests of the batch do not fit into the request queue. -/
def Fits (requestCapacity responseCapacity : Nat) (s : ServerState)
    (batch : List MatchingEngineClientRequest) : Prop :=
  s.workload (s.requests.length + batch.length - (requestCapacity - 1)) (s.requests ++ batch) ≤
    responseCapacity - 1 - s.responses.length

/-! ## 3. What one step does to the demand for room -/

section Demand

variable {requestCapacity responseCapacity : Nat} {s s' : ServerState}

/-- The number of releases that the order server still has to wait for. -/
def waits (requestCapacity : Nat) (s : ServerState) : Nat :=
  s.requests.length + s.pending.length - (requestCapacity - 1)

/-- The number of responses to be sent before the order server can have published its batch. -/
def demand (requestCapacity : Nat) (s : ServerState) : Nat :=
  s.workload (s.waits requestCapacity) (s.requests ++ s.pending)

/-- The room in the response queue. -/
def room (responseCapacity : Nat) (s : ServerState) : Nat :=
  responseCapacity - 1 - s.responses.length

theorem workload_zero (l : List MatchingEngineClientRequest) : s.workload 0 l = 0 := rfl

/-- A request moves from the batch to the queue. -/
theorem demand_publish {r : MatchingEngineClientRequest} {rest : List MatchingEngineClientRequest}
    (hpending : s.pending = r :: rest) :
    demand requestCapacity { s with requests := s.requests ++ [r], pending := rest } =
      demand requestCapacity s := by
  have hwaits : waits requestCapacity { s with requests := s.requests ++ [r], pending := rest } =
      s.waits requestCapacity := by
    unfold waits
    rw [hpending, List.length_append, List.length_singleton, List.length_cons]
    dsimp only
    omega
  unfold demand
  rw [hwaits, hpending]
  dsimp only
  rw [List.append_assoc, List.singleton_append]
  cases s.waits requestCapacity <;> rfl

/-- The matcher takes a request. -/
theorem demand_start {r : MatchingEngineClientRequest} {rs : List MatchingEngineClientRequest}
    {engine : MatchingEngine} (hidle : s.matcher = .idle) (hrequests : s.requests = r :: rs)
    (hprocess : s.engine.processClientRequest r = .ok engine) :
    demand requestCapacity
        { s with engine := engine, matcher := .sending (engine.newResponses s.engine) } =
      demand requestCapacity s := by
  unfold demand
  change workload _ (s.waits requestCapacity) _ = workload _ (s.waits requestCapacity) _
  cases s.waits requestCapacity with
  | zero => rfl
  | succ n => simp only [workload, hidle, hrequests, List.cons_append, List.tail_cons,
      List.take_succ_cons, emitted, hprocess]

/-- The matcher sends a response. -/
theorem demand_send {r : MatchingEngineClientResponse} {rest : List MatchingEngineClientResponse}
    (hsending : s.matcher = .sending (r :: rest)) :
    demand requestCapacity { s with responses := s.responses ++ [r], matcher := .sending rest } =
      demand requestCapacity s - 1 ∧
    (0 < s.waits requestCapacity → 0 < demand requestCapacity s) := by
  unfold demand
  change workload _ (s.waits requestCapacity) _ = _ ∧ _
  cases s.waits requestCapacity with
  | zero => exact ⟨rfl, fun h => absurd h (Nat.lt_irrefl 0)⟩
  | succ n =>
    simp only [workload, hsending, List.length_cons]
    exact ⟨by omega, fun _ => by omega⟩

/-- The matcher releases a request. -/
theorem demand_release {r : MatchingEngineClientRequest} {rs : List MatchingEngineClientRequest}
    (hsending : s.matcher = .sending []) (hrequests : s.requests = r :: rs) :
    demand requestCapacity { s with requests := rs, matcher := .idle } =
      demand requestCapacity s := by
  have hwaits : waits requestCapacity { s with requests := rs, matcher := .idle } =
      s.waits requestCapacity - 1 := by
    unfold waits
    rw [hrequests, List.length_cons]
    dsimp only
    omega
  unfold demand
  rw [hwaits]
  cases s.waits requestCapacity with
  | zero => rfl
  | succ n =>
    simp only [workload, hsending, hrequests, List.cons_append, List.tail_cons, List.length_nil,
      Nat.zero_add, Nat.add_sub_cancel]
    cases n with
    | zero => rfl
    | succ n => rfl

/-! ## 4. Batches that fit -/

/-- While the server publishes, the responses it depends on find room. -/
def Safe (requestCapacity responseCapacity : Nat) (s : ServerState) : Prop :=
  s.manager = .publishing → demand requestCapacity s ≤ room responseCapacity s

/-- A safe state is no standstill. -/
theorem Safe.not_deadlocked (h : Safe requestCapacity responseCapacity s) :
    ¬ Deadlocked requestCapacity responseCapacity s := by
  intro hd
  obtain ⟨r, rest, hsending⟩ := hd.sending
  have hwaits : 0 < s.waits requestCapacity := by
    have hpending := List.length_pos_iff.mpr hd.pending
    have hfull := hd.requestsFull
    unfold waits
    omega
  have hpos : 0 < demand requestCapacity s := (demand_send hsending).2 hwaits
  have hroom := h hd.publishing
  have hfull := hd.responsesFull
  unfold room at hroom
  omega

/-- A request in process is at the head of the queue, which holds `C - 1` requests at most. -/
structure WellFormed (requestCapacity : Nat) (s : ServerState) : Prop where
  busy : ∀ rest, s.matcher = .sending rest → s.requests ≠ []
  bounded : s.requests.length ≤ requestCapacity - 1

theorem WellFormed.step (hw : WellFormed requestCapacity s)
    (hstep : Step requestCapacity responseCapacity s s') : WellFormed requestCapacity s' := by
  rcases hstep with hstep | hstep
  · unfold managerStep at hstep
    split at hstep
    · cases hstep
    · split at hstep
      · cases hstep; exact ⟨hw.busy, hw.bounded⟩
      · split at hstep
        · next hlt =>
          cases hstep
          refine ⟨fun rest _ => by simp, ?_⟩
          change (s.requests ++ [_]).length ≤ _
          rw [List.length_append, List.length_singleton]
          omega
        · cases hstep
    · split at hstep <;> cases hstep <;> exact ⟨hw.busy, hw.bounded⟩
  · unfold matcherStep at hstep
    split at hstep
    · split at hstep
      · cases hstep
      · next r rs hrequests =>
        split at hstep
        · cases hstep
        · cases hstep
          exact ⟨fun rest _ => by simp [hrequests], hw.bounded⟩
    · cases hstep
      refine ⟨fun rest hrest => by simp at hrest, ?_⟩
      change s.requests.tail.length ≤ _
      rw [List.length_tail]
      exact (Nat.sub_le _ _).trans hw.bounded
    · next r rest hsending =>
      split at hstep
      · cases hstep
        exact ⟨fun rest' _ => hw.busy _ hsending, hw.bounded⟩
      · cases hstep

/-- **A step keeps a safe state safe.** -/
theorem Safe.step (hw : WellFormed requestCapacity s)
    (h : Safe requestCapacity responseCapacity s)
    (hstep : Step requestCapacity responseCapacity s s') :
    Safe requestCapacity responseCapacity s' := by
  rcases hstep with hstep | hstep
  · unfold managerStep at hstep
    split at hstep
    · cases hstep
    · next hpublishing =>
      split at hstep
      · cases hstep; exact fun hp => by cases hp
      · next r rest hpending =>
        split at hstep
        · cases hstep
          intro _
          rw [demand_publish hpending]
          exact h hpublishing
        · cases hstep
    · next hdraining =>
      split at hstep
      · cases hstep; exact fun hp => by cases hp
      · cases hstep; exact fun hp => by rw [hdraining] at hp; cases hp
  · unfold matcherStep at hstep
    split at hstep
    · next hidle =>
      split at hstep
      · cases hstep
      · next r rs hrequests =>
        split at hstep
        · cases hstep
        · next engine hprocess =>
          cases hstep
          intro hp
          rw [demand_start hidle hrequests hprocess]
          exact h hp
    · next hsending =>
      cases hstep
      obtain ⟨r, rs, hrequests⟩ := List.exists_cons_of_ne_nil (hw.busy _ hsending)
      rw [hrequests, List.tail_cons]
      intro hp
      rw [demand_release hsending hrequests]
      exact h hp
    · next r rest hsending =>
      split at hstep
      · cases hstep
        intro hp
        rw [(demand_send hsending).1]
        have hroom := h hp
        unfold room at hroom ⊢
        rw [List.length_append, List.length_singleton]
        omega
      · cases hstep

/-! ## 5. Batches that do not fit -/

theorem waits_pos (h : 0 < demand requestCapacity s) : 0 < s.waits requestCapacity := by
  refine Nat.pos_of_ne_zero fun hzero => ?_
  rw [demand, hzero, workload_zero] at h
  exact Nat.lt_irrefl 0 h

/-- A request that has to be answered first is processed. -/
theorem process_of_demand {r : MatchingEngineClientRequest}
    {rs : List MatchingEngineClientRequest} (hidle : s.matcher = .idle)
    (hrequests : s.requests = r :: rs) (hdemand : 0 < demand requestCapacity s) :
    ∃ engine, s.engine.processClientRequest r = .ok engine := by
  cases hprocess : s.engine.processClientRequest r with
  | ok engine => exact ⟨engine, rfl⟩
  | error e =>
    unfold demand at hdemand
    cases hwaits : s.waits requestCapacity with
    | zero => rw [hwaits, workload_zero] at hdemand; exact absurd hdemand (Nat.lt_irrefl 0)
    | succ n =>
      simp only [hwaits, workload, hidle, hrequests, List.cons_append, List.take_succ_cons, emitted,
        hprocess] at hdemand
      exact absurd hdemand (Nat.lt_irrefl 0)

/-- **A demand that exceeds the room leads to a standstill**: the server publishes whenever it can,
and the matcher works whenever it cannot. -/
theorem exists_deadlocked (hcapacity : 2 ≤ requestCapacity) (s : ServerState)
    (hw : WellFormed requestCapacity s) (hp : s.manager = .publishing)
    (hlt : room responseCapacity s < demand requestCapacity s) :
    ∃ s', Relation.ReflTransGen (Step requestCapacity responseCapacity) s s' ∧
      Deadlocked requestCapacity responseCapacity s' := by
  have hdemand : 0 < demand requestCapacity s := Nat.zero_lt_of_lt hlt
  have hwaits := waits_pos hdemand
  by_cases hfull : s.requests.length + 1 < requestCapacity
  · have hpending : s.pending ≠ [] := by
      rintro hnil
      rw [waits, hnil, List.length_nil] at hwaits
      omega
    obtain ⟨r, rest, hpending⟩ := List.exists_cons_of_ne_nil hpending
    have hstep : Step requestCapacity responseCapacity s
        { s with requests := s.requests ++ [r], pending := rest } :=
      .manager (by simp only [managerStep, hp, hpending, if_pos hfull])
    obtain ⟨s', hrun, hdead⟩ := exists_deadlocked hcapacity
      { s with requests := s.requests ++ [r], pending := rest } (hw.step hstep) hp
      (by rw [demand_publish hpending]; exact hlt)
    exact ⟨s', hrun.head hstep, hdead⟩
  · cases hm : s.matcher with
    | idle =>
      have hrequests : s.requests ≠ [] := by
        rintro hnil
        rw [hnil, List.length_nil] at hfull
        omega
      obtain ⟨r, rs, hrequests⟩ := List.exists_cons_of_ne_nil hrequests
      obtain ⟨engine, hprocess⟩ := process_of_demand hm hrequests hdemand
      have hstep : Step requestCapacity responseCapacity s
          { s with engine := engine, matcher := .sending (engine.newResponses s.engine) } :=
        .matcher (by simp only [matcherStep, hm, hrequests, hprocess])
      obtain ⟨s', hrun, hdead⟩ := exists_deadlocked hcapacity
        { s with engine := engine, matcher := .sending (engine.newResponses s.engine) }
        (hw.step hstep) hp (by rw [demand_start hm hrequests hprocess]; exact hlt)
      exact ⟨s', hrun.head hstep, hdead⟩
    | sending responses =>
      cases responses with
      | nil =>
        obtain ⟨r, rs, hrequests⟩ := List.exists_cons_of_ne_nil (hw.busy _ hm)
        have hstep : Step requestCapacity responseCapacity s
            { s with requests := rs, matcher := .idle } :=
          .matcher (by simp only [matcherStep, hm, hrequests, List.tail_cons])
        obtain ⟨s', hrun, hdead⟩ := exists_deadlocked hcapacity
          { s with requests := rs, matcher := .idle } (hw.step hstep) hp
          (by rw [demand_release hm hrequests]; exact hlt)
        exact ⟨s', hrun.head hstep, hdead⟩
      | cons r rest =>
        by_cases hroom : s.responses.length + 1 < responseCapacity
        · have hstep : Step requestCapacity responseCapacity s
              { s with responses := s.responses ++ [r], matcher := .sending rest } :=
            .matcher (by simp only [matcherStep, hm, if_pos hroom])
          obtain ⟨s', hrun, hdead⟩ := exists_deadlocked hcapacity
            { s with responses := s.responses ++ [r], matcher := .sending rest } (hw.step hstep) hp
            (by
              rw [(demand_send hm).1]
              unfold room at hlt ⊢
              rw [List.length_append, List.length_singleton]
              omega)
          exact ⟨s', hrun.head hstep, hdead⟩
        · refine ⟨s, .refl, hp, ?_, Nat.not_lt.mp hfull, ⟨r, rest, hm⟩, Nat.not_lt.mp hroom⟩
          rintro hnil
          rw [waits, hnil, List.length_nil] at hwaits
          have := hw.bounded
          omega
termination_by (s.requests.length + s.pending.length,
  (match s.matcher with | .idle => 1 | .sending _ => 0),
  (match s.matcher with | .idle => 0 | .sending rest => rest.length), s.pending.length)
decreasing_by
  · simp only [hpending, List.length_append, List.length_cons, List.length_nil, Prod.lex_def,
      true_and]
    omega
  · simp only [hm, Prod.lex_def, true_and]
    omega
  · simp only [hrequests, List.length_cons, Prod.lex_def]
    omega
  · simp only [hm, List.length_cons, Prod.lex_def, true_and]
    omega

end Demand

/-! ## 6. Whole runs -/

section Runs

variable {requestCapacity responseCapacity : Nat} {s : ServerState}
  {C : ServerState → List MatchingEngineClientRequest → Prop}

theorem Reachable.wellFormed (h : Reachable requestCapacity responseCapacity C s) :
    WellFormed requestCapacity s := by
  induction h with
  | init _ => exact ⟨fun rest hrest => (by cases hrest), Nat.zero_le _⟩
  | receive _ _ _ _ _ ih => exact ⟨ih.busy, ih.bounded⟩
  | step _ hstep ih => exact ih.step hstep

/-- The condition is that the batch is safe where it arrives. -/
theorem receive_safe_iff (batch : List MatchingEngineClientRequest) :
    Safe requestCapacity responseCapacity (s.receive batch) ↔
      Fits requestCapacity responseCapacity s batch := by
  have hworkload : ∀ n l, (s.receive batch).workload n l = s.workload n l := fun n l => by
    cases n <;> rfl
  unfold Safe Fits demand
  rw [hworkload]
  exact ⟨fun h => h rfl, fun h _ => h⟩

theorem Reachable.safe
    (h : Reachable requestCapacity responseCapacity (Fits requestCapacity responseCapacity) s) :
    Safe requestCapacity responseCapacity s := by
  induction h with
  | init _ => exact fun hp => by cases hp
  | receive _ _ _ _ hfits _ => exact (receive_safe_iff _).mpr hfits
  | step hreach hstep ih => exact ih.step hreach.wellFormed hstep

theorem reachable_of_steps {s' : ServerState} (h : Reachable requestCapacity responseCapacity C s)
    (hsteps : Relation.ReflTransGen (Step requestCapacity responseCapacity) s s') :
    Reachable requestCapacity responseCapacity C s' := by
  induction hsteps with
  | refl => exact h
  | tail _ hstep ih => exact ih.step hstep

/-- **Batches whose responses find room never lead to a standstill, and a batch whose responses do
not can lead to one from wherever it arrives.**  The server drains no responses while it publishes,
so until the batch is in the queue the matcher has to find room for the responses to the requests
it takes meanwhile; `Fits` counts these in the state in which the batch arrives.  A queue of one
slot holds no element at all, which is why the capacity is two at least. -/
theorem never_deadlocked_iff (hcapacity : 2 ≤ requestCapacity) :
    (∀ s, Reachable requestCapacity responseCapacity (Fits requestCapacity responseCapacity) s →
      ¬ Deadlocked requestCapacity responseCapacity s) ∧
    ∀ s batch, Reachable requestCapacity responseCapacity (fun _ _ => True) s →
      s.manager = .reading →
      ((¬ ∃ s', Relation.ReflTransGen (Step requestCapacity responseCapacity)
          (s.receive batch) s' ∧ Deadlocked requestCapacity responseCapacity s') ↔
        Fits requestCapacity responseCapacity s batch) := by
  refine ⟨fun s hreach => hreach.safe.not_deadlocked, fun s batch hreach _ => ⟨?_, ?_⟩⟩
  · intro hnone
    by_contra hfits
    have hunsafe := mt (receive_safe_iff batch).mp hfits
    have hlt : room responseCapacity (s.receive batch) < demand requestCapacity (s.receive batch) :=
      Nat.lt_of_not_le fun hle => hunsafe fun _ => hle
    exact hnone (exists_deadlocked hcapacity (s.receive batch)
      ⟨hreach.wellFormed.busy, hreach.wellFormed.bounded⟩ rfl hlt)
  · rintro hfits ⟨s', hsteps, hdead⟩
    have hinv : WellFormed requestCapacity s' ∧ Safe requestCapacity responseCapacity s' := by
      clear hdead
      induction hsteps with
      | refl => exact ⟨⟨hreach.wellFormed.busy, hreach.wellFormed.bounded⟩,
          (receive_safe_iff batch).mpr hfits⟩
      | tail _ hstep ih => exact ⟨ih.1.step hstep, ih.2.step ih.1 hstep⟩
    exact hinv.2.not_deadlocked hdead

/-! ## 7. A batch that fits, and one that does not -/

theorem emitted_cons {m : MatchingEngine} {xs : IndexedBooks} {r : MatchingEngineClientRequest}
    (h : m.Simulates xs) (hadmits : xs.Admits r) :
    ∃ m' : MatchingEngine, m'.Simulates (xs.step r) ∧
      ∀ rs, emitted m (r :: rs) = (xs.responses r).length + emitted m' rs := by
  obtain ⟨m', hprocess, hsim, hemits⟩ := m.process_sim h hadmits
  refine ⟨m', hsim, fun rs => ?_⟩
  simp only [emitted, hprocess, hemits.newResponses]

/-- Three buy orders that rest. -/
def threeBids : List MatchingEngineClientRequest :=
  [⟨.new, 1, 0, 1, .buy, 10, 1⟩, ⟨.new, 1, 0, 2, .buy, 10, 1⟩, ⟨.new, 1, 0, 3, .buy, 10, 1⟩]

/-- The responses to the first two of them. -/
theorem emitted_threeBids {engine : MatchingEngine} (h : engine.Simulates .empty) :
    emitted engine (threeBids.take 1) = 1 ∧ emitted engine (threeBids.take 2) = 2 := by
  obtain ⟨m₁, h₁, hfirst⟩ := emitted_cons (r := ⟨.new, 1, 0, 1, .buy, 10, 1⟩) h
    ⟨by decide, _, rfl, by decide, by decide⟩
  obtain ⟨m₂, -, hsecond⟩ := emitted_cons (r := ⟨.new, 1, 0, 2, .buy, 10, 1⟩) h₁
    ⟨by decide, _, rfl, by decide, by decide⟩
  refine ⟨hfirst [], ?_⟩
  rw [threeBids, List.take_succ_cons, hfirst, List.take_succ_cons, hsecond]
  rfl

/-- Queues of one element: of two orders, one waits for the release of the other. -/
theorem never_deadlocked_two_bids :
    ∃ engine, MatchingEngine.init = .ok engine ∧
      Reachable 2 2 (Fits 2 2) ((init engine).receive (threeBids.take 2)) ∧
      ∀ s', Relation.ReflTransGen (Step 2 2) ((init engine).receive (threeBids.take 2)) s' →
        ¬ Deadlocked 2 2 s' := by
  obtain ⟨engine, hinit, hsim, -⟩ := MatchingEngine.init_spec
  have hfits : Fits 2 2 (init engine) (threeBids.take 2) := by
    change emitted engine (threeBids.take 1) ≤ 1
    rw [(emitted_threeBids hsim).1]
  have hreach : Reachable 2 2 (Fits 2 2) ((init engine).receive (threeBids.take 2)) :=
    .receive (.init hinit) rfl (by decide) (by decide) hfits
  exact ⟨engine, hinit, hreach, fun s' hsteps =>
    (never_deadlocked_iff (by decide)).1 s' (reachable_of_steps hreach hsteps)⟩

/-- **The standstill is reachable** with the smallest queues and three orders. -/
theorem not_never_deadlocked :
    ¬ ∀ k j, 1 ≤ k → 1 ≤ j → ∀ s, Reachable (2 ^ k) (2 ^ j) (fun _ _ => True) s →
      ¬ Deadlocked (2 ^ k) (2 ^ j) s := by
  intro hnever
  obtain ⟨engine, hinit, hsim, -⟩ := MatchingEngine.init_spec
  have hreach : Reachable 2 2 (fun _ _ => True) ((init engine).receive threeBids) :=
    .receive (.init hinit) rfl (by decide) (by decide) trivial
  have hdemand : demand 2 ((init engine).receive threeBids) = 2 :=
    (emitted_threeBids hsim).2
  obtain ⟨s', hsteps, hdead⟩ :
      ∃ s', Relation.ReflTransGen (Step 2 2) ((init engine).receive threeBids) s' ∧
        Deadlocked 2 2 s' :=
    exists_deadlocked (le_refl 2) _ hreach.wellFormed rfl (by rw [hdemand]; exact Nat.lt_add_one 1)
  exact hnever 1 1 (le_refl 1) (le_refl 1) s' (reachable_of_steps hreach hsteps) hdead

end Runs

end ServerState

end YQuant
