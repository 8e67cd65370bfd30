/-
# The matching engine

`exchange/matcher/matching_engine.cc`: one order book for each symbol, all on the default price
band and all writing to the same two output queues.  A request is handed to the book of its
symbol; the symbol id indexes the table of books without a check.

The queues belong to the engine here: a book gets them for a call and gives them back
(`withQueues`).

A run of documented requests is a run of the indexed books of all symbols (`process_sim`).

Between two requests a book has empty queues and the engine holds all messages, so that the order
of messages across symbols is the one in which the requests were processed.  What a book represents
does not depend on its queues (`withQueues_simulates`); therefore what is known of a single book is
known of the one that a request is handed to, and all others stand still.

A request that is not documented is not excluded by the code.  An unknown symbol reads past the
table of books, an unknown type ends the process; both are in the model.  Documented requests fail
only when the pool of a book is used up (`Simulates.foldlM_or_full`).
-/
import YQuant.Matcher.Refinement

namespace YQuant

/-! ## 1. The engine -/

structure MatchingEngine where
  symbolOrderBook : Nat → Option BookCore
  outgoingClientResponses : List MatchingEngineClientResponse
  outgoingMarketUpdates : List MatchingEngineMarketUpdate

def clientRequestTypeToString : ClientRequestType → String
  | .invaild => "INVAILD"
  | .new => "NEW"
  | .canceled => "CANCELED"
  | .other _ => "UNKNOWN"

/-- A book with the output queues of the engine. -/
def BookCore.withQueues (b : BookCore) (responses : List MatchingEngineClientResponse)
    (updates : List MatchingEngineMarketUpdate) : BookCore :=
  { b with outgoingClientResponses := responses, outgoingMarketUpdates := updates }

namespace MatchingEngine

/-- The constructor, for one symbol. -/
def createBook (m : MatchingEngine) (i : Nat) : Except Fault MatchingEngine := do
  let b ← BookCore.init i kDefaultPriceBand
  .ok { m with symbolOrderBook := Function.update m.symbolOrderBook i (some b) }

/-- The constructor. -/
def init : Except Fault MatchingEngine :=
  (List.range kMaxSymbols).foldlM createBook ⟨fun _ => none, [], []⟩

/-- `symbol_order_book[symbolId]`. -/
def orderBook (m : MatchingEngine) (symbolId : Nat) : Except Fault BookCore :=
  if symbolId < kMaxSymbols then
    match m.symbolOrderBook symbolId with
    | none => .error .nullPointer
    | some b => .ok b
  else .error .outOfBounds

/-- A call on the book of a symbol. -/
def callBook (m : MatchingEngine) (symbolId : Nat) (b : BookCore) (call : BookCall) :
    Except Fault MatchingEngine := do
  let b ← (b.withQueues m.outgoingClientResponses m.outgoingMarketUpdates).apply call
  .ok ⟨Function.update m.symbolOrderBook symbolId (some b), b.outgoingClientResponses,
    b.outgoingMarketUpdates⟩

/-- `ProcessClientRequest`. -/
def processClientRequest (m : MatchingEngine) (r : MatchingEngineClientRequest) :
    Except Fault MatchingEngine := do
  let b ← m.orderBook r.symbolId
  match r.type with
  | .new => m.callBook r.symbolId b (.add r.clientId r.orderId r.side r.price r.quantity)
  | .canceled => m.callBook r.symbolId b (.cancel r.clientId r.orderId)
  | .invaild | .other _ =>
    .error (.fatal ("收到无效的客户端请求类型：" ++ clientRequestTypeToString r.type))

/-- The responses that the engine has emitted since it was `before`. -/
def newResponses (m before : MatchingEngine) : List MatchingEngineClientResponse :=
  m.outgoingClientResponses.drop before.outgoingClientResponses.length

/-- The requests of the incoming queue, one after the other. -/
def run (requests : List MatchingEngineClientRequest) : Except Fault MatchingEngine := do
  let m ← init
  requests.foldlM processClientRequest m

end MatchingEngine

/-! ## 2. The indexed books of all symbols -/

/-- The call a request makes, if its type is known. -/
def MatchingEngineClientRequest.call? (r : MatchingEngineClientRequest) : Option BookCall :=
  match r.type with
  | .new => some (.add r.clientId r.orderId r.side r.price r.quantity)
  | .canceled => some (.cancel r.clientId r.orderId)
  | .invaild | .other _ => none

/-- **What the engine and its books ask of a request**: a known symbol and type, and the documented
preconditions of the call. -/
def MatchingEngineClientRequest.Documented (r : MatchingEngineClientRequest) : Prop :=
  r.symbolId < kMaxSymbols ∧ ∃ call ∈ r.call?, call.Documented kDefaultPriceBand

instance (r : MatchingEngineClientRequest) : Decidable r.Documented :=
  match h : r.call? with
  | none => isFalse (by rintro ⟨-, call, hcall, -⟩; rw [h] at hcall; cases hcall)
  | some call => decidable_of_iff (r.symbolId < kMaxSymbols ∧ call.Documented kDefaultPriceBand)
    (by simp [MatchingEngineClientRequest.Documented, h])

/-- An indexed book for each symbol. -/
abbrev IndexedBooks := Nat → IndexedBook

namespace IndexedBooks

def empty : IndexedBooks := fun _ => .empty

/-- One request. -/
def step (xs : IndexedBooks) (r : MatchingEngineClientRequest) : IndexedBooks :=
  match r.call? with
  | none => xs
  | some call => Function.update xs r.symbolId ((xs r.symbolId).step call)

/-- The client responses of one request. -/
def responses (xs : IndexedBooks) (r : MatchingEngineClientRequest) :
    List MatchingEngineClientResponse :=
  match r.call? with
  | none => []
  | some call => (xs r.symbolId).responses r.symbolId call

/-- The market updates of one request. -/
def updates (xs : IndexedBooks) (r : MatchingEngineClientRequest) :
    List MatchingEngineMarketUpdate :=
  match r.call? with
  | none => []
  | some call => (xs r.symbolId).updates r.symbolId call

/-- A documented request that leaves no more orders in its book than the pool holds. -/
def Admits (xs : IndexedBooks) (r : MatchingEngineClientRequest) : Prop :=
  r.symbolId < kMaxSymbols ∧
    ∃ call ∈ r.call?, (xs r.symbolId).Admits kDefaultPriceBand call

/-- The indexed books are in order. -/
def Inv (xs : IndexedBooks) : Prop :=
  ∀ s, s < kMaxSymbols → IndexedBook.Inv kDefaultPriceBand (xs s)

theorem Inv.empty : Inv IndexedBooks.empty := fun _ _ => IndexedBook.Inv.empty

section Call

variable {xs : IndexedBooks} {r : MatchingEngineClientRequest} {call : BookCall}

/-- A request is a call on the book of its symbol. -/
theorem step_call (xs : IndexedBooks) (hcall : r.call? = some call) :
    xs.step r = Function.update xs r.symbolId ((xs r.symbolId).step call) := by
  rw [step, hcall]

theorem responses_call (xs : IndexedBooks) (hcall : r.call? = some call) :
    xs.responses r = (xs r.symbolId).responses r.symbolId call := by
  rw [responses, hcall]

theorem updates_call (xs : IndexedBooks) (hcall : r.call? = some call) :
    xs.updates r = (xs r.symbolId).updates r.symbolId call := by
  rw [updates, hcall]

theorem Inv.next (h : Inv xs) (hdoc : r.Documented) : Inv (xs.step r) := by
  obtain ⟨hsymbol, call, hcall, hdocCall⟩ := hdoc
  rw [step_call _ hcall]
  intro s hs
  rcases eq_or_ne s r.symbolId with rfl | hne
  · rw [Function.update_self]
    exact (h r.symbolId hsymbol).step hdocCall
  · rw [Function.update_of_ne hne]
    exact h s hs

end Call

end IndexedBooks

/-! ## 3. The engine simulates the indexed books -/

namespace MatchingEngine

/-- Every book of the engine simulates the indexed book of its symbol. -/
def Simulates (m : MatchingEngine) (xs : IndexedBooks) : Prop :=
  ∀ s, s < kMaxSymbols → ∃ b, m.symbolOrderBook s = some b ∧
    BookCore.Simulates s kDefaultPriceBand b (xs s)

theorem Simulates.inv {m : MatchingEngine} {xs : IndexedBooks} (h : m.Simulates xs) : xs.Inv := by
  intro s hs
  obtain ⟨_, -, hsim⟩ := h s hs
  exact hsim.inv

/-- What a run appends to the queues. -/
structure Emits (m m' : MatchingEngine) (responses : List MatchingEngineClientResponse)
    (updates : List MatchingEngineMarketUpdate) : Prop where
  responses : m'.outgoingClientResponses = m.outgoingClientResponses ++ responses
  updates : m'.outgoingMarketUpdates = m.outgoingMarketUpdates ++ updates

theorem Emits.refl (m : MatchingEngine) : Emits m m [] [] := ⟨by simp, by simp⟩

theorem Emits.trans {m m' m'' : MatchingEngine} {rs rs' : List MatchingEngineClientResponse}
    {us us' : List MatchingEngineMarketUpdate} (h : Emits m m' rs us) (h' : Emits m' m'' rs' us') :
    Emits m m'' (rs ++ rs') (us ++ us') :=
  ⟨by rw [h'.responses, h.responses, List.append_assoc],
    by rw [h'.updates, h.updates, List.append_assoc]⟩

theorem Emits.newResponses {m m' : MatchingEngine} {rs : List MatchingEngineClientResponse}
    {us : List MatchingEngineMarketUpdate} (h : Emits m m' rs us) : m'.newResponses m = rs := by
  rw [MatchingEngine.newResponses, h.responses, List.drop_left]

theorem createBooks_spec (ids : List Nat) : ∀ m : MatchingEngine,
    ∃ m', ids.foldlM createBook m = .ok m' ∧
      (∀ s, m'.symbolOrderBook s = if s ∈ ids then some (BookCore.empty s kDefaultPriceBand)
        else m.symbolOrderBook s) ∧
      m'.outgoingClientResponses = m.outgoingClientResponses ∧
      m'.outgoingMarketUpdates = m.outgoingMarketUpdates := by
  induction ids with
  | nil => exact fun m => ⟨m, rfl, by simp, rfl, rfl⟩
  | cons i ids ih =>
    intro m
    obtain ⟨m', hm', hbooks, hr, hu⟩ := ih ⟨Function.update m.symbolOrderBook i
      (some (BookCore.empty i kDefaultPriceBand)), m.outgoingClientResponses,
        m.outgoingMarketUpdates⟩
    refine ⟨m', Run.foldlM_cons_ok.mpr ⟨_, rfl, hm'⟩, fun s => ?_, hr, hu⟩
    rw [hbooks]
    rcases eq_or_ne s i with rfl | hne
    · simp
    · simp [hne]

/-- The constructor builds an empty book for each symbol. -/
theorem init_spec : ∃ m, init = .ok m ∧ m.Simulates .empty ∧ m.outgoingClientResponses = [] ∧
    m.outgoingMarketUpdates = [] := by
  obtain ⟨m, hm, hbooks, hr, hu⟩ :=
    createBooks_spec (List.range kMaxSymbols) ⟨fun _ => none, [], []⟩
  exact ⟨m, hm, fun s hs => ⟨_, by rw [hbooks, if_pos (List.mem_range.mpr hs)],
    BookCore.empty_simulates s (by decide)⟩, hr, hu⟩

/-- The queues are no part of what a book represents. -/
theorem withQueues_simulates {s : Nat} {band : PriceBand} {b : BookCore} {x : IndexedBook}
    (h : BookCore.Simulates s band b x) (responses : List MatchingEngineClientResponse)
    (updates : List MatchingEngineMarketUpdate) :
    BookCore.Simulates s band (b.withQueues responses updates) x where
  rep := by
    obtain ⟨addr, hrep⟩ := h.rep
    exact ⟨addr, hrep.valid, hrep.pool, hrep.capacity, hrep.node, hrep.side, hrep.levels,
      hrep.nextPriority, hrep.index, hrep.counter⟩
  inv := h.inv
  band := h.band
  symbolId := h.symbolId

/-- A documented request is a call on the book of its symbol. -/
theorem Simulates.call {m : MatchingEngine} {xs : IndexedBooks} {r : MatchingEngineClientRequest}
    (h : m.Simulates xs) (hdoc : r.Documented) : ∃ call ∈ r.call?, ∃ b,
      call.Documented kDefaultPriceBand ∧
      BookCore.Simulates r.symbolId kDefaultPriceBand b (xs r.symbolId) ∧
      m.processClientRequest r = m.callBook r.symbolId b call := by
  obtain ⟨hsymbol, call, hcall, hcalldoc⟩ := hdoc
  obtain ⟨b, hb, hsim⟩ := h r.symbolId hsymbol
  have hbook : m.orderBook r.symbolId = .ok b := by rw [orderBook, if_pos hsymbol, hb]
  refine ⟨call, hcall, b, hcalldoc, hsim, ?_⟩
  unfold MatchingEngineClientRequest.call? at hcall
  rw [processClientRequest, hbook, ok_bind]
  cases htype : r.type <;> rw [htype] at hcall <;> cases hcall <;> rfl

/-- **One request** is one call of the indexed book of its symbol. -/
theorem process_sim {m : MatchingEngine} {xs : IndexedBooks} {r : MatchingEngineClientRequest}
    (h : m.Simulates xs) (hadmits : xs.Admits r) :
    ∃ m', m.processClientRequest r = .ok m' ∧ m'.Simulates (xs.step r) ∧
      Emits m m' (xs.responses r) (xs.updates r) := by
  obtain ⟨hsymbol, call, hcall, hcalls⟩ := hadmits
  obtain ⟨call', hcall', b, -, hsim, hprocess⟩ := h.call ⟨hsymbol, call, hcall, hcalls.1⟩
  obtain rfl := Option.some.inj (hcall.symm.trans hcall')
  obtain ⟨b', happly, hsim', hemits⟩ := (withQueues_simulates hsim m.outgoingClientResponses
    m.outgoingMarketUpdates).step hcalls
  have hstep := IndexedBooks.step_call xs hcall
  refine ⟨_, by rw [hprocess, callBook, happly, ok_bind], fun s hs => ?_, ?_, ?_⟩
  · rw [hstep]
    rcases eq_or_ne s r.symbolId with rfl | hne
    · exact ⟨b', Function.update_self _ _ _, by rw [Function.update_self]; exact hsim'⟩
    · obtain ⟨c, hc, hcsim⟩ := h s hs
      refine ⟨c, (Function.update_of_ne hne _ _).trans hc, ?_⟩
      rw [Function.update_of_ne hne]
      exact hcsim
  · rw [IndexedBooks.responses_call _ hcall]
    exact hemits.responses
  · rw [IndexedBooks.updates_call _ hcall]
    exact hemits.updates

/-- **A documented request** goes through, or the pool of its book has no node for the order. -/
theorem Simulates.process_or_full {m : MatchingEngine} {xs : IndexedBooks}
    {r : MatchingEngineClientRequest} (h : m.Simulates xs) (hdoc : r.Documented) :
    xs.Admits r ∨ m.processClientRequest r = .error (.assertion "Memory pool exhausted") := by
  obtain ⟨call, hcall, b, hcalldoc, hsim, hprocess⟩ := h.call hdoc
  rcases (withQueues_simulates hsim m.outgoingClientResponses
    m.outgoingMarketUpdates).step_or_full hcalldoc with hadmits | hfull
  · exact .inl ⟨hdoc.1, call, hcall, hadmits⟩
  · exact .inr (by rw [hprocess, callBook, hfull, error_bind])

/-- **Documented requests** go through, or the pool of a book runs out of nodes; the engine does not
fail otherwise. -/
theorem Simulates.foldlM_or_full {requests : List MatchingEngineClientRequest} :
    ∀ {m : MatchingEngine} {xs : IndexedBooks}, m.Simulates xs → (∀ r ∈ requests, r.Documented) →
      (∃ m', requests.foldlM processClientRequest m = .ok m') ∨
        requests.foldlM processClientRequest m = .error (.assertion "Memory pool exhausted") := by
  induction requests with
  | nil => exact fun _ _ => .inl ⟨_, rfl⟩
  | cons r rs ih =>
    intro m xs h hdoc
    rw [List.foldlM_cons]
    rcases h.process_or_full (hdoc r List.mem_cons_self) with hadmits | hfull
    · obtain ⟨m₁, hprocess, h₁, -⟩ := process_sim h hadmits
      rw [hprocess]
      exact ih h₁ fun r' hr' => hdoc r' (List.mem_cons_of_mem r hr')
    · rw [hfull]
      exact .inr rfl

theorem run_or_full {requests : List MatchingEngineClientRequest}
    (hdoc : ∀ r ∈ requests, r.Documented) : (∃ m, run requests = .ok m) ∨
      run requests = .error (.assertion "Memory pool exhausted") := by
  obtain ⟨m₀, hinit, h, -⟩ := init_spec
  rw [run, hinit, ok_bind]
  exact h.foldlM_or_full hdoc

/-- **A run of admissible requests** returns, and emits what the indexed books emit. -/
theorem run_sim {requests : List MatchingEngineClientRequest}
    (hadmits : Run.AlongRun IndexedBooks.step IndexedBooks.Admits .empty requests) :
    ∃ m, run requests = .ok m ∧ m.Simulates (requests.foldl IndexedBooks.step .empty) ∧
      m.outgoingClientResponses =
        Run.outputs IndexedBooks.step IndexedBooks.responses .empty requests ∧
      m.outgoingMarketUpdates =
        Run.outputs IndexedBooks.step IndexedBooks.updates .empty requests := by
  obtain ⟨m₀, hinit, hsim₀, hresponses₀, hupdates₀⟩ := init_spec
  obtain ⟨m, hrun, hsim, hemits⟩ := Run.foldlM_ok_of_sim (E := Emits) Emits.refl
    (fun h h' => h.trans h') (fun _ _ r h ha => process_sim (r := r) h ha) hsim₀ hadmits
  have hresponses := hemits.responses
  have hupdates := hemits.updates
  rw [hresponses₀, List.nil_append] at hresponses
  rw [hupdates₀, List.nil_append] at hupdates
  exact ⟨m, by rw [run, hinit, ok_bind, hrun], hsim, hresponses, hupdates⟩

/-- A documented request that the engine processes had room. -/
theorem Simulates.admits {m m' : MatchingEngine} {xs : IndexedBooks}
    {r : MatchingEngineClientRequest} (h : m.Simulates xs) (hdoc : r.Documented)
    (hprocess : m.processClientRequest r = .ok m') : xs.Admits r := by
  rcases h.process_or_full hdoc with hadmits | hfull
  · exact hadmits
  · rw [hfull] at hprocess
    cases hprocess

/-- **A run of documented requests** simulates the indexed books. -/
theorem Simulates.foldlM {requests : List MatchingEngineClientRequest} :
    ∀ {m m' : MatchingEngine} {xs : IndexedBooks}, m.Simulates xs → (∀ r ∈ requests, r.Documented) →
      requests.foldlM processClientRequest m = .ok m' →
      m'.Simulates (requests.foldl IndexedBooks.step xs) ∧
        Run.AlongRun IndexedBooks.step IndexedBooks.Admits xs requests := by
  induction requests with
  | nil =>
    intro m m' xs h _ hrun
    cases hrun
    exact ⟨h, trivial⟩
  | cons r rs ih =>
    intro m m' xs h hdoc hrun
    obtain ⟨m₁, hfirst, hrest⟩ := Run.foldlM_cons_ok.mp hrun
    have hadmits := h.admits (hdoc r List.mem_cons_self) hfirst
    obtain ⟨m₂, hprocess, h', -⟩ := process_sim h hadmits
    obtain rfl := Except.ok.inj (hfirst.symm.trans hprocess)
    obtain ⟨hsim, halong⟩ := ih h' (fun r' hr' => hdoc r' (List.mem_cons_of_mem r hr')) hrest
    exact ⟨hsim, hadmits, halong⟩

theorem run_simulates {requests : List MatchingEngineClientRequest} {m : MatchingEngine}
    (hdoc : ∀ r ∈ requests, r.Documented) (hrun : run requests = .ok m) :
    m.Simulates (requests.foldl IndexedBooks.step .empty) ∧
      Run.AlongRun IndexedBooks.step IndexedBooks.Admits .empty requests := by
  obtain ⟨m₀, hinit, h, -⟩ := init_spec
  rw [run, hinit, ok_bind] at hrun
  exact h.foldlM hdoc hrun

end MatchingEngine

end YQuant
