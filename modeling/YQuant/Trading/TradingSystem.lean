/-
# A trade engine and the exchange

One trade engine is the only user of its client id.  Its requests reach the matching engine in the
order they were sent and the responses come back in the order they were emitted, both after any
delay; in between, the strategy moves its orders and other clients send any documented requests.

Every order id of the engine is in a session with the exchange (`Linked`): the order of a slot in
the state of the slot, and every other order in a state that is over.  `slots_agree` reads off what
that says about a slot and the book.

The invariant is stated order by order and not slot by slot: of an order that has left its slot
nothing may come any more but what changes nothing, and only then can the slot be said to agree.  A
step either concerns one order, whose session makes a step, or it concerns none, and the others are
framed (`InSession.other`).

Queues in both directions are first in, first out and lose nothing; that the sockets between them
do is shown in `ExactlyOnce.lean`.  Other clients may do whatever the matcher documents, in any
order.
-/
import YQuant.Matcher.KeyedOrders
import YQuant.Matcher.Cancellable
import YQuant.Trading.TradeEngine

namespace YQuant

open OrderSession (Phase Ask Tell Session Fills hear)

/-- What a request asks of the exchange. -/
def MatchingEngineClientRequest.ask? (r : MatchingEngineClientRequest) : Option Ask :=
  match r.type with
  | .new => some (.enter r.quantity)
  | .canceled => some .cancel
  | .invaild | .other _ => none

theorem MatchingEngineClientRequest.Documented.ask {r : MatchingEngineClientRequest}
    (h : r.Documented) : ∃ a, r.ask? = some a := by
  obtain ⟨-, call, hcall, -⟩ := h
  unfold MatchingEngineClientRequest.ask?
  rcases MatchingEngineClientRequest.call?_cases hcall with ⟨htype, -⟩ | ⟨htype, -⟩
  · exact ⟨_, by rw [htype]⟩
  · exact ⟨_, by rw [htype]⟩

namespace Trading

/-! ## 1. The system -/

/-- The exchange, the trade engine with the requests it has sent, and the responses on their way to
it. -/
structure TradingSystem where
  engine : MatchingEngine
  trader : TradeEngine
  responses : List MatchingEngineClientResponse

/-- The request at the head of the queue is taken. -/
def TradeEngine.dropRequest (t : TradeEngine) : TradeEngine :=
  { t with outgoingOgwRequests := t.outgoingOgwRequests.tail }

namespace TradingSystem

def init (clientId : Nat) (riskCfg : Nat → RiskCfg) : Except Fault TradingSystem := do
  let engine ← MatchingEngine.init
  .ok ⟨engine, .init clientId riskCfg, []⟩

/-- The exchange processes a request, and what concerns the client is sent back to it. -/
def process (s : TradingSystem) (r : MatchingEngineClientRequest) : Except Fault TradingSystem := do
  let engine ← s.engine.processClientRequest r
  .ok { s with
    engine := engine
    responses := s.responses ++
      (engine.newResponses s.engine).filter fun x => x.clientId = s.trader.clientId }

/-- What happens in the system. -/
inductive Event where
  /-- The strategy moves its orders of a symbol. -/
  | moveOrders (tickerId : Nat) (bidPrice askPrice : Option Int) (clip : Nat) (lossTooLarge : Bool)
  /-- The exchange takes the next request of the engine. -/
  | takeRequest
  /-- The exchange takes a request of another client. -/
  | otherRequest (request : MatchingEngineClientRequest)
  /-- The engine takes the next response. -/
  | takeResponse

def step (s : TradingSystem) : Event → Except Fault TradingSystem
  | .moveOrders tickerId bidPrice askPrice clip lossTooLarge => do
    let trader ← OrderManager.moveOrders s.trader tickerId bidPrice askPrice clip lossTooLarge
    .ok { s with trader := trader }
  | .takeRequest =>
    match s.trader.outgoingOgwRequests with
    | [] => .ok s
    | r :: _ => { s with trader := s.trader.dropRequest }.process r
  | .otherRequest r => s.process r
  | .takeResponse =>
    match s.responses with
    | [] => .ok s
    | r :: rest => do
      let trader ← s.trader.onOrderUpdate r
      .ok { s with
        trader := trader
        responses := rest }

/-- The strategy quotes prices of the band, and other clients keep to what the matcher documents. -/
def Allowed (s : TradingSystem) : Event → Prop
  | .moveOrders _ bidPrice askPrice _ _ =>
    (∀ p ∈ bidPrice, kDefaultPriceBand.InBand p) ∧ ∀ p ∈ askPrice, kDefaultPriceBand.InBand p
  | .otherRequest r => r.Documented ∧ r.clientId ≠ s.trader.clientId
  | .takeRequest | .takeResponse => True

instance (s : TradingSystem) : (e : Event) → Decidable (s.Allowed e)
  | .moveOrders .. => inferInstanceAs (Decidable (_ ∧ _))
  | .otherRequest _ => inferInstanceAs (Decidable (_ ∧ _))
  | .takeRequest | .takeResponse => isTrue trivial

end TradingSystem

/-! ## 2. The orders of the engine as sessions -/

/-- Where the engine believes an order to be. -/
def OMOrderState.phase : OMOrderState → Phase
  | .pendingNew => .pendingNew
  | .live => .live
  | .pendingCancel => .pendingCancel
  | .invalid | .dead => .finished

/-- A response moves the order it names as it moves its session. -/
theorem OMOrder.update_hear (o : OMOrder) {r : MatchingEngineClientResponse} {t : Tell}
    (ht : r.tell? = some t) :
    hear o.orderState.phase o.qty t = ((o.update r).orderState.phase, (o.update r).qty) := by
  unfold MatchingEngineClientResponse.tell? at ht
  unfold OMOrder.update
  cases htype : r.type <;> rw [htype] at ht <;> cases ht <;> dsimp only [hear]
  · rfl
  · rfl
  · split <;> rfl
  · rfl

theorem OMOrder.update_of_tell?_none (o : OMOrder) {r : MatchingEngineClientResponse}
    (ht : r.tell? = none) : o.update r = o := by
  unfold MatchingEngineClientResponse.tell? at ht
  unfold OMOrder.update
  cases htype : r.type <;> rw [htype] at ht <;> first | rfl | cases ht

theorem OMOrder.update_frame (o : OMOrder) (r : MatchingEngineClientResponse) :
    (o.update r).orderId = o.orderId ∧ (o.update r).tickerId = o.tickerId ∧
      (o.update r).side = o.side ∧
      (o.orderState ≠ .invalid → (o.update r).orderState ≠ .invalid) := by
  unfold OMOrder.update
  cases r.type with
  | filled =>
    dsimp only
    split <;> simp
  | _ => simp

/-- What requests ask about one order id. -/
def asksOf (rs : List MatchingEngineClientRequest) (symbolId orderId : Nat) : List Ask :=
  rs.filterMap fun r => if r.symbolId = symbolId ∧ r.orderId = orderId then r.ask? else none

section AsksOf

variable {rs rs' : List MatchingEngineClientRequest} {r : MatchingEngineClientRequest} {b n : Nat}

theorem asksOf_append : asksOf (rs ++ rs') b n = asksOf rs b n ++ asksOf rs' b n :=
  List.filterMap_append

theorem asksOf_cons_self {a : Ask} (ha : r.ask? = some a) :
    asksOf (r :: rs) r.symbolId r.orderId = a :: asksOf rs r.symbolId r.orderId :=
  List.filterMap_cons_some (by rw [if_pos ⟨rfl, rfl⟩, ha])

theorem asksOf_cons_of_ne (h : ¬ (r.symbolId = b ∧ r.orderId = n)) :
    asksOf (r :: rs) b n = asksOf rs b n :=
  List.filterMap_cons_none (if_neg h)

theorem mem_asksOf {a : Ask} : a ∈ asksOf rs b n ↔
    ∃ r ∈ rs, (r.symbolId = b ∧ r.orderId = n) ∧ r.ask? = some a := by
  unfold asksOf
  rw [List.mem_filterMap]
  refine exists_congr fun r => and_congr_right fun _ => ?_
  split
  · next hr => simp [hr]
  · next hr => simp [hr]

end AsksOf

/-! ## 3. The engine alone -/

namespace TradeEngine

/-- What the slots and the requests of an engine always satisfy. -/
structure Inv (c : Nat) (t : TradeEngine) : Prop where
  client : t.clientId = c
  slots : ∀ b d, (t.order b d).orderState ≠ .invalid → d.Directional ∧ b < kMaxSymbols ∧
    (t.order b d).tickerId = b ∧ (t.order b d).orderId < t.orderManager.nextOrderId
  bounded : t.orderManager.nextOrderId ≤ kMaxOrderIds
  distinct : ∀ b n d d', t.Placed b n d → t.Placed b n d' → d = d'
  requests : ∀ r ∈ t.outgoingOgwRequests, r.clientId = c ∧ r.Documented

variable {c b b' n qty : Nat} {d d' : Side} {p : Int} {t : TradeEngine}

/-- An update that keeps the id keeps every order in its slot. -/
theorem placed_setOrder {o : OMOrder} (hid : o.orderId = (t.order b d).orderId)
    (hold : (t.order b d).orderState ≠ .invalid) (hnew : o.orderState ≠ .invalid) :
    (t.setOrder b d o).Placed b' n d' ↔ t.Placed b' n d' := by
  unfold Placed
  rw [order_setOrder]
  split
  · next h =>
    obtain ⟨rfl, rfl⟩ := h
    rw [hid]
    exact and_congr_left fun _ => iff_of_true hnew hold
  · rfl

theorem order_cancelOrder : (OrderManager.cancelOrder t b d).order b' d' =
    if b' = b ∧ d' = d then { t.order b d with orderState := .pendingCancel } else t.order b' d' :=
  order_setOrder _

theorem placed_cancelOrder (hlive : (t.order b d).orderState = .live) :
    (OrderManager.cancelOrder t b d).Placed b' n d' ↔ t.Placed b' n d' := by
  have hold : (t.order b d).orderState ≠ .invalid := by
    rw [hlive]
    decide
  have hnew : OMOrderState.pendingCancel ≠ .invalid := by decide
  exact placed_setOrder (t := t.sendClientRequest _) rfl hold hnew

theorem order_entered : (OrderManager.entered t b p d qty).order b' d' =
    if b' = b ∧ d' = d then ⟨b, t.orderManager.nextOrderId, d, p, qty, .pendingNew⟩
    else t.order b' d' :=
  order_setOrder _

theorem placed_entered : (OrderManager.entered t b p d qty).Placed b' n d' ↔
    (b' = b ∧ d' = d) ∧ n = t.orderManager.nextOrderId ∨
      ¬ (b' = b ∧ d' = d) ∧ t.Placed b' n d' := by
  unfold Placed
  rw [order_entered]
  split
  · next h => simp [h, eq_comm]
  · next h => simp [h]

theorem Inv.init (hcfg : Nat → RiskCfg) : Inv c (.init c hcfg) where
  client := rfl
  slots _ _ h := absurd rfl h
  bounded := (by decide : 1 ≤ kMaxOrderIds)
  distinct _ _ _ _ h := absurd rfl h.1
  requests _ hr := absurd hr List.not_mem_nil

theorem Inv.placed_lt (h : Inv c t) (hp : t.Placed b n d) : n < t.orderManager.nextOrderId := by
  obtain ⟨hstate, rfl⟩ := hp
  exact (h.slots b d hstate).2.2.2

/-- A live order is cancelled. -/
theorem Inv.cancelOrder (h : Inv c t) (hc : c < kMaxNumClients)
    (hlive : (t.order b d).orderState = .live) : Inv c (OrderManager.cancelOrder t b d) where
  client := h.client
  slots b' d' hstate := by
    have hplaced := (placed_cancelOrder hlive).mp ⟨hstate, rfl⟩
    obtain ⟨hd, hb, htick, hid⟩ := h.slots b' d' hplaced.1
    rw [order_cancelOrder]
    split
    · next heq =>
      obtain ⟨rfl, rfl⟩ := heq
      exact ⟨hd, hb, htick, hid⟩
    · exact ⟨hd, hb, htick, hid⟩
  bounded := h.bounded
  distinct b' n d₁ d₂ h₁ h₂ :=
    h.distinct b' n d₁ d₂ ((placed_cancelOrder hlive).mp h₁) ((placed_cancelOrder hlive).mp h₂)
  requests r hr := by
    have hstate : (t.order b d).orderState ≠ .invalid := by
      rw [hlive]
      decide
    obtain ⟨-, hb, htick, hid⟩ := h.slots b d hstate
    rcases List.mem_append.mp hr with hr | hr
    · exact h.requests r hr
    · rw [List.mem_singleton.mp hr]
      refine ⟨h.client, htick.trans_lt hb, _, rfl, ?_⟩
      exact ⟨h.client.trans_lt hc, hid.trans_le h.bounded⟩

/-- A new order fills a slot. -/
theorem Inv.entered (h : Inv c t) (hc : c < kMaxNumClients) (hb : b < kMaxSymbols)
    (hd : d.Directional) (hp : kDefaultPriceBand.InBand p) (hqty : 0 < qty)
    (hid : t.orderManager.nextOrderId < kMaxOrderIds) :
    Inv c (OrderManager.entered t b p d qty) where
  client := h.client
  slots b' d' hstate := by
    have hnext : (OrderManager.entered t b p d qty).orderManager.nextOrderId =
        t.orderManager.nextOrderId + 1 := rfl
    rw [order_entered] at hstate ⊢
    rw [hnext]
    split
    · next heq =>
      obtain ⟨rfl, rfl⟩ := heq
      exact ⟨hd, hb, rfl, Nat.lt_succ_self _⟩
    · next hne =>
      rw [if_neg hne] at hstate
      obtain ⟨hd', hb', htick, hlt⟩ := h.slots b' d' hstate
      exact ⟨hd', hb', htick, Nat.lt_succ_of_lt hlt⟩
  bounded := hid
  distinct b' n d₁ d₂ h₁ h₂ := by
    rcases placed_entered.mp h₁ with ⟨⟨rfl, rfl⟩, rfl⟩ | ⟨-, hp₁⟩
    · rcases placed_entered.mp h₂ with ⟨⟨-, rfl⟩, -⟩ | ⟨-, hp₂⟩
      · rfl
      · exact absurd (h.placed_lt hp₂) (Nat.lt_irrefl _)
    · rcases placed_entered.mp h₂ with ⟨-, rfl⟩ | ⟨-, hp₂⟩
      · exact absurd (h.placed_lt hp₁) (Nat.lt_irrefl _)
      · exact h.distinct b' n d₁ d₂ hp₁ hp₂
  requests r hr := by
    rcases List.mem_append.mp hr with hr | hr
    · exact h.requests r hr
    · rw [List.mem_singleton.mp hr]
      refine ⟨h.client, hb, _, rfl, ?_⟩
      exact ⟨h.client.trans_lt hc, hid, hd, hp, hqty⟩

/-- A response updates the order it names. -/
theorem Inv.update (h : Inv c t) (hstate : (t.order b d).orderState ≠ .invalid)
    (r : MatchingEngineClientResponse) : Inv c (t.setOrder b d ((t.order b d).update r)) := by
  obtain ⟨hid, htick, -, hvalid⟩ := (t.order b d).update_frame r
  have hplaced {b' n : Nat} {d' : Side} :
      (t.setOrder b d ((t.order b d).update r)).Placed b' n d' ↔ t.Placed b' n d' :=
    placed_setOrder hid hstate (hvalid hstate)
  refine ⟨h.client, fun b' d' hstate' => ?_, h.bounded, fun b' n d₁ d₂ h₁ h₂ => ?_, h.requests⟩
  · obtain ⟨hd, hb, htick', hlt⟩ := h.slots b' d' (hplaced.mp ⟨hstate', rfl⟩).1
    rw [order_setOrder]
    split
    · next heq =>
      obtain ⟨rfl, rfl⟩ := heq
      exact ⟨hd, hb, htick.trans htick', hid.trans_lt hlt⟩
    · exact ⟨hd, hb, htick', hlt⟩
  · exact h.distinct b' n d₁ d₂ (hplaced.mp h₁) (hplaced.mp h₂)

theorem Inv.dropRequest (h : Inv c t) : Inv c t.dropRequest :=
  ⟨h.client, h.slots, h.bounded, h.distinct, fun r hr => h.requests r (List.mem_of_mem_tail hr)⟩

end TradeEngine

/-! ## 4. Every order id is in a session -/

/-- The session of an order id: what is on the way about it, and what rests under it. -/
def InSession (c : Nat) (t : TradeEngine) (responses : List MatchingEngineClientResponse)
    (xs : IndexedBooks) (b n : Nat) (phase : Phase) (quantity : Nat) : Prop :=
  Session phase quantity (asksOf t.outgoingOgwRequests b n) (tellsOf responses b c n)
    (xs.working b c n)

/-- **The order of a slot is in a session that stands as the slot does, every other order is in a
session that is over**, and nothing that is entered, filled or resting is on the wrong side. -/
structure Linked (c : Nat) (t : TradeEngine) (responses : List MatchingEngineClientResponse)
    (xs : IndexedBooks) : Prop where
  placed : ∀ b n d, t.Placed b n d →
    InSession c t responses xs b n (t.order b d).orderState.phase (t.order b d).qty
  unplaced : ∀ b n, (∀ d, ¬ t.Placed b n d) → InSession c t responses xs b n .finished 0
  entering : ∀ r ∈ t.outgoingOgwRequests, r.type = .new → t.Placed r.symbolId r.orderId r.side
  filled : ∀ r ∈ responses, r.clientId = c ∧
    (r.type = .filled → t.Placed r.symbolId r.clientOrderId r.side)
  resting : ∀ b, b < kMaxSymbols → ∀ o ∈ (xs b).book.resting, o.clientId = c →
    t.Placed b o.clientOrderId o.side
  fresh : ∀ b n, t.orderManager.nextOrderId ≤ n → asksOf t.outgoingOgwRequests b n = [] ∧
    tellsOf responses b c n = [] ∧ xs.working b c n = 0

section InSession

variable {c b n : Nat} {t : TradeEngine} {xs : IndexedBooks}
  {responses : List MatchingEngineClientResponse} {r : MatchingEngineClientRequest}

/-- The sessions that a request is not about. -/
theorem InSession.other {phase : Phase} {q : Nat}
    (h : InSession c t responses xs b n phase q) (hinv : xs.Inv) (hc : xs.CompleteFor c)
    (hdoc : r.Documented) (hother : ¬ (b = r.symbolId ∧ r.clientId = c ∧ r.orderId = n)) :
    InSession c t (responses ++ (xs.responses r).filter fun x => x.clientId = c) (xs.step r) b n
      phase q := by
  unfold InSession
  rw [tellsOf_append, tellsOf_filter]
  exact Session.fill h (IndexedBooks.fills_of_other hinv hc hdoc hother)

/-- The session that a request of the engine is about. -/
theorem InSession.own {phase : Phase} {q : Nat}
    {rest : List MatchingEngineClientRequest}
    (h : InSession r.clientId t responses xs r.symbolId r.orderId phase q) (hinv : xs.Inv)
    (hc : xs.CompleteFor r.clientId) (hdoc : r.Documented)
    (hqueue : t.outgoingOgwRequests = r :: rest) :
    InSession r.clientId t.dropRequest
      (responses ++ (xs.responses r).filter fun x => x.clientId = r.clientId) (xs.step r)
      r.symbolId r.orderId phase q := by
  have hrest : t.dropRequest.outgoingOgwRequests = rest := by
    rw [TradeEngine.dropRequest, hqueue, List.tail_cons]
  unfold InSession at h ⊢
  rw [tellsOf_append, tellsOf_filter, hrest]
  rw [hqueue] at h
  obtain ⟨-, call, hcall, -⟩ := id hdoc
  rcases MatchingEngineClientRequest.call?_cases hcall with ⟨htype, -⟩ | ⟨htype, -⟩
  · rw [asksOf_cons_self (a := .enter r.quantity)
      (by rw [MatchingEngineClientRequest.ask?, htype])] at h
    obtain ⟨fills, htells, hfills⟩ :=
      IndexedBooks.accepted_of_new hinv hdoc htype h.working_of_enter
    rw [htells]
    exact h.takeEnter hfills
  · rw [asksOf_cons_self (a := .cancel) (by rw [MatchingEngineClientRequest.ask?, htype])] at h
    rcases Nat.eq_zero_or_pos (xs.working r.symbolId r.clientId r.orderId) with hzero | hpos
    · obtain ⟨htells, hworking⟩ := IndexedBooks.cancel_late hinv hdoc htype hzero
      rw [hzero] at h
      rw [htells, hworking]
      exact h.takeLateCancel
    · obtain ⟨htells, hworking⟩ := IndexedBooks.cancel_working hinv hc hdoc htype hpos
      rw [htells, hworking]
      exact h.takeCancel hpos

end InSession

namespace Linked

variable {c b n qty : Nat} {d : Side} {p : Int} {t : TradeEngine} {xs : IndexedBooks}
  {responses : List MatchingEngineClientResponse} {r : MatchingEngineClientRequest}

theorem init (hcfg : Nat → RiskCfg) : Linked c (.init c hcfg) [] .empty where
  placed _ _ _ h := absurd rfl h.1
  unplaced _ _ _ := .finished
  entering _ hr := absurd hr List.not_mem_nil
  filled _ hr := absurd hr List.not_mem_nil
  resting _ _ _ ho := absurd ho List.not_mem_nil
  fresh _ _ _ := ⟨rfl, rfl, rfl⟩

/-- **A slot that is empty or dead has no order**: none is on its way, none rests, and no fill of
one is on its way back. -/
theorem eq_over (h : Linked c t responses xs) (hinv : xs.Inv) {n : Nat}
    (hplaced : t.Placed b n d) (hdead : (t.order b d).orderState = .dead) :
    (∀ r ∈ t.outgoingOgwRequests, r.type = .new → ¬ (r.symbolId = b ∧ r.orderId = n)) ∧
      (∀ r ∈ responses, r.type = .filled → ¬ (r.symbolId = b ∧ r.clientOrderId = n)) ∧
      (b < kMaxSymbols → ∀ o ∈ (xs b).book.resting, ¬ o.HasKey c n) := by
  have hsession := h.placed b n d hplaced
  rw [hdead] at hsession
  obtain ⟨hworking, hasks, htells⟩ := hsession.eq_of_over
  refine ⟨fun r hr htype hkey => ?_, fun r hr htype hkey => ?_, fun hb => ?_⟩
  · refine hasks r.quantity (mem_asksOf.mpr ⟨r, hr, hkey, ?_⟩)
    rw [MatchingEngineClientRequest.ask?, htype]
  · refine htells r.executedQuantity r.remainingQuantity (mem_tellsOf.mpr ⟨r, hr, ?_, ?_⟩)
    · exact ⟨hkey.1, (h.filled r hr).1, hkey.2⟩
    · rw [MatchingEngineClientResponse.tell?, htype]
  · exact hinv.free_of_working hb hworking

/-- A live order is cancelled. -/
theorem cancelOrder (h : Linked c t responses xs) (ht : TradeEngine.Inv c t)
    (hlive : (t.order b d).orderState = .live) :
    Linked c (OrderManager.cancelOrder t b d) responses xs := by
  have hstate : (t.order b d).orderState ≠ .invalid := by
    rw [hlive]
    decide
  have hplaced {b' n : Nat} {d' : Side} :
      (OrderManager.cancelOrder t b d).Placed b' n d' ↔ t.Placed b' n d' :=
    TradeEngine.placed_cancelOrder hlive
  have hself : t.Placed b (t.order b d).orderId d := ⟨hstate, rfl⟩
  obtain ⟨-, -, htick, -⟩ := ht.slots b d hstate
  have hrequests : (OrderManager.cancelOrder t b d).outgoingOgwRequests =
      t.outgoingOgwRequests ++ [⟨.canceled, t.clientId, (t.order b d).tickerId,
        (t.order b d).orderId, (t.order b d).side, (t.order b d).price, (t.order b d).qty⟩] := rfl
  -- only the session of the order in the slot is told apart by the new request
  have hother {b' n : Nat} (hne : ¬ (b = b' ∧ (t.order b d).orderId = n)) :
      asksOf (OrderManager.cancelOrder t b d).outgoingOgwRequests b' n =
        asksOf t.outgoingOgwRequests b' n := by
    rw [hrequests, asksOf_append, asksOf_cons_of_ne (by rwa [htick])]
    exact List.append_nil _
  refine ⟨fun b' n d' hp => ?_, fun b' n hp => ?_, fun r hr htype => ?_, fun r hr => ?_,
    fun b' hb o ho hclient => hplaced.mpr (h.resting b' hb o ho hclient), fun b' n hn => ?_⟩
  · have hold := h.placed b' n d' (hplaced.mp hp)
    rw [TradeEngine.order_cancelOrder]
    split
    · next heq =>
      obtain ⟨rfl, rfl⟩ := heq
      obtain ⟨-, rfl⟩ := hplaced.mp hp
      rw [hlive] at hold
      unfold InSession
      rw [hrequests, asksOf_append]
      have hask := @asksOf_cons_self [] ⟨.canceled, t.clientId, (t.order b' d').tickerId,
        (t.order b' d').orderId, (t.order b' d').side, (t.order b' d').price,
        (t.order b' d').qty⟩ .cancel rfl
      dsimp only at hask
      rw [htick] at hask
      rw [htick, hask]
      exact hold.cancel
    · next hne =>
      unfold InSession
      rw [hother]
      · exact hold
      · rintro ⟨rfl, rfl⟩
        exact hne ⟨rfl, ht.distinct _ _ _ _ (hplaced.mp hp) hself⟩
  · unfold InSession
    rw [hother]
    · exact h.unplaced b' n fun d' hp' => hp d' (hplaced.mpr hp')
    · rintro ⟨rfl, rfl⟩
      exact hp d (hplaced.mpr hself)
  · rw [hrequests] at hr
    rcases List.mem_append.mp hr with hr | hr
    · exact hplaced.mpr (h.entering r hr htype)
    · rw [List.mem_singleton.mp hr] at htype
      cases htype
  · exact ⟨(h.filled r hr).1, fun htype => hplaced.mpr ((h.filled r hr).2 htype)⟩
  · obtain ⟨hasks, htells, hworking⟩ := h.fresh b' n hn
    refine ⟨?_, htells, hworking⟩
    rw [hother]
    · exact hasks
    · rintro ⟨rfl, rfl⟩
      exact Nat.not_lt.mpr hn (ht.placed_lt hself)

/-- A new order fills a slot that holds no order at work. -/
theorem entered (h : Linked c t responses xs) (ht : TradeEngine.Inv c t) (hinv : xs.Inv)
    (hb : b < kMaxSymbols) (hqty : 0 < qty)
    (hempty : (t.order b d).orderState = .invalid ∨ (t.order b d).orderState = .dead) :
    Linked c (OrderManager.entered t b p d qty) responses xs := by
  have hplaced {b' n : Nat} {d' : Side} :
      (OrderManager.entered t b p d qty).Placed b' n d' ↔
        (b' = b ∧ d' = d) ∧ n = t.orderManager.nextOrderId ∨
          ¬ (b' = b ∧ d' = d) ∧ t.Placed b' n d' := TradeEngine.placed_entered
  have hdead {n : Nat} (hp : t.Placed b n d) : (t.order b d).orderState = .dead :=
    hempty.resolve_left hp.1
  have hrequests : (OrderManager.entered t b p d qty).outgoingOgwRequests =
      t.outgoingOgwRequests ++ [⟨.new, t.clientId, b, t.orderManager.nextOrderId, d, p, qty⟩] := rfl
  obtain ⟨hasks, htells, hworking⟩ := h.fresh b _ le_rfl
  have hother {b' n : Nat} (hne : ¬ (b = b' ∧ t.orderManager.nextOrderId = n)) :
      asksOf (OrderManager.entered t b p d qty).outgoingOgwRequests b' n =
        asksOf t.outgoingOgwRequests b' n := by
    rw [hrequests, asksOf_append, asksOf_cons_of_ne hne]
    exact List.append_nil _
  refine ⟨fun b' n d' hp => ?_, fun b' n hp => ?_, fun r hr htype => ?_, fun r hr => ?_,
    fun b' hb' o ho hclient => ?_, fun b' n hn => ?_⟩
  · rw [TradeEngine.order_entered]
    rcases hplaced.mp hp with ⟨heq, rfl⟩ | ⟨hne, hp'⟩
    · rw [if_pos heq, heq.1]
      unfold InSession
      rw [hrequests, asksOf_append, hasks, htells, hworking]
      rw [@asksOf_cons_self [] ⟨.new, t.clientId, b, t.orderManager.nextOrderId, d, p, qty⟩
        (.enter qty) rfl]
      exact .entering hqty
    · rw [if_neg hne]
      unfold InSession
      rw [hother]
      · exact h.placed b' n d' hp'
      · rintro ⟨-, rfl⟩
        exact Nat.lt_irrefl _ (ht.placed_lt hp')
  · have hne : ¬ (b = b' ∧ t.orderManager.nextOrderId = n) := by
      rintro ⟨rfl, rfl⟩
      exact hp d (hplaced.mpr (.inl ⟨⟨rfl, rfl⟩, rfl⟩))
    unfold InSession
    rw [hother hne]
    by_cases hold : ∃ d', t.Placed b' n d'
    · obtain ⟨d', hp'⟩ := hold
      -- the order was in the slot that is filled, and dead
      have heq : b' = b ∧ d' = d := by
        by_contra hne'
        exact hp d' (hplaced.mpr (.inr ⟨hne', hp'⟩))
      obtain ⟨rfl, rfl⟩ := heq
      have hsession := h.placed b' n d' hp'
      rw [hdead hp'] at hsession
      exact hsession.forget
    · exact h.unplaced b' n fun d' hp' => hold ⟨d', hp'⟩
  · rw [hrequests] at hr
    rcases List.mem_append.mp hr with hr | hr
    · have hold := h.entering r hr htype
      refine hplaced.mpr (.inr ⟨?_, hold⟩)
      rintro ⟨hsymbol, hside⟩
      rw [hsymbol, hside] at hold
      exact (h.eq_over hinv hold (hdead hold)).1 r hr htype ⟨hsymbol, rfl⟩
    · rw [List.mem_singleton.mp hr]
      exact hplaced.mpr (.inl ⟨⟨rfl, rfl⟩, rfl⟩)
  · refine ⟨(h.filled r hr).1, fun htype => ?_⟩
    have hold := (h.filled r hr).2 htype
    refine hplaced.mpr (.inr ⟨?_, hold⟩)
    rintro ⟨hsymbol, hside⟩
    rw [hsymbol, hside] at hold
    exact (h.eq_over hinv hold (hdead hold)).2.1 r hr htype ⟨hsymbol, rfl⟩
  · have hold := h.resting b' hb' o ho hclient
    refine hplaced.mpr (.inr ⟨?_, hold⟩)
    rintro ⟨rfl, hside⟩
    rw [hside] at hold
    exact (h.eq_over hinv hold (hdead hold)).2.2 hb o ho ⟨hclient, rfl⟩
  · have hn' : t.orderManager.nextOrderId < n := hn
    obtain ⟨hasks', htells', hworking'⟩ := h.fresh b' n hn'.le
    refine ⟨?_, htells', hworking'⟩
    rw [hother]
    · exact hasks'
    · rintro ⟨-, rfl⟩
      exact Nat.lt_irrefl _ hn'

/-- Whether a slot holds an order the lookup finds. -/
theorem candidate_none_iff (ht : TradeEngine.Inv c t) :
    OrderManager.candidate t b n = none ↔ ∀ d, ¬ t.Placed b n d := by
  constructor
  · intro hnone d hp
    obtain ⟨hd, -⟩ := ht.slots b d hp.1
    exact OrderManager.candidate_none hnone hd hp
  · intro hall
    cases hfind : OrderManager.candidate t b n with
    | none => rfl
    | some d => exact absurd (OrderManager.candidate_some hfind).2 (hall d)

section Hear

variable {x : MatchingEngineClientResponse} {tell : Tell} {d : Side}

theorem filled_tail (h : Linked c t (x :: responses) xs) : ∀ r ∈ responses, r.clientId = c ∧
    (r.type = .filled → t.Placed r.symbolId r.clientOrderId r.side) :=
  fun r hr => h.filled r (List.mem_cons_of_mem x hr)

theorem fresh_tail (h : Linked c t (x :: responses) xs) :
    ∀ b n, t.orderManager.nextOrderId ≤ n → asksOf t.outgoingOgwRequests b n = [] ∧
      tellsOf responses b c n = [] ∧ xs.working b c n = 0 := by
  intro b n hn
  obtain ⟨hasks, htells, hworking⟩ := h.fresh b n hn
  rw [← List.singleton_append, tellsOf_append] at htells
  exact ⟨hasks, (List.append_eq_nil_iff.mp htells).2, hworking⟩

/-- A response that tells nothing.  No such response is ever sent. -/
theorem hear_nothing (h : Linked c t (x :: responses) xs) (htell : x.tell? = none) :
    Linked c t responses xs := by
  refine ⟨fun b n d hp => ?_, fun b n hp => ?_, h.entering, h.filled_tail, h.resting,
    h.fresh_tail⟩
  · have hsession := h.placed b n d hp
    unfold InSession at hsession
    rwa [tellsOf_cons_of_none htell] at hsession
  · have hsession := h.unplaced b n hp
    unfold InSession at hsession
    rwa [tellsOf_cons_of_none htell] at hsession

theorem tellsOf_self (h : Linked c t (x :: responses) xs) (htell : x.tell? = some tell) :
    tellsOf (x :: responses) x.symbolId c x.clientOrderId =
      tell :: tellsOf responses x.symbolId c x.clientOrderId :=
  tellsOf_cons_of_pos ⟨rfl, (h.filled x List.mem_cons_self).1, rfl⟩ htell

theorem tellsOf_other {b n : Nat} (hne : ¬ (b = x.symbolId ∧ n = x.clientOrderId)) :
    tellsOf (x :: responses) b c n = tellsOf responses b c n :=
  tellsOf_cons_of_neg fun hr => hne ⟨hr.1.symm, hr.2.2.symm⟩

/-- A response for an order that has left its slot. -/
theorem hear_late (h : Linked c t (x :: responses) xs) (htell : x.tell? = some tell)
    (hall : ∀ d, ¬ t.Placed x.symbolId x.clientOrderId d) : Linked c t responses xs := by
  refine ⟨fun b n d hp => ?_, fun b n hp => ?_, h.entering, h.filled_tail, h.resting,
    h.fresh_tail⟩
  · have hsession := h.placed b n d hp
    unfold InSession at hsession
    rwa [tellsOf_other] at hsession
    rintro ⟨rfl, rfl⟩
    exact hall d hp
  · have hsession := h.unplaced b n hp
    unfold InSession at hsession ⊢
    by_cases heq : b = x.symbolId ∧ n = x.clientOrderId
    · obtain ⟨rfl, rfl⟩ := heq
      rw [h.tellsOf_self htell] at hsession
      exact hsession.late
    · rwa [tellsOf_other heq] at hsession

/-- A response for the order of a slot. -/
theorem hear_placed (h : Linked c t (x :: responses) xs) (ht : TradeEngine.Inv c t)
    (htell : x.tell? = some tell) (hplaced : t.Placed x.symbolId x.clientOrderId d) :
    Linked c (t.setOrder x.symbolId d ((t.order x.symbolId d).update x)) responses xs := by
  obtain ⟨hid, -, -, hvalid⟩ := (t.order x.symbolId d).update_frame x
  have hsame {b n : Nat} {d' : Side} :
      (t.setOrder x.symbolId d ((t.order x.symbolId d).update x)).Placed b n d' ↔
        t.Placed b n d' :=
    TradeEngine.placed_setOrder hid hplaced.1 (hvalid hplaced.1)
  refine ⟨fun b n d' hp => ?_, fun b n hp => ?_,
    fun r hr htype => hsame.mpr (h.entering r hr htype),
    fun r hr => ⟨(h.filled_tail r hr).1, fun htype => hsame.mpr ((h.filled_tail r hr).2 htype)⟩,
    fun b hb o ho hc => hsame.mpr (h.resting b hb o ho hc), h.fresh_tail⟩
  · have hp' := hsame.mp hp
    have hsession := h.placed b n d' hp'
    unfold InSession at hsession ⊢
    rw [TradeEngine.order_setOrder]
    by_cases heq : b = x.symbolId ∧ n = x.clientOrderId
    · obtain ⟨rfl, rfl⟩ := heq
      obtain rfl := ht.distinct _ _ _ _ hp' hplaced
      rw [h.tellsOf_self htell] at hsession
      have hheard := hsession.hear
      rw [OMOrder.update_hear _ htell] at hheard
      rw [if_pos ⟨rfl, rfl⟩]
      exact hheard
    · rw [tellsOf_other heq] at hsession
      rw [if_neg]
      · exact hsession
      · rintro ⟨rfl, rfl⟩
        exact heq ⟨rfl, hp'.2.symm.trans hplaced.2⟩
  · have hsession := h.unplaced b n fun d' hp' => hp d' (hsame.mpr hp')
    unfold InSession at hsession ⊢
    rwa [tellsOf_other] at hsession
    rintro ⟨rfl, rfl⟩
    exact hp d (hsame.mpr hplaced)

/-- **The order manager hears a response.** -/
theorem hear {t' : TradeEngine} (h : Linked c t (x :: responses) xs) (ht : TradeEngine.Inv c t)
    (hupdate : OrderManager.onOrderUpdate t x = .ok t') :
    TradeEngine.Inv c t' ∧ Linked c t' responses xs := by
  cases htell : x.tell? with
  | none =>
    have hheard := h.hear_nothing htell
    rcases OrderManager.onOrderUpdate_cases hupdate with ⟨rfl, -⟩ | ⟨d, -, rfl⟩
    · exact ⟨ht, hheard⟩
    · have heq : t.setOrder x.symbolId d ((t.order x.symbolId d).update x) = t := by
        rw [OMOrder.update_of_tell?_none _ htell]
        simp [TradeEngine.setOrder, TradeEngine.order]
      rw [heq]
      exact ⟨ht, hheard⟩
  | some tell =>
    rcases OrderManager.onOrderUpdate_cases hupdate with ⟨rfl, hnone⟩ | ⟨d, hfind, rfl⟩
    · have hvalid : x.type ≠ .invalid := by
        intro htype
        rw [MatchingEngineClientResponse.tell?, htype] at htell
        cases htell
      exact ⟨ht, h.hear_late htell ((candidate_none_iff ht).mp (hnone.resolve_left hvalid))⟩
    · obtain ⟨-, hplaced⟩ := OrderManager.candidate_some hfind
      exact ⟨ht.update hplaced.1 x, h.hear_placed ht htell hplaced⟩

end Hear

/-! ### Requests at the exchange -/

/-- Nothing is heard of an id that is not in use. -/
theorem fresh_next (h : Linked c t responses xs) (hinv : xs.Inv) (hc : xs.CompleteFor c)
    (hdoc : r.Documented) {n : Nat} (hn : t.orderManager.nextOrderId ≤ n)
    (hother : ¬ (b = r.symbolId ∧ r.clientId = c ∧ r.orderId = n)) :
    tellsOf (responses ++ (xs.responses r).filter fun x => x.clientId = c) b c n = [] ∧
      (xs.step r).working b c n = 0 := by
  obtain ⟨-, htells, hworking⟩ := h.fresh b n hn
  have hfills := IndexedBooks.fills_of_other hinv hc hdoc hother
  rw [hworking] at hfills
  obtain ⟨hnone, hzero⟩ := hfills.of_zero
  rw [tellsOf_append, tellsOf_filter, htells, hnone]
  exact ⟨rfl, hzero⟩

/-- Fills name the side of the slot. -/
theorem filled_next (h : Linked c t responses xs) (hdoc : r.Documented)
    (hown : r.type = .new → r.clientId = c → t.Placed r.symbolId r.orderId r.side) :
    ∀ x ∈ responses ++ (xs.responses r).filter fun x => x.clientId = c, x.clientId = c ∧
      (x.type = .filled → t.Placed x.symbolId x.clientOrderId x.side) := by
  intro x hx
  rcases List.mem_append.mp hx with hx | hx
  · exact h.filled x hx
  · obtain ⟨hx, hclient⟩ := List.mem_filter.mp hx
    have hclient : x.clientId = c := by simpa using hclient
    refine ⟨hclient, fun htype => ?_⟩
    rw [IndexedBooks.responses_symbol hx]
    rcases IndexedBooks.filled_of_mem hx htype with ⟨o, ho, hkey, hside⟩ | ⟨hnew, hcl, hid, hside⟩
    · have hplaced := h.resting _ hdoc.1 o ho (hkey.1.trans hclient)
      rwa [hkey.2, hside] at hplaced
    · rw [hid, hside]
      exact hown hnew (hcl.symm.trans hclient)

/-- Orders rest on the side of the slot. -/
theorem resting_next (h : Linked c t responses xs)
    (hown : r.type = .new → r.clientId = c → t.Placed r.symbolId r.orderId r.side) :
    ∀ b, b < kMaxSymbols → ∀ o ∈ (xs.step r b).book.resting, o.clientId = c →
      t.Placed b o.clientOrderId o.side := by
  intro b hb o ho hclient
  rcases IndexedBooks.mem_step ho with ⟨o', ho', heq⟩ | ⟨rfl, hnew, hkey, hside⟩
  · rw [heq] at hclient ⊢
    exact h.resting b hb o' ho' hclient
  · rw [hkey.2, hside]
    exact hown hnew (hkey.1.symm.trans hclient)

/-- **The exchange takes a request of another client.** -/
theorem otherRequest (h : Linked c t responses xs) (hinv : xs.Inv) (hc : xs.CompleteFor c)
    (hdoc : r.Documented) (hclient : r.clientId ≠ c) :
    (xs.step r).CompleteFor c ∧
      Linked c t (responses ++ (xs.responses r).filter fun x => x.clientId = c) (xs.step r) := by
  have hother {b n : Nat} : ¬ (b = r.symbolId ∧ r.clientId = c ∧ r.orderId = n) :=
    fun hkey => hclient hkey.2.1
  have hown : r.type = .new → r.clientId = c → t.Placed r.symbolId r.orderId r.side :=
    fun _ heq => absurd heq hclient
  refine ⟨hc.step hinv hdoc fun _ heq => absurd heq hclient, fun b n d hp => ?_, fun b n hp => ?_,
    h.entering, h.filled_next hdoc hown, h.resting_next hown, fun b n hn => ?_⟩
  · exact (h.placed b n d hp).other hinv hc hdoc hother
  · exact (h.unplaced b n hp).other hinv hc hdoc hother
  · exact ⟨(h.fresh b n hn).1, h.fresh_next hinv hc hdoc hn hother⟩

/-- **The exchange takes the next request of the engine.** -/
theorem takeRequest {rest : List MatchingEngineClientRequest} (h : Linked c t responses xs)
    (ht : TradeEngine.Inv c t) (hinv : xs.Inv) (hc : xs.CompleteFor c)
    (hqueue : t.outgoingOgwRequests = r :: rest) :
    (xs.step r).CompleteFor c ∧ Linked c t.dropRequest
      (responses ++ (xs.responses r).filter fun x => x.clientId = c) (xs.step r) := by
  have hmem : r ∈ t.outgoingOgwRequests := by
    rw [hqueue]
    exact List.mem_cons_self
  obtain ⟨rfl, hdoc⟩ := ht.requests r hmem
  have hrest : t.dropRequest.outgoingOgwRequests = rest := by
    rw [TradeEngine.dropRequest, hqueue, List.tail_cons]
  have hown : r.type = .new → r.clientId = r.clientId → t.Placed r.symbolId r.orderId r.side :=
    fun htype _ => h.entering r hmem htype
  -- the requests about any other id are those that are left
  have hasks {b n : Nat} (hne : ¬ (b = r.symbolId ∧ r.orderId = n)) :
      asksOf t.dropRequest.outgoingOgwRequests b n = asksOf t.outgoingOgwRequests b n := by
    rw [hrest, hqueue, asksOf_cons_of_ne fun heq => hne ⟨heq.1.symm, heq.2⟩]
  have hsession {b n q : Nat} {phase : Phase}
      (hold : InSession r.clientId t responses xs b n phase q) :
      InSession r.clientId t.dropRequest
        (responses ++ (xs.responses r).filter fun x => x.clientId = r.clientId) (xs.step r) b n
        phase q := by
    by_cases heq : b = r.symbolId ∧ r.orderId = n
    · obtain ⟨rfl, rfl⟩ := heq
      exact hold.own hinv hc hdoc hqueue
    · have hnew := hold.other hinv hc hdoc fun hkey => heq ⟨hkey.1, hkey.2.2⟩
      unfold InSession at hnew ⊢
      rwa [hasks heq]
  have hfree : r.type = .new → r.clientId = r.clientId →
      xs.working r.symbolId r.clientId r.orderId = 0 := by
    intro htype _
    have hplaced := h.placed _ _ _ (h.entering r hmem htype)
    unfold InSession at hplaced
    rw [hqueue, asksOf_cons_self (a := .enter r.quantity)
      (by rw [MatchingEngineClientRequest.ask?, htype])] at hplaced
    exact hplaced.working_of_enter
  refine ⟨hc.step hinv hdoc hfree, fun b n d hp => hsession (h.placed b n d hp),
    fun b n hp => hsession (h.unplaced b n hp), fun r' hr' htype => ?_, h.filled_next hdoc hown,
    h.resting_next hown, fun b n hn => ?_⟩
  · exact h.entering r' (List.mem_of_mem_tail hr') htype
  · have hne : ¬ (b = r.symbolId ∧ r.orderId = n) := by
      rintro ⟨rfl, rfl⟩
      have hnone := (h.fresh r.symbolId r.orderId hn).1
      obtain ⟨a, ha⟩ := hdoc.ask
      rw [hqueue, asksOf_cons_self ha] at hnone
      cases hnone
    rw [hasks hne]
    exact ⟨(h.fresh b n hn).1,
      h.fresh_next hinv hc hdoc hn fun hkey => hne ⟨hkey.1, hkey.2.2⟩⟩

end Linked

/-! ## 5. Runs of the system -/

namespace TradingSystem

/-- The engine and the exchange are in step. -/
structure Synced (c : Nat) (s : TradingSystem) (xs : IndexedBooks) : Prop where
  simulates : s.engine.Simulates xs
  complete : xs.CompleteFor c
  trader : TradeEngine.Inv c s.trader
  linked : Linked c s.trader s.responses xs

variable {c b qty : Nat} {d : Side} {s s' : TradingSystem} {xs : IndexedBooks}
  {r : MatchingEngineClientRequest}

theorem init_synced {riskCfg : Nat → RiskCfg} (hinit : init c riskCfg = .ok s) :
    Synced c s .empty ∧ s.engine.outgoingClientResponses = [] ∧ s.trader = .init c riskCfg ∧
      s.responses = [] := by
  obtain ⟨m, hm, hsim, hnone, -⟩ := MatchingEngine.init_spec
  rw [init, hm, ok_bind] at hinit
  cases hinit
  exact ⟨⟨hsim, .empty, .init riskCfg, .init riskCfg⟩, hnone, rfl, rfl⟩

/-- What the exchange makes of a documented request. -/
theorem process_cases (h : s.engine.Simulates xs) (hdoc : r.Documented)
    (hprocess : s.process r = .ok s') : ∃ engine,
      MatchingEngine.Simulates engine (xs.step r) ∧
      MatchingEngine.Emits s.engine engine (xs.responses r) (xs.updates r) ∧
      s' = { s with
        engine := engine
        responses := s.responses ++
          (xs.responses r).filter fun x => x.clientId = s.trader.clientId } := by
  obtain ⟨engine, hengine, hs'⟩ := bind_ok hprocess
  obtain ⟨engine', hengine', hsim, hemits⟩ :=
    MatchingEngine.process_sim h (h.admits hdoc hengine)
  obtain rfl := Except.ok.inj (hengine.symm.trans hengine')
  cases hs'
  rw [hemits.newResponses]
  exact ⟨engine, hsim, hemits, rfl⟩

/-- One slot is moved. -/
theorem Synced.moveOrder {price : Option Int} {lossTooLarge : Bool} {t : TradeEngine}
    (h : Synced c s xs) (hc : c < kMaxNumClients) (hb : b < kMaxSymbols) (hd : d.Directional)
    (hprice : ∀ p ∈ price, kDefaultPriceBand.InBand p)
    (hmove : OrderManager.moveOrder s.trader b price d qty lossTooLarge = .ok t) :
    Synced c { s with trader := t } xs := by
  cases OrderManager.moveOrder_cases hmove with
  | kept => exact h
  | canceled hlive =>
    exact ⟨h.simulates, h.complete, h.trader.cancelOrder hc hlive,
      h.linked.cancelOrder h.trader hlive⟩
  | @entered p hempty hp hid hallowed =>
    obtain ⟨hqty, -⟩ := TradeEngine.checkPreTradeRisk_allowed hallowed
    exact ⟨h.simulates, h.complete, h.trader.entered hc hb hd (hprice p hp) hqty hid,
      h.linked.entered h.trader h.simulates.inv hb hqty hempty⟩

/-- The positions are no part of what is in step. -/
theorem Synced.withPositions (h : Synced c s xs) (positions : Nat → PositionInfo) :
    Synced c { s with trader := { s.trader with tickerPosition := positions } } xs :=
  ⟨h.simulates, h.complete,
    ⟨h.trader.client, h.trader.slots, h.trader.bounded, h.trader.distinct, h.trader.requests⟩,
    ⟨h.linked.placed, h.linked.unplaced, h.linked.entering, h.linked.filled, h.linked.resting,
      h.linked.fresh⟩⟩

/-- The positions after a response. -/
def positionsAfter (t : TradeEngine) (x : MatchingEngineClientResponse) : Nat → PositionInfo :=
  if x.type = .filled then
    Function.update t.tickerPosition x.symbolId ((t.tickerPosition x.symbolId).addFill x)
  else t.tickerPosition

/-- A response that the engine takes reaches the position keeper if it is a fill, and then the order
manager. -/
theorem onOrderUpdate_cases {t t' : TradeEngine} {x : MatchingEngineClientResponse}
    (h : t.onOrderUpdate x = .ok t') :
    OrderManager.onOrderUpdate { t with tickerPosition := positionsAfter t x } x = .ok t' := by
  obtain ⟨u, hfill, hrest⟩ := bind_ok h
  unfold positionsAfter
  split at hfill
  · next htype =>
    obtain ⟨v, -, hu⟩ := bind_ok hfill
    cases hu
    rw [if_pos htype]
    exact hrest
  · next htype =>
    cases hfill
    rw [if_neg htype]
    exact hrest

/-- **What a step can do.** -/
inductive Outcome (s : TradingSystem) (xs : IndexedBooks) :
    Event → TradingSystem → IndexedBooks → Prop
  | idle {e : Event} : Outcome s xs e s xs
  | moved {b clip : Nat} {bid ask : Option Int} {lossTooLarge : Bool} {t₁ t : TradeEngine}
      (hb : b < kMaxSymbols)
      (hbid : OrderManager.moveOrder s.trader b bid .buy clip lossTooLarge = .ok t₁)
      (hask : OrderManager.moveOrder t₁ b ask .sell clip lossTooLarge = .ok t) :
      Outcome s xs (.moveOrders b bid ask clip lossTooLarge) { s with trader := t } xs
  | taken {r : MatchingEngineClientRequest} {rest : List MatchingEngineClientRequest}
      {engine : MatchingEngine} (hqueue : s.trader.outgoingOgwRequests = r :: rest)
      (hsim : engine.Simulates (xs.step r))
      (hemits : MatchingEngine.Emits s.engine engine (xs.responses r) (xs.updates r)) :
      Outcome s xs .takeRequest
        ⟨engine, s.trader.dropRequest, s.responses ++
          (xs.responses r).filter fun x => x.clientId = s.trader.clientId⟩ (xs.step r)
  | other {r : MatchingEngineClientRequest} {engine : MatchingEngine} (hdoc : r.Documented)
      (hclient : r.clientId ≠ s.trader.clientId) (hsim : engine.Simulates (xs.step r))
      (hemits : MatchingEngine.Emits s.engine engine (xs.responses r) (xs.updates r)) :
      Outcome s xs (.otherRequest r)
        ⟨engine, s.trader, s.responses ++
          (xs.responses r).filter fun x => x.clientId = s.trader.clientId⟩ (xs.step r)
  | heard {x : MatchingEngineClientResponse} {rest : List MatchingEngineClientResponse}
      {t : TradeEngine} (hqueue : s.responses = x :: rest)
      (hupdate : OrderManager.onOrderUpdate { s.trader with
        tickerPosition := positionsAfter s.trader x } x = .ok t) :
      Outcome s xs .takeResponse ⟨s.engine, t, rest⟩ xs

theorem Synced.outcome {e : Event} (h : Synced c s xs) (he : s.Allowed e)
    (hstep : s.step e = .ok s') : ∃ xs', Outcome s xs e s' xs' := by
  cases e with
  | moveOrders tickerId bidPrice askPrice clip lossTooLarge =>
    obtain ⟨t, hmoves, hs'⟩ := bind_ok hstep
    cases hs'
    obtain ⟨u, hticker, hmoves⟩ := bind_ok hmoves
    obtain ⟨t₁, hbid, hask⟩ := bind_ok hmoves
    exact ⟨xs, .moved (TradeEngine.checkTicker_ok hticker) hbid hask⟩
  | takeRequest =>
    unfold TradingSystem.step at hstep
    cases hqueue : s.trader.outgoingOgwRequests with
    | nil =>
      rw [hqueue] at hstep
      cases hstep
      exact ⟨xs, .idle⟩
    | cons r rest =>
      rw [hqueue] at hstep
      have hdoc := (h.trader.requests r (hqueue ▸ List.mem_cons_self)).2
      obtain ⟨engine, hsim, hemits, rfl⟩ :=
        process_cases (s := { s with trader := s.trader.dropRequest }) h.simulates hdoc hstep
      exact ⟨xs.step r, .taken hqueue hsim hemits⟩
  | otherRequest r =>
    obtain ⟨hdoc, hother⟩ := he
    obtain ⟨engine, hsim, hemits, rfl⟩ := process_cases h.simulates hdoc hstep
    exact ⟨xs.step r, .other hdoc hother hsim hemits⟩
  | takeResponse =>
    unfold TradingSystem.step at hstep
    cases hqueue : s.responses with
    | nil =>
      rw [hqueue] at hstep
      cases hstep
      exact ⟨xs, .idle⟩
    | cons x rest =>
      rw [hqueue] at hstep
      obtain ⟨t, hupdate, hs'⟩ := bind_ok hstep
      cases hs'
      exact ⟨xs, .heard hqueue (onOrderUpdate_cases hupdate)⟩

/-- **Every step keeps the engine and the exchange in step.** -/
theorem Synced.next {e : Event} {xs' : IndexedBooks} (h : Synced c s xs) (hc : c < kMaxNumClients)
    (he : s.Allowed e) (hout : Outcome s xs e s' xs') : Synced c s' xs' := by
  cases hout with
  | idle => exact h
  | moved hb hbid hask =>
    have h₁ := h.moveOrder hc hb (.inl rfl) he.1 hbid
    exact h₁.moveOrder hc hb (.inr rfl) he.2 hask
  | taken hqueue hsim _ =>
    obtain ⟨hcomplete, hlinked⟩ := h.linked.takeRequest h.trader h.simulates.inv h.complete hqueue
    refine ⟨hsim, hcomplete, h.trader.dropRequest, ?_⟩
    dsimp only
    rw [h.trader.client]
    exact hlinked
  | other hdoc hother hsim _ =>
    rw [h.trader.client] at hother
    obtain ⟨hcomplete, hlinked⟩ :=
      h.linked.otherRequest h.simulates.inv h.complete hdoc hother
    refine ⟨hsim, hcomplete, h.trader, ?_⟩
    dsimp only
    rw [h.trader.client]
    exact hlinked
  | @heard x _ _ hqueue hupdate =>
    have h' := h.withPositions (positionsAfter s.trader x)
    have hlinked := h'.linked
    dsimp only at hlinked
    rw [hqueue] at hlinked
    obtain ⟨htrader, hlinked'⟩ := hlinked.hear h'.trader hupdate
    exact ⟨h.simulates, h.complete, htrader, hlinked'⟩

theorem Synced.step {e : Event} (h : Synced c s xs) (hc : c < kMaxNumClients) (he : s.Allowed e)
    (hstep : s.step e = .ok s') : ∃ xs', Synced c s' xs' := by
  obtain ⟨xs', hout⟩ := h.outcome he hstep
  exact ⟨xs', h.next hc he hout⟩

/-! ## 6. The slots and the books -/

/-- An order of the client rests in a slot of the book of a symbol. -/
def OwnAt (s : TradingSystem) (symbolId : Nat) (side : Side) (tick a : Nat) (node : OrderNode) :
    Prop :=
  ∃ book, s.engine.symbolOrderBook symbolId = some book ∧ book.RestsAt side tick a node ∧
    node.clientId = s.trader.clientId

/-- The quantity executed by the fills on the way to the engine. -/
def filledInFlight (s : TradingSystem) (symbolId orderId : Nat) : Nat :=
  ((s.responses.filter fun x =>
    x.type = .filled ∧ x.symbolId = symbolId ∧ x.clientOrderId = orderId).map
      MatchingEngineClientResponse.executedQuantity).sum

/-- **A slot agrees with the exchange.** -/
structure SlotAgrees (s : TradingSystem) (symbolId : Nat) (side : Side) : Prop where
  /-- An order that rests is the slot's, there is no other, and none is on its way. -/
  resting : ∀ tick a node, s.OwnAt symbolId side tick a node →
    node.clientOrderId = (s.trader.order symbolId side).orderId ∧
      (∀ tick' a' node', s.OwnAt symbolId side tick' a' node' → a' = a) ∧
      ∀ r ∈ s.trader.outgoingOgwRequests, r.type = .new → ¬ (r.symbolId = symbolId ∧ r.side = side)
  /-- An order on its way is the slot's, and there is no other. -/
  entering : (∀ r ∈ s.trader.outgoingOgwRequests, r.type = .new → r.symbolId = symbolId →
      r.side = side → r.orderId = (s.trader.order symbolId side).orderId) ∧
    (s.trader.outgoingOgwRequests.filter fun r =>
      r.type = .new ∧ r.symbolId = symbolId ∧ r.side = side).length ≤ 1
  /-- An empty or dead slot has no order, and no fill of one is on its way. -/
  finished : (s.trader.order symbolId side).orderState = .invalid ∨
      (s.trader.order symbolId side).orderState = .dead →
    (∀ tick a node, ¬ s.OwnAt symbolId side tick a node) ∧
      (∀ r ∈ s.trader.outgoingOgwRequests, r.type = .new →
        ¬ (r.symbolId = symbolId ∧ r.side = side)) ∧
      ∀ x ∈ s.responses, x.type = .filled → ¬ (x.symbolId = symbolId ∧ x.side = side)
  /-- The quantity of a slot at work, less the fills on their way, is what is left of its order at
  the exchange. -/
  accounted : (s.trader.order symbolId side).orderState = .live ∨
      (s.trader.order symbolId side).orderState = .pendingCancel →
    ∃ left, (s.trader.order symbolId side).qty =
        s.filledInFlight symbolId (s.trader.order symbolId side).orderId + left ∧
      ((∃ tick a node, s.OwnAt symbolId side tick a node ∧ node.remainingQuantity = left) ∨
        (∀ tick a node, ¬ s.OwnAt symbolId side tick a node) ∧
          ((∃ x ∈ s.responses, x.type = .canceled ∧ x.symbolId = symbolId ∧
              x.clientOrderId = (s.trader.order symbolId side).orderId ∧
              x.remainingQuantity = left) ∨
            left = 0 ∧ ∀ x ∈ s.responses, x.type = .canceled →
              ¬ (x.symbolId = symbolId ∧
                x.clientOrderId = (s.trader.order symbolId side).orderId)))
  /-- A response to any other order leaves the slot as it is. -/
  ignored : ∀ x t, ¬ (x.symbolId = symbolId ∧
      x.clientOrderId = (s.trader.order symbolId side).orderId) →
    s.trader.onOrderUpdate x = .ok t → t.order symbolId side = s.trader.order symbolId side

/-- The client's nodes are its resting orders. -/
theorem Synced.ownAt (h : Synced c s xs) (hb : b < kMaxSymbols) : ∃ addr : Nat → Nat,
    (∀ d tick a node, s.OwnAt b d tick a node → ∃ o ∈ (xs b).book.resting,
      o.HasKey c node.clientOrderId ∧ o.side = d ∧ addr o.arrival = a) ∧
    ∀ o ∈ (xs b).book.resting, o.clientId = c → ∃ tick a node, s.OwnAt b o.side tick a node ∧
      node.clientOrderId = o.clientOrderId ∧ node.remainingQuantity = o.quantity := by
  obtain ⟨book, hbook, hsim⟩ := h.simulates b hb
  obtain ⟨addr, hrep⟩ := hsim.rep
  have hinv := hsim.inv
  rw [← hsim.band] at hinv
  refine ⟨addr, fun d tick a node hown => ?_, fun o ho hclient => ?_⟩
  · obtain ⟨book', hbook', hrests, hclient⟩ := hown
    obtain rfl := Option.some.inj (hbook.symm.trans hbook')
    obtain ⟨-, -, hnode, o, ho, hat, haddr⟩ := hrep.restsAt_iff.mp hrests
    obtain ⟨n, hn, hstored⟩ := hrep.node o ho
    rw [haddr, hnode] at hn
    obtain rfl := Option.some.inj hn
    refine ⟨o, ho, ⟨?_, hstored.clientOrderId.symm⟩, hat.1, haddr⟩
    rw [← hstored.clientId, hclient, h.trader.client]
  · obtain ⟨tick, node, hrests, hstored, -, -⟩ := hrep.exists_restsAt hinv ho
    refine ⟨tick, _, node, ⟨book, hbook, hrests, ?_⟩, hstored.clientOrderId,
      hstored.remainingQuantity⟩
    rw [hstored.clientId, hclient, h.trader.client]

/-- The fills in flight, as the session hears them. -/
theorem filledInFlight_eq (hclient : ∀ x ∈ s.responses, x.clientId = c) (n : Nat) :
    s.filledInFlight b n = OrderSession.executed (tellsOf s.responses b c n) := by
  unfold filledInFlight
  generalize s.responses = rs at hclient
  induction rs with
  | nil => rfl
  | cons x rs ih =>
    have hrest := ih fun y hy => hclient y (List.mem_cons_of_mem x hy)
    have hx := hclient x List.mem_cons_self
    by_cases hkey : x.symbolId = b ∧ x.clientOrderId = n
    · have hconcerns : x.Concerns b c n := ⟨hkey.1, hx, hkey.2⟩
      by_cases htype : x.type = .filled
      · rw [List.filter_cons_of_pos (by simp [htype, hkey]), List.map_cons, List.sum_cons, hrest,
          tellsOf_cons_of_pos hconcerns (by rw [MatchingEngineClientResponse.tell?, htype])]
        rfl
      · rw [List.filter_cons_of_neg (by simp [htype]), hrest]
        cases htell : x.tell? with
        | none => rw [tellsOf_cons_of_none htell]
        | some t =>
          rw [tellsOf_cons_of_pos hconcerns htell]
          unfold MatchingEngineClientResponse.tell? at htell
          cases hcase : x.type <;> rw [hcase] at htell <;> cases htell
          · rfl
          · rfl
          · exact absurd hcase htype
          · rfl
    · have hneg : ¬ (x.type = .filled ∧ x.symbolId = b ∧ x.clientOrderId = n) := fun h => hkey h.2
      rw [List.filter_cons_of_neg (by simpa using hneg), hrest, tellsOf_cons_of_neg]
      exact fun hr => hkey ⟨hr.1, hr.2.2⟩

/-- An order that rests is the slot's, and at work. -/
theorem Synced.of_ownAt {tick a : Nat} {node : OrderNode} (h : Synced c s xs) (hb : b < kMaxSymbols)
    (hown : s.OwnAt b d tick a node) : s.trader.Placed b node.clientOrderId d ∧
      0 < xs.working b c node.clientOrderId := by
  obtain ⟨addr, hnode, -⟩ := h.ownAt hb
  obtain ⟨o, ho, hkey, hside, -⟩ := hnode d tick a node hown
  have hplaced := h.linked.resting b hb o ho hkey.1
  rw [hkey.2, hside] at hplaced
  exact ⟨hplaced, restingQuantity_pos (h.simulates.inv b hb).orderly ho hkey⟩

/-- A new order on its way is the slot's, and is asked for once. -/
theorem Synced.of_entering {n : Nat} {d : Side} (h : Synced c s xs)
    (hmem : r ∈ s.trader.outgoingOgwRequests) (htype : r.type = .new)
    (hplaced : s.trader.Placed r.symbolId n d) (hid : r.orderId = n) :
    asksOf s.trader.outgoingOgwRequests r.symbolId n = [.enter (s.trader.order r.symbolId d).qty] ∧
      xs.working r.symbolId c n = 0 := by
  have hask : Ask.enter r.quantity ∈ asksOf s.trader.outgoingOgwRequests r.symbolId n :=
    mem_asksOf.mpr ⟨r, hmem, ⟨rfl, hid⟩, by rw [MatchingEngineClientRequest.ask?, htype]⟩
  exact (h.linked.placed _ _ _ hplaced).eq_of_enter hask

theorem Synced.slot_resting {tick a : Nat} {node : OrderNode} (h : Synced c s xs)
    (hb : b < kMaxSymbols) (hown : s.OwnAt b d tick a node) :
    node.clientOrderId = (s.trader.order b d).orderId ∧
      (∀ tick' a' node', s.OwnAt b d tick' a' node' → a' = a) ∧
      ∀ r ∈ s.trader.outgoingOgwRequests, r.type = .new → ¬ (r.symbolId = b ∧ r.side = d) := by
  obtain ⟨hplaced, hworking⟩ := h.of_ownAt hb hown
  refine ⟨hplaced.2.symm, fun tick' a' node' hown' => ?_, fun r hr htype => ?_⟩
  · obtain ⟨hplaced', -⟩ := h.of_ownAt hb hown'
    obtain ⟨addr, hnode, -⟩ := h.ownAt hb
    obtain ⟨o, ho, hkey, -, rfl⟩ := hnode d tick a node hown
    obtain ⟨o', ho', hkey', -, rfl⟩ := hnode d tick' a' node' hown'
    have hid : node'.clientOrderId = node.clientOrderId := hplaced'.2.symm.trans hplaced.2
    rw [hid] at hkey'
    rw [(h.complete b hb).eq_of_key (h.simulates.inv b hb) ho ho' hkey.1 (by rwa [hkey.1, hkey.2])]
  · rintro ⟨rfl, rfl⟩
    have hentering := h.linked.entering r hr htype
    have hid : r.orderId = node.clientOrderId := hentering.2.symm.trans hplaced.2
    exact Nat.ne_of_gt hworking (h.of_entering hr htype hplaced hid).2

theorem Synced.slot_entering (h : Synced c s xs) (b : Nat) (d : Side) :
    (∀ r ∈ s.trader.outgoingOgwRequests, r.type = .new → r.symbolId = b → r.side = d →
      r.orderId = (s.trader.order b d).orderId) ∧
    (s.trader.outgoingOgwRequests.filter fun r =>
      r.type = .new ∧ r.symbolId = b ∧ r.side = d).length ≤ 1 := by
  have hid : ∀ r ∈ s.trader.outgoingOgwRequests, r.type = .new → r.symbolId = b → r.side = d →
      r.orderId = (s.trader.order b d).orderId := by
    rintro r hr htype rfl rfl
    exact (h.linked.entering r hr htype).2.symm
  refine ⟨hid, ?_⟩
  rcases List.eq_nil_or_concat' (s.trader.outgoingOgwRequests.filter fun r =>
      r.type = .new ∧ r.symbolId = b ∧ r.side = d) with hnil | ⟨l, r, hl⟩
  · rw [hnil]
    exact Nat.zero_le 1
  · have hmem : r ∈ s.trader.outgoingOgwRequests.filter fun r =>
        r.type = .new ∧ r.symbolId = b ∧ r.side = d := by
      rw [hl]
      simp
    obtain ⟨hr, hkind⟩ := List.mem_filter.mp hmem
    obtain ⟨htype, rfl, rfl⟩ := of_decide_eq_true hkind
    have hplaced := h.linked.entering r hr htype
    have hasks := (h.of_entering hr htype hplaced rfl).1
    -- each of them asks for the order of the slot
    have hle : (s.trader.outgoingOgwRequests.filter fun r' =>
        r'.type = .new ∧ r'.symbolId = r.symbolId ∧ r'.side = r.side).length ≤
          (asksOf s.trader.outgoingOgwRequests r.symbolId r.orderId).length := by
      rw [asksOf, List.length_filterMap_eq_countP, ← List.countP_eq_length_filter]
      refine List.countP_mono_left fun r' hr' hkind' => ?_
      obtain ⟨htype', hsymbol, hside⟩ := of_decide_eq_true hkind'
      have hid' : r'.orderId = r.orderId := (hid r' hr' htype' hsymbol hside).trans hplaced.2
      rw [if_pos ⟨hsymbol, hid'⟩, MatchingEngineClientRequest.ask?, htype']
      rfl
    rwa [hasks] at hle

theorem Synced.slot_over (h : Synced c s xs) (hb : b < kMaxSymbols)
    (hempty : (s.trader.order b d).orderState = .invalid ∨
      (s.trader.order b d).orderState = .dead) :
    (∀ tick a node, ¬ s.OwnAt b d tick a node) ∧
      (∀ r ∈ s.trader.outgoingOgwRequests, r.type = .new → ¬ (r.symbolId = b ∧ r.side = d)) ∧
      ∀ x ∈ s.responses, x.type = .filled → ¬ (x.symbolId = b ∧ x.side = d) := by
  have hdead {n : Nat} (hp : s.trader.Placed b n d) : (s.trader.order b d).orderState = .dead :=
    hempty.resolve_left hp.1
  have hinv := h.simulates.inv
  refine ⟨fun tick a node hown => ?_, fun r hr htype => ?_, fun x hx htype => ?_⟩
  · obtain ⟨hplaced, -⟩ := h.of_ownAt hb hown
    obtain ⟨addr, hnode, -⟩ := h.ownAt hb
    obtain ⟨o, ho, hkey, -, -⟩ := hnode d tick a node hown
    exact (h.linked.eq_over hinv hplaced (hdead hplaced)).2.2 hb o ho hkey
  · rintro ⟨rfl, rfl⟩
    have hplaced := h.linked.entering r hr htype
    exact (h.linked.eq_over hinv hplaced (hdead hplaced)).1 r hr htype ⟨rfl, rfl⟩
  · rintro ⟨rfl, rfl⟩
    have hplaced := (h.linked.filled x hx).2 htype
    exact (h.linked.eq_over hinv hplaced (hdead hplaced)).2.1 x hx htype ⟨rfl, rfl⟩

theorem Synced.slot_accounted (h : Synced c s xs) (hb : b < kMaxSymbols)
    (hwork : (s.trader.order b d).orderState = .live ∨
      (s.trader.order b d).orderState = .pendingCancel) :
    ∃ left, (s.trader.order b d).qty =
        s.filledInFlight b (s.trader.order b d).orderId + left ∧
      ((∃ tick a node, s.OwnAt b d tick a node ∧ node.remainingQuantity = left) ∨
        (∀ tick a node, ¬ s.OwnAt b d tick a node) ∧
          ((∃ x ∈ s.responses, x.type = .canceled ∧ x.symbolId = b ∧
              x.clientOrderId = (s.trader.order b d).orderId ∧ x.remainingQuantity = left) ∨
            left = 0 ∧ ∀ x ∈ s.responses, x.type = .canceled →
              ¬ (x.symbolId = b ∧ x.clientOrderId = (s.trader.order b d).orderId))) := by
  have hclient : ∀ x ∈ s.responses, x.clientId = c := fun x hx => (h.linked.filled x hx).1
  have hplaced : s.trader.Placed b (s.trader.order b d).orderId d := by
    refine ⟨?_, rfl⟩
    rcases hwork with hstate | hstate <;> rw [hstate] <;> decide
  have hphase : (s.trader.order b d).orderState.phase = .live ∨
      (s.trader.order b d).orderState.phase = .pendingCancel := by
    rcases hwork with hstate | hstate <;> rw [hstate]
    · exact .inl rfl
    · exact .inr rfl
  have hinv := (h.simulates.inv b hb).orderly
  have hcanceled {left : Nat} : Tell.canceled left ∈
      tellsOf s.responses b c (s.trader.order b d).orderId ↔ ∃ x ∈ s.responses,
        x.type = .canceled ∧ x.symbolId = b ∧
          x.clientOrderId = (s.trader.order b d).orderId ∧ x.remainingQuantity = left := by
    rw [mem_tellsOf]
    refine exists_congr fun x => and_congr_right fun hx => ?_
    rw [MatchingEngineClientResponse.tell?_eq_canceled]
    constructor
    · rintro ⟨⟨hsymbol, -, hid⟩, htype, hleft⟩
      exact ⟨htype, hsymbol, hid, hleft⟩
    · rintro ⟨htype, hsymbol, hid, hleft⟩
      exact ⟨⟨hsymbol, hclient x hx, hid⟩, htype, hleft⟩
  have hnone (hzero : xs.working b c (s.trader.order b d).orderId = 0) :
      ∀ tick a node, ¬ s.OwnAt b d tick a node := by
    intro tick a node hown
    obtain ⟨hplaced', hworking⟩ := h.of_ownAt hb hown
    rw [← hplaced'.2] at hworking
    exact Nat.ne_of_gt hworking hzero
  obtain ⟨left, hqty, hcases⟩ := (h.linked.placed _ _ _ hplaced).accounted hphase
  refine ⟨left, by rw [hqty, filledInFlight_eq hclient], ?_⟩
  rcases hcases with ⟨rfl, hpos⟩ | ⟨hmem, hzero⟩ | ⟨rfl, hzero, hno⟩
  · obtain ⟨o, ho, hkey⟩ := exists_of_restingQuantity_pos hpos
    obtain ⟨addr, -, hresting⟩ := h.ownAt hb
    obtain ⟨tick, a, node, hown, -, hquantity⟩ := hresting o ho hkey.1
    have hside := h.linked.resting b hb o ho hkey.1
    rw [hkey.2] at hside
    rw [h.trader.distinct _ _ _ _ hside hplaced] at hown
    refine .inl ⟨tick, a, node, hown, hquantity.trans ?_⟩
    exact (restingQuantity_of_mem hinv
      ((h.complete b hb).singleKey (h.simulates.inv b hb) _) ho hkey).symm
  · exact .inr ⟨hnone hzero, .inl (hcanceled.mp hmem)⟩
  · refine .inr ⟨hnone hzero, .inr ⟨rfl, fun x hx htype hkey => hno x.remainingQuantity ?_⟩⟩
    exact hcanceled.mpr ⟨x, hx, htype, hkey.1, hkey.2, rfl⟩

/-- A response to another order leaves a slot as it is. -/
theorem order_of_onOrderUpdate {t t' : TradeEngine} {x : MatchingEngineClientResponse}
    (hother : ¬ (x.symbolId = b ∧ x.clientOrderId = (t.order b d).orderId))
    (hupdate : t.onOrderUpdate x = .ok t') : t'.order b d = t.order b d := by
  rcases OrderManager.onOrderUpdate_cases (onOrderUpdate_cases hupdate) with
    ⟨rfl, -⟩ | ⟨d', hfind, rfl⟩
  · rfl
  · obtain ⟨-, hplaced⟩ := OrderManager.candidate_some hfind
    rw [TradeEngine.order_setOrder_of_ne]
    · rfl
    · rintro ⟨rfl, rfl⟩
      exact hother ⟨rfl, hplaced.2.symm⟩

theorem Synced.slotAgrees (h : Synced c s xs) (hb : b < kMaxSymbols) : s.SlotAgrees b d where
  resting _ _ _ hown := h.slot_resting hb hown
  entering := h.slot_entering b d
  finished := h.slot_over hb
  accounted := h.slot_accounted hb
  ignored _ _ hother hupdate := order_of_onOrderUpdate hother hupdate

/-- **Slots agree with the exchange**, in every state that is reached: for every symbol and side,
what the slot says of its order is what the book, the requests and the responses on the way say of
it.  Every order id of the engine is in a session with the exchange (`Synced.linked`), and the
orders that are no longer in a slot are in one that is over; so the slot's order is the only one
that can rest or be on its way. -/
theorem slots_agree {riskCfg : Nat → RiskCfg} (hc : c < kMaxNumClients)
    (hinit : init c riskCfg = .ok s) {events : List Event}
    (hallowed : Run.EachStep TradingSystem.step Allowed s events) :
    Run.Always TradingSystem.step
      (fun s => ∀ b < kMaxSymbols, ∀ d, d.Directional → s.SlotAgrees b d) s events := by
  have hinv : Run.Always TradingSystem.step (fun s => ∃ xs, Synced c s xs) s events :=
    hallowed.always (fun _ _ _ ⟨_, h⟩ he hstep => h.step hc he hstep) ⟨_, (init_synced hinit).1⟩
  refine hinv.mono ?_
  rintro s ⟨xs, h⟩ b hb d -
  exact h.slotAgrees hb

/-- A cancel that comes too late, and the slot used again before the reject is heard. -/
def lateReject : List Event :=
  [.moveOrders 0 (some 0) none 10 false, .takeRequest, .takeResponse,
    .otherRequest ⟨.new, 2, 0, 1, .sell, 0, 10⟩, .moveOrders 0 none none 10 false, .takeRequest,
    .takeResponse, .moveOrders 0 (some 1) none 10 false, .takeResponse]

theorem slots_agree_late_reject : ∃ s s', init 1 (fun _ => ⟨100, 100⟩) = .ok s ∧
    lateReject.foldlM TradingSystem.step s = .ok s' ∧
    s'.trader.order 0 .buy = ⟨0, 2, .buy, 1, 10, .pendingNew⟩ ∧ s'.responses = [] ∧
    ∀ b < kMaxSymbols, ∀ d, d.Directional → s'.SlotAgrees b d := by
  obtain ⟨s, hinit, hcheck⟩ : ∃ s, init 1 (fun _ => ⟨100, 100⟩) = .ok s ∧
      (decide (Run.EachStep TradingSystem.step Allowed s lateReject) &&
        returns (fun s' => decide (s'.trader.order 0 .buy = ⟨0, 2, .buy, 1, 10, .pendingNew⟩ ∧
          s'.responses = [])) (lateReject.foldlM TradingSystem.step s)) = true :=
    exists_of_returns (by decide +kernel)
  rw [Bool.and_eq_true] at hcheck
  obtain ⟨s', hrun, hslot⟩ := exists_of_returns hcheck.2
  obtain ⟨hslot, hheard⟩ := of_decide_eq_true hslot
  have hall := slots_agree (by decide) hinit (of_decide_eq_true hcheck.1)
  exact ⟨s, s', hinit, hrun, hslot, hheard, hall.of_foldlM hrun⟩

end TradingSystem

end Trading

end YQuant
