/-
# What a trade engine says and hears

The requests a trade engine sends and the responses it takes, in the order in which it does, are its
log.  Whatever the strategy asks for, however late requests and responses are, and whatever other
clients do, the log keeps to an order protocol (`Disciplined`): new orders are numbered from one on,
what is said about each order id follows `OrderSession.OrderStage.next`, a cancel names the order it
cancels and what is left of it, and a slot is filled only when all its earlier orders are over.

A slot knows at which stage its order is, and an order that has left its slot is over (`Recorded`).
The sessions of `TradingSystem.lean` say what can be heard of it.

* a new order is numbered with the next order id, and each id is used for one order;
* a cancel is sent once for an order, while it is live for the engine;
* a response that is heard is one that the stage of its order allows.

The result is about the log alone and mentions neither slots nor books, so it is what a third party
could check that reads the connection.  It is proved by carrying the stages along (`Recorded`),
which tie the log to the slots and the sessions.
-/
import YQuant.Lib.OrderConversation
import YQuant.Trading.TradingSystem

namespace YQuant

open OrderSession (Phase Ask Tell Session Said OrderStage)

namespace Trading

/-! ## 1. The log -/

/-- Something that the engine sends or takes. -/
inductive Traffic where
  | sent (request : MatchingEngineClientRequest)
  | heard (response : MatchingEngineClientResponse)
deriving DecidableEq, Repr

/-- What an entry says about one order id. -/
def Traffic.said? (symbolId orderId : Nat) : Traffic → Option Said
  | .sent r => if r.symbolId = symbolId ∧ r.orderId = orderId then r.ask?.map .asked else none
  | .heard x =>
    if x.symbolId = symbolId ∧ x.clientOrderId = orderId then x.tell?.map .told else none

def Traffic.entered? : Traffic → Option MatchingEngineClientRequest
  | .sent r => if r.type = .new then some r else none
  | .heard _ => none

/-- All that is said about one order id. -/
def saidOf (log : List Traffic) (symbolId orderId : Nat) : List Said :=
  log.filterMap (Traffic.said? symbolId orderId)

/-- The new orders. -/
def enteredOf (log : List Traffic) : List MatchingEngineClientRequest :=
  log.filterMap Traffic.entered?

/-- What a step of the system adds to the log. -/
def TradingSystem.traffic (s : TradingSystem) : TradingSystem.Event → List Traffic
  | .moveOrders tickerId bidPrice askPrice clip lossTooLarge =>
    match OrderManager.moveOrders s.trader tickerId bidPrice askPrice clip lossTooLarge with
    | .ok t =>
      (t.outgoingOgwRequests.drop s.trader.outgoingOgwRequests.length).map .sent
    | .error _ => []
  | .takeResponse => s.responses.head?.toList.map .heard
  | .takeRequest | .otherRequest _ => []

/-- The engine holds an order to be over: nothing of it can be filled any more. -/
def OverIn (log : List Traffic) (r : MatchingEngineClientRequest) : Prop :=
  OrderStage.after (saidOf log r.symbolId r.orderId) = some .late ∨
    OrderStage.after (saidOf log r.symbolId r.orderId) = some .settled

/-- What the requests of a log keep to. -/
structure Orderly (c : Nat) (log : List Traffic) : Prop where
  own : ∀ r, .sent r ∈ log → r.clientId = c ∧ r.Documented
  addressed : ∀ x, .heard x ∈ log → x.clientId = c
  /-- New orders are numbered from one on. -/
  numbered : (enteredOf log).map (·.orderId) = List.range' 1 (enteredOf log).length
  /-- When an order is entered, the earlier ones of its symbol and side are over. -/
  exclusive : ∀ before r, before ++ [.sent r] <+: log → r.type = .new →
    ∀ r' ∈ enteredOf before, r'.symbolId = r.symbolId → r'.side = r.side → OverIn before r'
  /-- A cancel repeats the order it cancels, with the quantity that is left of it. -/
  cancels : ∀ before r, before ++ [.sent r] <+: log → r.type = .canceled →
    OrderStage.after (saidOf before r.symbolId r.orderId) = some (.live r.quantity) ∧
      ∃ r' ∈ enteredOf before, r'.symbolId = r.symbolId ∧ r'.orderId = r.orderId ∧
        r'.side = r.side ∧ r'.price = r.price

/-- **The order protocol.** -/
structure Disciplined (c : Nat) (log : List Traffic) : Prop extends Orderly c log where
  /-- What is said about an order id is said in order. -/
  legal : ∀ b n, ∃ stage, OrderStage.after (saidOf log b n) = some stage

section Log

variable {log : List Traffic} {r : MatchingEngineClientRequest}
  {x : MatchingEngineClientResponse} {b n : Nat}

theorem saidOf_sent {a : Ask} (ha : r.ask? = some a) :
    saidOf (log ++ [.sent r]) r.symbolId r.orderId =
      saidOf log r.symbolId r.orderId ++ [.asked a] := by
  simp [saidOf, Traffic.said?, ha]

theorem saidOf_sent_of_ne (hne : ¬ (r.symbolId = b ∧ r.orderId = n)) :
    saidOf (log ++ [.sent r]) b n = saidOf log b n := by
  simp [saidOf, Traffic.said?, hne]

theorem saidOf_heard {t : Tell} (ht : x.tell? = some t) :
    saidOf (log ++ [.heard x]) x.symbolId x.clientOrderId =
      saidOf log x.symbolId x.clientOrderId ++ [.told t] := by
  simp [saidOf, Traffic.said?, ht]

theorem saidOf_heard_of_ne (hne : ¬ (x.symbolId = b ∧ x.clientOrderId = n)) :
    saidOf (log ++ [.heard x]) b n = saidOf log b n := by
  simp [saidOf, Traffic.said?, hne]

theorem saidOf_heard_of_none (hx : x.tell? = none) :
    saidOf (log ++ [.heard x]) b n = saidOf log b n := by
  simp [saidOf, Traffic.said?, hx]

@[simp] theorem enteredOf_heard : enteredOf (log ++ [.heard x]) = enteredOf log := by
  simp [enteredOf, Traffic.entered?]

theorem enteredOf_sent_new (htype : r.type = .new) :
    enteredOf (log ++ [.sent r]) = enteredOf log ++ [r] := by
  simp [enteredOf, Traffic.entered?, htype]

theorem enteredOf_sent_of_ne (htype : r.type ≠ .new) :
    enteredOf (log ++ [.sent r]) = enteredOf log := by
  simp [enteredOf, Traffic.entered?, htype]

/-- The last request of a log. -/
theorem prefix_sent {before : List Traffic} {e : Traffic} :
    before ++ [.sent r] <+: log ++ [e] ↔
      before = log ∧ .sent r = e ∨ before ++ [.sent r] <+: log := by
  rw [List.prefix_concat_iff]
  refine or_congr_left ?_
  constructor
  · intro heq
    obtain ⟨hlog, he⟩ := List.append_inj' heq rfl
    exact ⟨hlog, List.singleton_inj.mp he⟩
  · rintro ⟨rfl, rfl⟩
    rfl

end Log

namespace Orderly

variable {c : Nat} {log : List Traffic} {r : MatchingEngineClientRequest}
  {x : MatchingEngineClientResponse}

theorem nil : Orderly c [] where
  own _ hr := absurd hr List.not_mem_nil
  addressed _ hx := absurd hx List.not_mem_nil
  numbered := rfl
  exclusive before r hpre := by simp at hpre
  cancels before r hpre := by simp at hpre

theorem heard (h : Orderly c log) (hx : x.clientId = c) : Orderly c (log ++ [.heard x]) where
  own r hr := by
    rcases List.mem_append.mp hr with hr | hr
    · exact h.own r hr
    · cases List.mem_singleton.mp hr
  addressed y hy := by
    rcases List.mem_append.mp hy with hy | hy
    · exact h.addressed y hy
    · cases List.mem_singleton.mp hy
      exact hx
  numbered := by
    rw [enteredOf_heard]
    exact h.numbered
  exclusive before r hpre := by
    rcases prefix_sent.mp hpre with ⟨-, heq⟩ | hpre
    · cases heq
    · exact h.exclusive before r hpre
  cancels before r hpre := by
    rcases prefix_sent.mp hpre with ⟨-, heq⟩ | hpre
    · cases heq
    · exact h.cancels before r hpre

theorem entered (h : Orderly c log) (htype : r.type = .new)
    (hown : r.clientId = c ∧ r.Documented) (hid : r.orderId = (enteredOf log).length + 1)
    (hover : ∀ r' ∈ enteredOf log, r'.symbolId = r.symbolId → r'.side = r.side →
      OverIn log r') : Orderly c (log ++ [.sent r]) where
  own r' hr := by
    rcases List.mem_append.mp hr with hr | hr
    · exact h.own r' hr
    · cases List.mem_singleton.mp hr
      exact hown
  addressed y hy := by
    rcases List.mem_append.mp hy with hy | hy
    · exact h.addressed y hy
    · cases List.mem_singleton.mp hy
  numbered := by
    rw [enteredOf_sent_new htype, List.map_append, h.numbered, List.length_append,
      List.length_singleton, List.range'_concat, List.map_singleton, hid, Nat.one_mul,
      Nat.add_comm 1]
  exclusive before r' hpre htype' := by
    rcases prefix_sent.mp hpre with ⟨rfl, heq⟩ | hpre
    · cases heq
      exact hover
    · exact h.exclusive before r' hpre htype'
  cancels before r' hpre htype' := by
    rcases prefix_sent.mp hpre with ⟨-, heq⟩ | hpre
    · cases heq
      rw [htype] at htype'
      cases htype'
    · exact h.cancels before r' hpre htype'

theorem canceled (h : Orderly c log) (htype : r.type = .canceled)
    (hown : r.clientId = c ∧ r.Documented)
    (hlive : OrderStage.after (saidOf log r.symbolId r.orderId) = some (.live r.quantity))
    (horigin : ∃ r' ∈ enteredOf log, r'.symbolId = r.symbolId ∧ r'.orderId = r.orderId ∧
      r'.side = r.side ∧ r'.price = r.price) : Orderly c (log ++ [.sent r]) where
  own r' hr := by
    rcases List.mem_append.mp hr with hr | hr
    · exact h.own r' hr
    · cases List.mem_singleton.mp hr
      exact hown
  addressed y hy := by
    rcases List.mem_append.mp hy with hy | hy
    · exact h.addressed y hy
    · cases List.mem_singleton.mp hy
  numbered := by
    rw [enteredOf_sent_of_ne (by rw [htype]; decide)]
    exact h.numbered
  exclusive before r' hpre htype' := by
    rcases prefix_sent.mp hpre with ⟨-, heq⟩ | hpre
    · cases heq
      rw [htype] at htype'
      cases htype'
    · exact h.exclusive before r' hpre htype'
  cancels before r' hpre htype' := by
    rcases prefix_sent.mp hpre with ⟨rfl, heq⟩ | hpre
    · cases heq
      exact ⟨hlive, horigin⟩
    · exact h.cancels before r' hpre htype'

end Orderly

/-! ## 2. The slots know their stages -/

/-- The stage of an order id fits what the engine believes of the order and what is on the way. -/
def AtStage (c : Nat) (log : List Traffic) (t : TradeEngine)
    (responses : List MatchingEngineClientResponse) (b n : Nat) (phase : Phase) (quantity : Nat) :
    Prop :=
  ∃ stage, OrderStage.after (saidOf log b n) = some stage ∧
    stage.Agrees phase quantity (asksOf t.outgoingOgwRequests b n) (tellsOf responses b c n)

/-- **The log and the slots**: the order of a slot is at a stage that fits the slot, and every other
order at one that fits an order that is over. -/
structure Recorded (c : Nat) (log : List Traffic) (t : TradeEngine)
    (responses : List MatchingEngineClientResponse) : Prop where
  orderly : Orderly c log
  next : t.orderManager.nextOrderId = (enteredOf log).length + 1
  placed : ∀ b n d, t.Placed b n d →
    AtStage c log t responses b n (t.order b d).orderState.phase (t.order b d).qty
  unplaced : ∀ b n, (∀ d, ¬ t.Placed b n d) → AtStage c log t responses b n .finished 0
  fresh : ∀ b n, t.orderManager.nextOrderId ≤ n → saidOf log b n = []
  sides : ∀ r ∈ enteredOf log, ∀ d, t.Placed r.symbolId r.orderId d → r.side = d
  origin : ∀ b d, (t.order b d).orderState ≠ .invalid → ∃ r ∈ enteredOf log, r.symbolId = b ∧
    r.orderId = (t.order b d).orderId ∧ r.side = (t.order b d).side ∧
    r.price = (t.order b d).price

namespace Recorded

variable {c b n qty : Nat} {d : Side} {p : Int} {log : List Traffic} {t : TradeEngine}
  {responses : List MatchingEngineClientResponse} {xs : IndexedBooks}
  {r : MatchingEngineClientRequest} {x : MatchingEngineClientResponse}

theorem init (hcfg : Nat → RiskCfg) : Recorded c [] (.init c hcfg) [] where
  orderly := .nil
  next := rfl
  placed _ _ _ h := absurd rfl h.1
  unplaced _ _ _ := ⟨_, rfl, .unborn⟩
  fresh _ _ _ := rfl
  sides _ hr := absurd hr List.not_mem_nil
  origin _ _ h := absurd rfl h

theorem disciplined (h : Recorded c log t responses) : Disciplined c log where
  toOrderly := h.orderly
  legal b n := by
    by_cases hp : ∃ d, t.Placed b n d
    · obtain ⟨d, hp⟩ := hp
      obtain ⟨stage, hstage, -⟩ := h.placed b n d hp
      exact ⟨stage, hstage⟩
    · obtain ⟨stage, hstage, -⟩ := h.unplaced b n fun d hd => hp ⟨d, hd⟩
      exact ⟨stage, hstage⟩

/-- The positions are no part of the log. -/
theorem withPositions (h : Recorded c log t responses) (positions : Nat → PositionInfo) :
    Recorded c log { t with tickerPosition := positions } responses :=
  ⟨h.orderly, h.next, h.placed, h.unplaced, h.fresh, h.sides, h.origin⟩

/-- An order that has been entered is not unborn. -/
theorem after_ne_unborn (hr : r ∈ enteredOf log) :
    OrderStage.after (saidOf log r.symbolId r.orderId) ≠ some .unborn := by
  intro hborn
  obtain ⟨e, he, hentered⟩ := List.mem_filterMap.mp hr
  have hsaid : .asked (.enter r.quantity) ∈ saidOf log r.symbolId r.orderId := by
    refine List.mem_filterMap.mpr ⟨e, he, ?_⟩
    cases e with
    | heard x => cases hentered
    | sent r' =>
      unfold Traffic.entered? at hentered
      dsimp only at hentered
      split at hentered
      · next htype =>
        cases hentered
        simp [Traffic.said?, MatchingEngineClientRequest.ask?, htype]
      · cases hentered
  rw [OrderStage.eq_nil_of_unborn hborn] at hsaid
  cases hsaid

/-- When a slot is empty or dead, all orders that were in it are over. -/
theorem all_settled (h : Recorded c log t responses)
    (hempty : (t.order b d).orderState = .invalid ∨ (t.order b d).orderState = .dead) :
    ∀ r ∈ enteredOf log, r.symbolId = b → r.side = d → OverIn log r := by
  rintro r hr rfl rfl
  have hborn := after_ne_unborn hr
  have hfinished : ∃ q, AtStage c log t responses r.symbolId r.orderId .finished q := by
    by_cases hp : ∃ d, t.Placed r.symbolId r.orderId d
    · obtain ⟨d, hp⟩ := hp
      obtain rfl := h.sides r hr d hp
      have hstage := h.placed _ _ _ hp
      rw [hempty.resolve_left hp.1] at hstage
      exact ⟨_, hstage⟩
    · exact ⟨0, h.unplaced _ _ fun d hd => hp ⟨d, hd⟩⟩
  obtain ⟨q, stage, hstage, hagrees⟩ := hfinished
  rcases hagrees.eq_of_finished with rfl | rfl | rfl
  · exact absurd hstage hborn
  · exact .inl hstage
  · exact .inr hstage

/-! ### What is on the way -/

/-- **The log does not see what is on the way**, as long as nothing new comes to be about an order
that is over. -/
theorem onTheWay {t' : TradeEngine} {responses' : List MatchingEngineClientResponse}
    (h : Recorded c log t responses) (hl : Linked c t responses xs)
    (horders : t'.orderManager = t.orderManager)
    (hquiet : ∀ b n, asksOf t.outgoingOgwRequests b n = [] → tellsOf responses b c n = [] →
      xs.working b c n = 0 → asksOf t'.outgoingOgwRequests b n = [] ∧
        tellsOf responses' b c n = []) : Recorded c log t' responses' := by
  have horder {b : Nat} {d : Side} : t'.order b d = t.order b d := by
    rw [TradeEngine.order, TradeEngine.order, horders]
  have hplaced {b n : Nat} {d : Side} : t'.Placed b n d ↔ t.Placed b n d := by
    rw [TradeEngine.Placed, TradeEngine.Placed, horder]
  have hstage {b n q : Nat} {phase : Phase} (hold : AtStage c log t responses b n phase q)
      (hsession : InSession c t responses xs b n phase q) :
      AtStage c log t' responses' b n phase q := by
    obtain ⟨stage, hsaid, hagrees⟩ := hold
    refine ⟨stage, hsaid, hagrees.onTheWay fun hphase hasks htells => ?_⟩
    rw [hphase] at hsession
    exact hquiet b n hasks htells hsession.eq_of_over.1
  refine ⟨h.orderly, by rw [horders, h.next], fun b n d hp => ?_, fun b n hp => ?_, fun b n hn =>
    ?_,
    fun r hr d hp => h.sides r hr d (hplaced.mp hp), fun b d hstate => ?_⟩
  · rw [horder]
    exact hstage (h.placed b n d (hplaced.mp hp)) (hl.placed b n d (hplaced.mp hp))
  · have hp' := fun d hd => hp d (hplaced.mpr hd)
    exact hstage (h.unplaced b n hp') (hl.unplaced b n hp')
  · rw [horders] at hn
    exact h.fresh b n hn
  · rw [horder] at hstate ⊢
    exact h.origin b d hstate

/-! ### The client -/

end Recorded

section AtStage

variable {c b n q : Nat} {phase : Phase} {log : List Traffic} {t t' : TradeEngine}
  {responses : List MatchingEngineClientResponse} {r : MatchingEngineClientRequest}

/-- A request about another order. -/
theorem AtStage.sent_other (h : AtStage c log t responses b n phase q)
    (hqueue : t'.outgoingOgwRequests = t.outgoingOgwRequests ++ [r])
    (hne : ¬ (r.symbolId = b ∧ r.orderId = n)) :
    AtStage c (log ++ [.sent r]) t' responses b n phase q := by
  unfold AtStage
  rw [saidOf_sent_of_ne hne, hqueue, asksOf_append, asksOf_cons_of_ne hne]
  have hnone : asksOf [] b n = [] := rfl
  rw [hnone, List.append_nil]
  exact h

/-- The order that a request is about. -/
theorem AtStage.sent_own {a : Ask} {stage stage' : OrderStage}
    (hsaid : OrderStage.after (saidOf log r.symbolId r.orderId) = some stage)
    (hqueue : t'.outgoingOgwRequests = t.outgoingOgwRequests ++ [r]) (hask : r.ask? = some a)
    (hnext : stage.next (.asked a) = some stage')
    (hagrees : stage'.Agrees phase q (asksOf t.outgoingOgwRequests r.symbolId r.orderId ++ [a])
      (tellsOf responses r.symbolId c r.orderId)) :
    AtStage c (log ++ [.sent r]) t' responses r.symbolId r.orderId phase q := by
  refine ⟨stage', ?_, ?_⟩
  · rw [saidOf_sent hask, OrderStage.after_concat hsaid, hnext]
  · rw [hqueue, asksOf_append, asksOf_cons_self hask]
    exact hagrees

end AtStage

namespace Recorded

variable {c b n qty : Nat} {d : Side} {p : Int} {log : List Traffic} {t : TradeEngine}
  {responses : List MatchingEngineClientResponse} {xs : IndexedBooks}

/-- A live order is cancelled. -/
theorem cancelOrder (h : Recorded c log t responses) (ht : TradeEngine.Inv c t)
    (hc : c < kMaxNumClients) (hlive : (t.order b d).orderState = .live) :
    ∃ r, (OrderManager.cancelOrder t b d).outgoingOgwRequests = t.outgoingOgwRequests ++ [r] ∧
      Recorded c (log ++ [.sent r]) (OrderManager.cancelOrder t b d) responses := by
  have hstate : (t.order b d).orderState ≠ .invalid := by
    rw [hlive]
    decide
  have hself : t.Placed b (t.order b d).orderId d := ⟨hstate, rfl⟩
  obtain ⟨-, -, htick, -⟩ := ht.slots b d hstate
  have hplaced {b' n : Nat} {d' : Side} :
      (OrderManager.cancelOrder t b d).Placed b' n d' ↔ t.Placed b' n d' :=
    TradeEngine.placed_cancelOrder hlive
  obtain ⟨r, hr⟩ : ∃ r : MatchingEngineClientRequest, r = ⟨.canceled, t.clientId,
      (t.order b d).tickerId, (t.order b d).orderId, (t.order b d).side, (t.order b d).price,
      (t.order b d).qty⟩ := ⟨_, rfl⟩
  have hqueue : (OrderManager.cancelOrder t b d).outgoingOgwRequests =
      t.outgoingOgwRequests ++ [r] := by
    rw [hr]
    rfl
  have htype : r.type = .canceled := by rw [hr]
  have hask : r.ask? = some .cancel := by rw [MatchingEngineClientRequest.ask?, htype]
  have hsymbol : r.symbolId = b := by rw [hr, htick]
  have hid : r.orderId = (t.order b d).orderId := by rw [hr]
  have hown : r.clientId = c ∧ r.Documented := by
    refine (ht.cancelOrder hc hlive).requests r ?_
    rw [hqueue]
    exact List.mem_append_right _ List.mem_cons_self
  have hstage : AtStage c log t responses r.symbolId r.orderId .live (t.order b d).qty := by
    have hold := h.placed b _ d hself
    rw [hlive] at hold
    rwa [hsymbol, hid]
  obtain ⟨stage, hsaid, hagrees⟩ := hstage
  obtain ⟨stage', hnext, hagrees'⟩ := hagrees.cancel
  have hentered : enteredOf (log ++ [.sent r]) = enteredOf log :=
    enteredOf_sent_of_ne (by rw [htype]; decide)
  -- the order of the slot is the only one that the cancel is about
  have hother {b' n : Nat} {d' : Side} (hp : t.Placed b' n d') (hne : ¬ (b' = b ∧ d' = d)) :
      ¬ (r.symbolId = b' ∧ r.orderId = n) := by
    rw [hsymbol, hid]
    rintro ⟨rfl, rfl⟩
    exact hne ⟨rfl, ht.distinct _ _ _ _ hp hself⟩
  refine ⟨r, hqueue, ?_, ?_, fun b' n d' hp => ?_, fun b' n hp => ?_, fun b' n hn => ?_,
    fun r' hr' d' hp => ?_, fun b' d' hstate' => ?_⟩
  · refine h.orderly.canceled htype hown ?_ ?_
    · rw [hsaid, hagrees.eq_of_live, hr]
    · obtain ⟨r', hr', hsymbol', hid', hside, hprice⟩ := h.origin b d hstate
      refine ⟨r', hr', hsymbol'.trans hsymbol.symm, hid'.trans hid.symm, ?_, ?_⟩
      · rw [hside, hr]
      · rw [hprice, hr]
  · rw [hentered]
    exact h.next
  · have hp' := hplaced.mp hp
    rw [TradeEngine.order_cancelOrder]
    split
    · next heq =>
      obtain ⟨rfl, rfl⟩ := heq
      obtain ⟨-, rfl⟩ := hp'
      have hnew := AtStage.sent_own hsaid hqueue hask hnext hagrees'
      rwa [hsymbol, hid] at hnew
    · next hne => exact (h.placed b' n d' hp').sent_other hqueue (hother hp' hne)
  · refine (h.unplaced b' n fun d' hp' => hp d' (hplaced.mpr hp')).sent_other hqueue ?_
    rw [hsymbol, hid]
    rintro ⟨rfl, rfl⟩
    exact hp d (hplaced.mpr hself)
  · rw [saidOf_sent_of_ne]
    · exact h.fresh b' n hn
    · rw [hid]
      rintro ⟨-, rfl⟩
      exact Nat.not_lt.mpr hn (ht.placed_lt hself)
  · rw [hentered] at hr'
    exact h.sides r' hr' d' (hplaced.mp hp)
  · have hp' := hplaced.mp ⟨hstate', rfl⟩
    obtain ⟨r', hr', hfields⟩ := h.origin b' d' hp'.1
    refine ⟨r', hentered ▸ hr', ?_⟩
    rw [TradeEngine.order_cancelOrder]
    split
    · next heq =>
      obtain ⟨rfl, rfl⟩ := heq
      exact hfields
    · exact hfields

/-- A new order fills a slot. -/
theorem entered (h : Recorded c log t responses) (ht : TradeEngine.Inv c t)
    (hc : c < kMaxNumClients) (hb : b < kMaxSymbols) (hd : d.Directional)
    (hp : kDefaultPriceBand.InBand p) (hqty : 0 < qty)
    (hnext : t.orderManager.nextOrderId < kMaxOrderIds)
    (hempty : (t.order b d).orderState = .invalid ∨ (t.order b d).orderState = .dead) :
    ∃ r, (OrderManager.entered t b p d qty).outgoingOgwRequests =
        t.outgoingOgwRequests ++ [r] ∧
      Recorded c (log ++ [.sent r]) (OrderManager.entered t b p d qty) responses := by
  have hplaced {b' n : Nat} {d' : Side} :
      (OrderManager.entered t b p d qty).Placed b' n d' ↔
        (b' = b ∧ d' = d) ∧ n = t.orderManager.nextOrderId ∨
          ¬ (b' = b ∧ d' = d) ∧ t.Placed b' n d' := TradeEngine.placed_entered
  obtain ⟨r, hr⟩ : ∃ r : MatchingEngineClientRequest, r = ⟨.new, t.clientId, b,
    t.orderManager.nextOrderId, d, p, qty⟩ := ⟨_, rfl⟩
  have hqueue : (OrderManager.entered t b p d qty).outgoingOgwRequests =
      t.outgoingOgwRequests ++ [r] := by
    rw [hr]
    rfl
  have htype : r.type = .new := by rw [hr]
  have hask : r.ask? = some (.enter qty) := by rw [MatchingEngineClientRequest.ask?, hr]
  have hsymbol : r.symbolId = b := by rw [hr]
  have hid : r.orderId = t.orderManager.nextOrderId := by rw [hr]
  have hside : r.side = d := by rw [hr]
  have hown : r.clientId = c ∧ r.Documented := by
    refine (ht.entered hc hb hd hp hqty hnext).requests r ?_
    rw [hqueue]
    exact List.mem_append_right _ List.mem_cons_self
  have hentered : enteredOf (log ++ [.sent r]) = enteredOf log ++ [r] := enteredOf_sent_new htype
  -- nothing has been said about the order before
  have hunborn : OrderStage.after (saidOf log r.symbolId r.orderId) = some .unborn := by
    rw [h.fresh _ _ hid.ge]
    rfl
  have hborn : AtStage c (log ++ [.sent r]) (OrderManager.entered t b p d qty) responses r.symbolId
      r.orderId .pendingNew qty :=
    AtStage.sent_own hunborn hqueue hask (if_pos hqty) .entering
  have hother {b' n : Nat} (hn : n < t.orderManager.nextOrderId) :
      ¬ (r.symbolId = b' ∧ r.orderId = n) := by
    rw [hid]
    rintro ⟨-, rfl⟩
    exact Nat.lt_irrefl _ hn
  refine ⟨r, hqueue, ?_, ?_, fun b' n d' hp => ?_, fun b' n hp => ?_, fun b' n hn => ?_,
    fun r' hr' d' hp => ?_, fun b' d' hstate' => ?_⟩
  · refine h.orderly.entered htype hown (hid.trans h.next) fun r' hr' hsymbol' hside' => ?_
    exact h.all_settled hempty r' hr' (hsymbol'.trans hsymbol) (hside'.trans hside)
  · have hsucc : (OrderManager.entered t b p d qty).orderManager.nextOrderId =
        t.orderManager.nextOrderId + 1 := rfl
    rw [hsucc, hentered, List.length_append, List.length_singleton, h.next]
  · rw [TradeEngine.order_entered]
    rcases hplaced.mp hp with ⟨heq, rfl⟩ | ⟨hne, hp'⟩
    · rw [if_pos heq, heq.1]
      rwa [hsymbol, hid] at hborn
    · rw [if_neg hne]
      exact (h.placed b' n d' hp').sent_other hqueue (hother (ht.placed_lt hp'))
  · by_cases hold : ∃ d', t.Placed b' n d'
    · obtain ⟨d', hp'⟩ := hold
      -- the order was in the slot that is filled, and dead
      have heq : b' = b ∧ d' = d := by
        by_contra hne
        exact hp d' (hplaced.mpr (.inr ⟨hne, hp'⟩))
      obtain ⟨rfl, rfl⟩ := heq
      have hdead := h.placed b' n d' hp'
      rw [hempty.resolve_left hp'.1] at hdead
      obtain ⟨stage, hsaid, hagrees⟩ := hdead
      exact AtStage.sent_other ⟨stage, hsaid, hagrees.forget⟩ hqueue (hother (ht.placed_lt hp'))
    · refine (h.unplaced b' n fun d' hp' => hold ⟨d', hp'⟩).sent_other hqueue ?_
      rw [hsymbol, hid]
      rintro ⟨rfl, rfl⟩
      exact hp d (hplaced.mpr (.inl ⟨⟨rfl, rfl⟩, rfl⟩))
  · have hn' : t.orderManager.nextOrderId < n := hn
    rw [saidOf_sent_of_ne]
    · exact h.fresh b' n hn'.le
    · rw [hid]
      rintro ⟨-, rfl⟩
      exact Nat.lt_irrefl _ hn'
  · rw [hentered] at hr'
    rcases List.mem_append.mp hr' with hr' | hr'
    · rcases hplaced.mp hp with ⟨-, hid'⟩ | ⟨-, hp'⟩
      · refine absurd ?_ (after_ne_unborn hr')
        rw [h.fresh _ _ hid'.ge]
        rfl
      · exact h.sides r' hr' d' hp'
    · obtain rfl := List.mem_singleton.mp hr'
      rcases hplaced.mp hp with ⟨⟨-, rfl⟩, -⟩ | ⟨-, hp'⟩
      · exact hside
      · exact absurd ⟨rfl, rfl⟩ (hother (ht.placed_lt hp'))
  · rw [TradeEngine.order_entered] at hstate' ⊢
    split
    · next heq =>
      refine ⟨r, hentered ▸ List.mem_append_right _ List.mem_cons_self, ?_⟩
      rw [hr]
      exact ⟨heq.1.symm, rfl, rfl, rfl⟩
    · next hne =>
      rw [if_neg hne] at hstate'
      obtain ⟨r', hr', hfields⟩ := h.origin b' d' hstate'
      exact ⟨r', hentered ▸ List.mem_append_left _ hr', hfields⟩

/-- One slot is moved. -/
theorem moveOrder {price : Option Int} {lossTooLarge : Bool} {t' : TradeEngine}
    (h : Recorded c log t responses) (ht : TradeEngine.Inv c t) (hc : c < kMaxNumClients)
    (hb : b < kMaxSymbols) (hd : d.Directional)
    (hprice : ∀ p ∈ price, kDefaultPriceBand.InBand p)
    (hmove : OrderManager.moveOrder t b price d qty lossTooLarge = .ok t') :
    ∃ rs, t'.outgoingOgwRequests = t.outgoingOgwRequests ++ rs ∧
      Recorded c (log ++ rs.map .sent) t' responses := by
  cases OrderManager.moveOrder_cases hmove with
  | kept =>
    refine ⟨[], (List.append_nil _).symm, ?_⟩
    rw [List.map_nil, List.append_nil]
    exact h
  | canceled hlive =>
    obtain ⟨r, hqueue, hrecorded⟩ := h.cancelOrder ht hc hlive
    exact ⟨[r], hqueue, hrecorded⟩
  | @entered p hempty hp hid hallowed =>
    obtain ⟨hqty, -⟩ := TradeEngine.checkPreTradeRisk_allowed hallowed
    obtain ⟨r, hqueue, hrecorded⟩ := h.entered ht hc hb hd (hprice p hp) hqty hid hempty
    exact ⟨[r], hqueue, hrecorded⟩

end Recorded

/-! ### Responses -/

section Hear

variable {c b n q : Nat} {d : Side} {phase : Phase} {log : List Traffic} {t t' : TradeEngine}
  {responses : List MatchingEngineClientResponse} {x : MatchingEngineClientResponse} {tell : Tell}
  {xs : IndexedBooks}

/-- A response to another order. -/
theorem AtStage.heard_other (h : AtStage c log t (x :: responses) b n phase q)
    (hne : ¬ (b = x.symbolId ∧ n = x.clientOrderId)) :
    AtStage c (log ++ [.heard x]) t responses b n phase q := by
  unfold AtStage at h ⊢
  rw [Linked.tellsOf_other hne] at h
  rwa [saidOf_heard_of_ne fun hkey => hne ⟨hkey.1.symm, hkey.2.symm⟩]

/-- A response that tells nothing. -/
theorem AtStage.heard_nothing (h : AtStage c log t (x :: responses) b n phase q)
    (htell : x.tell? = none) : AtStage c (log ++ [.heard x]) t responses b n phase q := by
  unfold AtStage at h ⊢
  rw [tellsOf_cons_of_none htell] at h
  rwa [saidOf_heard_of_none htell]

/-- The order that a response is about. -/
theorem AtStage.heard_own (h : AtStage c log t (x :: responses) x.symbolId x.clientOrderId phase q)
    (hsession : InSession c t (x :: responses) xs x.symbolId x.clientOrderId phase q)
    (hl : Linked c t (x :: responses) xs) (htell : x.tell? = some tell) :
    AtStage c (log ++ [.heard x]) t responses x.symbolId x.clientOrderId
      (OrderSession.hear phase q tell).1 (OrderSession.hear phase q tell).2 := by
  obtain ⟨stage, hsaid, hagrees⟩ := h
  unfold InSession at hsession
  rw [hl.tellsOf_self htell] at hagrees hsession
  obtain ⟨stage', hnext, hagrees'⟩ := hagrees.told hsession
  refine ⟨stage', ?_, hagrees'⟩
  rw [saidOf_heard htell, OrderStage.after_concat hsaid, hnext]

theorem OMOrder.update_price (o : OMOrder) (r : MatchingEngineClientResponse) :
    (o.update r).price = o.price := by
  unfold OMOrder.update
  cases r.type with
  | filled =>
    dsimp only
    split <;> rfl
  | _ => rfl

namespace Recorded

/-- No order is entered by a response. -/
theorem fresh_heard (h : Recorded c log t (x :: responses)) (hl : Linked c t (x :: responses) xs)
    (hn : t.orderManager.nextOrderId ≤ n) : saidOf (log ++ [.heard x]) b n = [] := by
  cases htell : x.tell? with
  | none =>
    rw [saidOf_heard_of_none htell]
    exact h.fresh b n hn
  | some tell =>
    rw [saidOf_heard_of_ne]
    · exact h.fresh b n hn
    · rintro ⟨rfl, rfl⟩
      obtain ⟨-, htells, -⟩ := hl.fresh x.symbolId x.clientOrderId hn
      rw [hl.tellsOf_self htell] at htells
      cases htells

/-- A response that leaves the slots as they are. -/
theorem hear_same (h : Recorded c log t (x :: responses)) (hl : Linked c t (x :: responses) xs)
    (hall : x.tell? = none ∨ ∀ d, ¬ t.Placed x.symbolId x.clientOrderId d) :
    Recorded c (log ++ [.heard x]) t responses := by
  refine ⟨h.orderly.heard (hl.filled x List.mem_cons_self).1, ?_, fun b n d hp => ?_,
    fun b n hp => ?_, fun b n hn => h.fresh_heard hl hn, fun r hr => ?_, fun b d hstate => ?_⟩
  · rw [enteredOf_heard]
    exact h.next
  · have hold := h.placed b n d hp
    rcases hall with htell | hall
    · exact hold.heard_nothing htell
    · refine hold.heard_other ?_
      rintro ⟨rfl, rfl⟩
      exact hall d hp
  · have hold := h.unplaced b n hp
    cases htell : x.tell? with
    | none => exact hold.heard_nothing htell
    | some tell =>
      by_cases heq : b = x.symbolId ∧ n = x.clientOrderId
      · obtain ⟨rfl, rfl⟩ := heq
        have hsession := hl.unplaced _ _ hp
        have hheard := hold.heard_own hsession hl htell
        unfold InSession at hsession
        rw [hl.tellsOf_self htell] at hsession
        rwa [hsession.hear_over] at hheard
      · exact hold.heard_other heq
  · rw [enteredOf_heard] at hr
    exact h.sides r hr
  · rw [enteredOf_heard]
    exact h.origin b d hstate

/-- A response for the order of a slot. -/
theorem hear_placed (h : Recorded c log t (x :: responses)) (hl : Linked c t (x :: responses) xs)
    (ht : TradeEngine.Inv c t) (htell : x.tell? = some tell)
    (hplaced : t.Placed x.symbolId x.clientOrderId d) :
    Recorded c (log ++ [.heard x]) (t.setOrder x.symbolId d ((t.order x.symbolId d).update x))
      responses := by
  obtain ⟨hid, -, hside, hvalid⟩ := (t.order x.symbolId d).update_frame x
  have hsame {b n : Nat} {d' : Side} :
      (t.setOrder x.symbolId d ((t.order x.symbolId d).update x)).Placed b n d' ↔
        t.Placed b n d' :=
    TradeEngine.placed_setOrder hid hplaced.1 (hvalid hplaced.1)
  refine ⟨h.orderly.heard (hl.filled x List.mem_cons_self).1, ?_, fun b n d' hp => ?_,
    fun b n hp => ?_, fun b n hn => h.fresh_heard hl hn, fun r hr d' hp => ?_, fun b d' hstate =>
      ?_⟩
  · rw [enteredOf_heard]
    exact h.next
  · have hp' := hsame.mp hp
    have hold := h.placed b n d' hp'
    rw [TradeEngine.order_setOrder]
    by_cases heq : b = x.symbolId ∧ n = x.clientOrderId
    · obtain ⟨rfl, rfl⟩ := heq
      obtain rfl := ht.distinct _ _ _ _ hp' hplaced
      have hheard := hold.heard_own (hl.placed _ _ _ hp') hl htell
      rw [OMOrder.update_hear _ htell] at hheard
      rw [if_pos ⟨rfl, rfl⟩]
      exact hheard
    · rw [if_neg]
      · exact hold.heard_other heq
      · rintro ⟨rfl, rfl⟩
        exact heq ⟨rfl, hp'.2.symm.trans hplaced.2⟩
  · refine (h.unplaced b n fun d' hp' => hp d' (hsame.mpr hp')).heard_other ?_
    rintro ⟨rfl, rfl⟩
    exact hp d (hsame.mpr hplaced)
  · rw [enteredOf_heard] at hr
    exact h.sides r hr d' (hsame.mp hp)
  · have hp' := hsame.mp ⟨hstate, rfl⟩
    rw [enteredOf_heard]
    obtain ⟨r, hr, hfields⟩ := h.origin b d' hp'.1
    refine ⟨r, hr, ?_⟩
    rw [TradeEngine.order_setOrder]
    split
    · next heq =>
      obtain ⟨rfl, rfl⟩ := heq
      rw [hid, hside, OMOrder.update_price]
      exact hfields
    · exact hfields

/-- **The order manager hears a response.** -/
theorem hear (h : Recorded c log t (x :: responses)) (hl : Linked c t (x :: responses) xs)
    (ht : TradeEngine.Inv c t) (hupdate : OrderManager.onOrderUpdate t x = .ok t') :
    Recorded c (log ++ [.heard x]) t' responses := by
  rcases OrderManager.onOrderUpdate_cases hupdate with ⟨rfl, hnone⟩ | ⟨d, hfind, rfl⟩
  · refine h.hear_same hl ?_
    rcases hnone with htype | hnone
    · left
      rw [MatchingEngineClientResponse.tell?, htype]
    · exact .inr ((Linked.candidate_none_iff ht).mp hnone)
  · cases htell : x.tell? with
    | none =>
      have heq : t.setOrder x.symbolId d ((t.order x.symbolId d).update x) = t := by
        rw [OMOrder.update_of_tell?_none _ htell]
        simp [TradeEngine.setOrder, TradeEngine.order]
      rw [heq]
      exact h.hear_same hl (.inl htell)
    | some tell =>
      obtain ⟨-, hplaced⟩ := OrderManager.candidate_some hfind
      exact h.hear_placed hl ht htell hplaced

end Recorded

end Hear

/-! ### Requests at the exchange -/

/-- **The exchange takes a request.**  One of the engine has been on its way. -/
theorem Recorded.request {c : Nat} {log : List Traffic} {t t' : TradeEngine}
    {responses : List MatchingEngineClientResponse} {r : MatchingEngineClientRequest}
    {xs : IndexedBooks} (h : Recorded c log t responses) (hl : Linked c t responses xs)
    (hinv : xs.Inv) (hcomplete : xs.CompleteFor c) (hdoc : r.Documented)
    (horders : t'.orderManager = t.orderManager)
    (hasks : ∀ b n, asksOf t.outgoingOgwRequests b n = [] →
      ¬ (b = r.symbolId ∧ r.clientId = c ∧ r.orderId = n) ∧
        asksOf t'.outgoingOgwRequests b n = []) :
    Recorded c log t' (responses ++ (xs.responses r).filter fun x => x.clientId = c) := by
  refine h.onTheWay hl horders fun b n hnone htells hworking => ?_
  obtain ⟨hother, hnone'⟩ := hasks b n hnone
  have hfills := IndexedBooks.fills_of_other hinv hcomplete hdoc hother
  rw [hworking] at hfills
  rw [tellsOf_append, tellsOf_filter, htells, hfills.of_zero.1]
  exact ⟨hnone', rfl⟩

/-! ## 3. Runs -/

namespace TradingSystem

variable {c : Nat} {s s' : TradingSystem} {log : List Traffic}

/-- **Every step keeps the log and the slots together.** -/
theorem Synced.recorded {xs : IndexedBooks} {e : Event} (h : Synced c s xs)
    (hc : c < kMaxNumClients) (hlog : Recorded c log s.trader s.responses) (he : s.Allowed e)
    (hstep : s.step e = .ok s') : Recorded c (log ++ s.traffic e) s'.trader s'.responses := by
  have hinv := h.simulates.inv
  cases e with
  | moveOrders b bid ask clip lossTooLarge =>
    obtain ⟨t, hmoves, hs'⟩ := bind_ok hstep
    cases hs'
    unfold traffic
    dsimp only
    rw [hmoves]
    dsimp only
    obtain ⟨u, hticker, hmoves⟩ := bind_ok hmoves
    obtain ⟨t₁, hbid, hask⟩ := bind_ok hmoves
    have hb := TradeEngine.checkTicker_ok hticker
    have h₁ := h.moveOrder hc hb (.inl rfl) he.1 hbid
    obtain ⟨rs₁, hqueue₁, hlog₁⟩ := hlog.moveOrder h.trader hc hb (.inl rfl) he.1 hbid
    obtain ⟨rs₂, hqueue₂, hlog₂⟩ := hlog₁.moveOrder h₁.trader hc hb (.inr rfl) he.2 hask
    rw [hqueue₂, hqueue₁, List.append_assoc, List.drop_left, List.map_append, ← List.append_assoc]
    exact hlog₂
  | takeRequest =>
    unfold traffic
    rw [List.append_nil]
    unfold TradingSystem.step at hstep
    cases hqueue : s.trader.outgoingOgwRequests with
    | nil =>
      rw [hqueue] at hstep
      cases hstep
      exact hlog
    | cons r rest =>
      rw [hqueue] at hstep
      obtain ⟨hclient, hdoc⟩ := h.trader.requests r (hqueue ▸ List.mem_cons_self)
      obtain ⟨engine, -, -, rfl⟩ :=
        process_cases (s := { s with trader := s.trader.dropRequest }) h.simulates hdoc hstep
      dsimp only
      have hclient' : s.trader.dropRequest.clientId = c := h.trader.client
      rw [hclient']
      refine hlog.request h.linked hinv h.complete hdoc rfl fun b n hnone => ?_
      obtain ⟨a, ha⟩ := hdoc.ask
      have hne : ¬ (r.symbolId = b ∧ r.orderId = n) := by
        rintro ⟨rfl, rfl⟩
        rw [hqueue, asksOf_cons_self ha] at hnone
        cases hnone
      rw [hqueue, asksOf_cons_of_ne hne] at hnone
      refine ⟨fun hkey => hne ⟨hkey.1.symm, hkey.2.2⟩, ?_⟩
      rw [TradeEngine.dropRequest, hqueue, List.tail_cons]
      exact hnone
  | otherRequest r =>
    obtain ⟨hdoc, hother⟩ := he
    obtain ⟨engine, -, -, rfl⟩ := process_cases h.simulates hdoc hstep
    unfold traffic
    rw [List.append_nil]
    dsimp only
    rw [h.trader.client] at hother ⊢
    exact hlog.request h.linked hinv h.complete hdoc rfl fun b n hnone =>
      ⟨fun hkey => hother hkey.2.1, hnone⟩
  | takeResponse =>
    unfold TradingSystem.step at hstep
    cases hqueue : s.responses with
    | nil =>
      rw [hqueue] at hstep
      cases hstep
      have hnone : s.traffic .takeResponse = [] := by
        rw [traffic, hqueue]
        rfl
      rw [hnone, List.append_nil]
      exact hlog
    | cons x rest =>
      rw [hqueue] at hstep
      obtain ⟨t, hupdate, hs'⟩ := bind_ok hstep
      cases hs'
      have hheard : s.traffic .takeResponse = [.heard x] := by
        rw [traffic, hqueue]
        rfl
      have h' := h.withPositions (positionsAfter s.trader x)
      have hlinked := h'.linked
      dsimp only at hlinked
      rw [hqueue] at hlog hlinked
      rw [hheard]
      exact (hlog.withPositions _).hear hlinked h'.trader (onOrderUpdate_cases hupdate)

/-- **The engine keeps to the order protocol**, in every run: whatever prices of the band the
strategy asks for, its log is disciplined.  What is said about an order id is said in the states of
its session, each of which allows one more word of the automaton (`Agrees.told`); and a slot is
filled only from a state that is over, so the ids of a slot come one after the other.  The log says
nothing about when a response comes, nor that it does. -/
theorem keeps_protocol {riskCfg : Nat → RiskCfg} (hc : c < kMaxNumClients)
    (hinit : init c riskCfg = .ok s) {events : List Event}
    (hallowed : Run.EachStep TradingSystem.step Allowed s events)
    (hrun : events.foldlM TradingSystem.step s = .ok s') :
    Disciplined c (Run.emitted TradingSystem.step traffic s events) := by
  obtain ⟨hsynced, -, htrader, hresponses⟩ := init_synced hinit
  have hstart : (∃ xs, Synced c s xs) ∧ Recorded c [] s.trader s.responses := by
    rw [htrader, hresponses]
    exact ⟨⟨_, hsynced⟩, .init riskCfg⟩
  have hend : (∃ xs, Synced c s' xs) ∧ Recorded c
      ([] ++ Run.emitted TradingSystem.step traffic s events) s'.trader s'.responses :=
    Run.EachStep.emitted_inv
      (I := fun log s => (∃ xs, Synced c s xs) ∧ Recorded c log s.trader s.responses)
      (fun log s e s' ⟨⟨xs, h⟩, hlog⟩ he hstep =>
        ⟨h.step hc he hstep, h.recorded hc hlog he hstep⟩) hstart hallowed hrun
  exact hend.2.disciplined

/-- A cancel that comes too late is answered after the last fill. -/
theorem keeps_protocol_late_reject : ∃ s s' log, init 1 (fun _ => ⟨100, 100⟩) = .ok s ∧
    lateReject.foldlM TradingSystem.step s = .ok s' ∧
    log = Run.emitted TradingSystem.step traffic s lateReject ∧
    saidOf log 0 1 = [.asked (.enter 10), .told .accepted, .asked .cancel, .told (.filled 10 0),
      .told .rejected] ∧
    saidOf log 0 2 = [.asked (.enter 10)] ∧ Disciplined 1 log := by
  obtain ⟨s, hinit, hcheck⟩ : ∃ s, init 1 (fun _ => ⟨100, 100⟩) = .ok s ∧
      (decide (Run.EachStep TradingSystem.step Allowed s lateReject) &&
        (returns (fun _ => true) (lateReject.foldlM TradingSystem.step s) &&
        decide (saidOf (Run.emitted TradingSystem.step traffic s lateReject) 0 1 =
            [.asked (.enter 10), .told .accepted, .asked .cancel, .told (.filled 10 0),
              .told .rejected] ∧
          saidOf (Run.emitted TradingSystem.step traffic s lateReject) 0 2 =
            [.asked (.enter 10)]))) = true :=
    exists_of_returns (by decide +kernel)
  rw [Bool.and_eq_true, Bool.and_eq_true] at hcheck
  obtain ⟨hallowed, hreturns, hsaid⟩ := hcheck
  obtain ⟨s', hrun, -⟩ := exists_of_returns hreturns
  obtain ⟨hfirst, hsecond⟩ := of_decide_eq_true hsaid
  exact ⟨s, s', _, hinit, hrun, rfl, hfirst, hsecond,
    keeps_protocol (by decide) hinit (of_decide_eq_true hallowed) hrun⟩

end TradingSystem

end Trading

end YQuant
