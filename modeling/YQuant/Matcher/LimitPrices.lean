/-
# Fills respect the limit

A client knows its orders by the responses that accepted them.  Whatever happens in between, a
later fill or cancel of an order goes to the client that entered it, under the id and on the side
it was accepted with, and no fill is at a worse price than the limit that was accepted
(`fills_within_limits`).  The proof follows the orders that rest: each is backed by the response
that accepted it (`Acknowledged`).

Only the responses are looked at, since a client sees nothing else.  `Acknowledged` is a relation
between the responses so far and the orders that rest: for each of them one of the responses has
accepted it, at its own price and side.  A trade is at the price of its maker; for the maker this
is its own limit, and for the taker a price it has been found to accept.

The quantities are not compared, and neither is it said that an order that is accepted is ever
filled.  That an order is not filled beyond its quantity is a matter of its life cycle
(`LifeCycle.lean`).
-/
import YQuant.MarketData.MarketStream

namespace YQuant

/-! ## 1. What an acceptance promises -/

/-- `a` has accepted the order of `r`, at a limit that the price of `r` respects. -/
structure MatchingEngineClientResponse.Backs (a r : MatchingEngineClientResponse) : Prop where
  accepted : a.type = .accepted
  order : a.marketOrderId = r.marketOrderId
  symbol : a.symbolId = r.symbolId
  client : a.clientId = r.clientId
  clientOrder : a.clientOrderId = r.clientOrderId
  side : a.side = r.side
  limit : if a.side = .buy then r.price ≤ a.price else a.price ≤ r.price

/-- Some earlier response backs `r`, if it is a fill or a cancel. -/
def Backed (rs : List MatchingEngineClientResponse) (r : MatchingEngineClientResponse) : Prop :=
  r.type = .filled ∨ r.type = .canceled → ∃ a ∈ rs, a.Backs r

theorem Backed.of_ne {rs : List MatchingEngineClientResponse} {r : MatchingEngineClientResponse}
    (hfilled : r.type ≠ .filled) (hcanceled : r.type ≠ .canceled) : Backed rs r := fun htype =>
  (htype.elim hfilled hcanceled).elim

/-- The responses so far, with one more. -/
def heard (rs : List MatchingEngineClientResponse) (r : MatchingEngineClientResponse) :
    List MatchingEngineClientResponse := rs ++ [r]

theorem foldl_heard (rs rs' : List MatchingEngineClientResponse) :
    rs'.foldl heard rs = rs ++ rs' := by
  induction rs' generalizing rs with
  | nil => simp
  | cons r rs' ih => rw [List.foldl_cons, ih, heard, List.append_assoc, List.singleton_append]

/-- A resting order was accepted as it rests, but for its quantity. -/
def Acknowledged (symbolId : Nat) (rs : List MatchingEngineClientResponse) (o : Resting) : Prop :=
  ∃ a ∈ rs, a.type = .accepted ∧ a.marketOrderId = o.marketOrderId ∧ a.symbolId = symbolId ∧
    a.clientId = o.clientId ∧ a.clientOrderId = o.clientOrderId ∧ a.side = o.side ∧
    a.price = o.price

section Acknowledged

variable {symbolId : Nat} {rs rs' : List MatchingEngineClientResponse} {o : Resting}

theorem Acknowledged.mono (h : Acknowledged symbolId rs o) :
    Acknowledged symbolId (rs ++ rs') o := by
  obtain ⟨a, ha, hrest⟩ := h
  exact ⟨a, List.mem_append_left _ ha, hrest⟩

theorem Acknowledged.reduced (h : Acknowledged symbolId rs o) {o' : Resting} {q : Nat}
    (heq : o' = { o with quantity := q }) : Acknowledged symbolId rs o' := by
  rw [heq]
  exact h

/-- A response to a resting order at its own price is backed. -/
theorem Acknowledged.backed (h : Acknowledged symbolId rs o) {r : MatchingEngineClientResponse}
    (hid : r.marketOrderId = o.marketOrderId) (hsymbol : r.symbolId = symbolId)
    (hkey : r.clientId = o.clientId ∧ r.clientOrderId = o.clientOrderId) (hside : r.side = o.side)
    (hprice : r.price = o.price) : Backed rs r := by
  intro _
  obtain ⟨a, ha, haccepted, haid, hasymbol, haclient, haorder, haside, haprice⟩ := h
  refine ⟨a, ha, haccepted, haid.trans hid.symm, hasymbol.trans hsymbol.symm,
    haclient.trans hkey.1.symm, haorder.trans hkey.2.symm, haside.trans hside.symm, ?_⟩
  rw [haprice, hprice]
  split <;> exact le_rfl

end Acknowledged

/-! ## 2. A sweep and a call -/

section Calls

variable {symbolId : Nat} {rs : List MatchingEngineClientResponse}

/-- **The fills of a taker.** -/
theorem Sweeps.backed {side : Side} {limit : Int} {l l' : List Resting} {q q' : Nat}
    {fs : List Fill} {clientId clientOrderId taker : Nat} (hs : Sweeps side limit l q fs l' q')
    (htaker : ∃ a ∈ rs, a.type = .accepted ∧ a.marketOrderId = taker ∧ a.symbolId = symbolId ∧
      a.clientId = clientId ∧ a.clientOrderId = clientOrderId ∧ a.side = side ∧ a.price = limit)
    (hl : ∀ o ∈ l, Acknowledged symbolId rs o) :
    Run.AlongRun heard Backed rs
      (fs.flatMap (Fill.responses symbolId clientId clientOrderId taker side)) := by
  induction hs generalizing rs with
  | done => trivial
  | @trade l l' q q' m fs hq hm _ ih =>
    obtain ⟨hmem, -, hcross⟩ := bestMaker_mem hm
    rw [List.flatMap_cons, Run.alongRun_append, foldl_heard]
    refine ⟨⟨fun _ => ?_, ?_, trivial⟩, ih ?_ fun o ho => ?_⟩
    · obtain ⟨a, ha, haccepted, haid, hasymbol, haclient, haorder, haside, haprice⟩ := htaker
      refine ⟨a, ha, haccepted, haid, hasymbol, haclient, haorder, haside, ?_⟩
      rw [haside, haprice]
      exact hcross
    · exact (hl m hmem).mono.backed rfl rfl ⟨rfl, rfl⟩ rfl rfl
    · obtain ⟨a, ha, hrest⟩ := htaker
      exact ⟨a, List.mem_append_left _ ha, hrest⟩
    · obtain ⟨o', ho', heq, -⟩ := mem_takeFrom ho
      exact ((hl o' ho').reduced heq).mono

namespace IndexedBook

variable {band : PriceBand} {x : IndexedBook}

/-- **A call answers only what was accepted**, and acknowledges what it leaves. -/
theorem Inv.backed (h : Inv band x) (call : BookCall)
    (hl : ∀ o ∈ x.book.resting, Acknowledged symbolId rs o) :
    Run.AlongRun heard Backed rs (x.responses symbolId call) ∧
      ∀ o ∈ (x.step call).book.resting,
        Acknowledged symbolId (rs ++ x.responses symbolId call) o := by
  cases call with
  | add clientId clientOrderId side price quantity =>
    have hsweeps := sweep_sweeps side price x.book.resting quantity
    have hold : ∀ o ∈ (x.traded side price quantity).book.resting, Acknowledged symbolId
        (rs ++ x.responses symbolId (.add clientId clientOrderId side price quantity)) o := by
      intro o ho
      obtain ⟨o', ho', heq⟩ := hsweeps.mem_of_mem ho
      exact ((hl o' ho').reduced heq).mono
    constructor
    · refine ⟨Backed.of_ne (by simp) (by simp), ?_⟩
      exact hsweeps.backed ⟨_, List.mem_append_right _ List.mem_cons_self, rfl, rfl, rfl, rfl, rfl,
        rfl, rfl⟩ fun o ho => (hl o ho).mono
    · rw [step_add]
      split
      · exact hold
      · intro o ho
        rcases List.mem_append.mp ho with ho | ho
        · exact hold o ho
        · rw [List.mem_singleton.mp ho]
          exact ⟨_, List.mem_append_right _ List.mem_cons_self, rfl, rfl, rfl, rfl, rfl, rfl, rfl⟩
  | cancel clientId clientOrderId =>
    refine ⟨?_, fun o ho => (hl o (mem_step_cancel ho)).mono⟩
    simp only [responses]
    cases hf : x.find clientId clientOrderId with
    | none => exact ⟨Backed.of_ne (by simp) (by simp), trivial⟩
    | some o =>
      obtain ⟨ho, -, hkey⟩ := h.find_some hf
      exact ⟨(hl o ho).backed rfl rfl ⟨hkey.1.symm, hkey.2.symm⟩ rfl rfl, trivial⟩

end IndexedBook

/-! ## 3. Runs of the engine -/

namespace IndexedBooks

/-- **A run of requests.** -/
theorem Inv.backed : ∀ {requests : List MatchingEngineClientRequest} {xs : IndexedBooks}
    {rs : List MatchingEngineClientResponse}, Inv xs → (∀ r ∈ requests, r.Documented) →
      (∀ s, s < kMaxSymbols → ∀ o ∈ (xs s).book.resting, Acknowledged s rs o) →
      Run.AlongRun heard Backed rs (Run.outputs step responses xs requests)
  | [], _, _, _, _, _ => trivial
  | r :: requests, xs, rs, h, hdoc, hl => by
    have hr := hdoc r List.mem_cons_self
    obtain ⟨hsymbol, call, hcall, -⟩ := hdoc r List.mem_cons_self
    obtain ⟨hcallBacked, hleft⟩ := (h r.symbolId hsymbol).backed call (hl r.symbolId hsymbol)
    rw [Run.outputs_cons, Run.alongRun_append, foldl_heard, responses_call xs hcall]
    refine ⟨hcallBacked, Inv.backed (h.next hr)
      (fun r' hr' => hdoc r' (List.mem_cons_of_mem r hr')) fun s hs o ho => ?_⟩
    rw [step_call xs hcall] at ho
    rcases eq_or_ne s r.symbolId with rfl | hne
    · rw [Function.update_self] at ho
      exact hleft o ho
    · rw [Function.update_of_ne hne] at ho
      exact (hl s hs o ho).mono

end IndexedBooks

end Calls

namespace MatchingEngine

/-- **Fills respect the limit.**  In every run of documented requests, each fill and each cancel is
preceded by the response that accepted the order, for the same client, client order id, symbol and
side, and the fill is at no worse price than was accepted.  The client needs nothing but its own
responses to check this.  With an id that is used again the response that backs a fill is one of
several, and there is one that fits. -/
theorem fills_within_limits {requests : List MatchingEngineClientRequest} {m : MatchingEngine}
    (hdoc : ∀ r ∈ requests, r.Documented) (hrun : run requests = .ok m)
    {rs rs' : List MatchingEngineClientResponse} {r : MatchingEngineClientResponse}
    (hsplit : m.outgoingClientResponses = rs ++ r :: rs')
    (htype : r.type = .filled ∨ r.type = .canceled) : ∃ a ∈ rs, a.Backs r := by
  obtain ⟨m', hrun', -, hresponses, -⟩ := run_sim (run_simulates hdoc hrun).2
  obtain rfl := Except.ok.inj (hrun.symm.trans hrun')
  have hbacked := @IndexedBooks.Inv.backed requests .empty [] .empty hdoc
    fun _ _ o ho => absurd ho List.not_mem_nil
  rw [← hresponses, hsplit, Run.alongRun_append, foldl_heard, List.nil_append] at hbacked
  exact hbacked.2.1 htype

/-- A bid at 105 that trades at 103. -/
theorem fills_within_limits_improved :
    ∃ m rs r rs', run [⟨.new, 1, 0, 1, .sell, 103, 5⟩, ⟨.new, 2, 0, 1, .buy, 105, 3⟩] = .ok m ∧
      m.outgoingClientResponses = rs ++ r :: rs' ∧ r.type = .filled ∧ r.side = .buy ∧
      r.price = 103 ∧ ∃ a ∈ rs, a.Backs r := by
  have hdoc : ∀ r ∈ [(⟨.new, 1, 0, 1, .sell, 103, 5⟩ : MatchingEngineClientRequest),
      ⟨.new, 2, 0, 1, .buy, 105, 3⟩], r.Documented := by decide
  obtain ⟨m, hrun, hcheck⟩ : ∃ m, run [⟨.new, 1, 0, 1, .sell, 103, 5⟩,
      ⟨.new, 2, 0, 1, .buy, 105, 3⟩] = .ok m ∧ decide (m.outgoingClientResponses =
        [⟨.accepted, 1, 0, 1, 1, .sell, 103, 0, 5⟩, ⟨.accepted, 2, 0, 1, 2, .buy, 105, 0, 3⟩] ++
          ⟨.filled, 2, 0, 1, 2, .buy, 103, 3, 0⟩ ::
            [⟨.filled, 1, 0, 1, 1, .sell, 103, 3, 2⟩]) = true :=
    exists_of_returns (by decide +kernel)
  have hsplit := of_decide_eq_true hcheck
  exact ⟨m, _, _, _, hrun, hsplit, rfl, rfl, rfl, fills_within_limits hdoc hrun hsplit (.inl rfl)⟩

end MatchingEngine

end YQuant
