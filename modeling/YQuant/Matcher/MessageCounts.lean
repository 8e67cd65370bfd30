/-
# How much a run can emit

A single request can trade with every order that rests, so nothing bounds what it emits.  Over a
whole run the trades are paid for: each takes its maker out of the book or is the last of its
taker, and an order is entered once.  There are no more trades than new orders, and the engine
answers every request once and every trade twice and publishes at most three updates for each new
order (`messages_bounded`).

The resting orders are the potential: what a run may still emit for nothing.

What a single request emits is paid for by the order that arrives with it and by the orders that
leave the book (`Inv.paid`); added up over a run, those that have left have arrived before.  So the
bound is about runs from empty books, and there is no such bound for the rest of a run from its
middle.

It is also what keeps the numbers of the market data small: a run whose books have ids left
publishes fewer than `2 ^ 63` updates (`MatchingEngine.run_short`), and readers that hold a number
in a signed word can count them.
-/
import Mathlib.Algebra.Order.BigOperators.Group.Finset
import YQuant.MarketData.MarketStream

namespace YQuant

def MatchingEngineMarketUpdate.IsTrade (u : MatchingEngineMarketUpdate) : Bool :=
  decide (u.type = .trade)

def MatchingEngineClientRequest.IsNew (r : MatchingEngineClientRequest) : Bool :=
  decide (r.type = .new)

/-! ## 1. One call -/

theorem length_takeFrom_of_ne {l : List Resting} {m : Resting} {e : Nat} (h : e ≠ m.quantity) :
    (takeFrom l m e).length = l.length := by
  rw [takeFrom, if_neg h, reduce, List.length_map]

/-- **A trade takes its maker out, or is the last one.** -/
theorem Sweeps.trades_le {side : Side} {limit : Int} {l l' : List Resting} {q q' : Nat}
    {fs : List Fill} (h : Sweeps side limit l q fs l' q') :
    fs.length + l'.length ≤ l.length + if q' = 0 then 1 else 0 := by
  induction h with
  | done => exact (Nat.zero_add _).trans_le (Nat.le_add_right _ _)
  | @trade l l' q q' m fs hq hm hrest ih =>
    rw [List.length_cons]
    by_cases hall : min q m.quantity = m.quantity
    · rw [hall] at ih
      have := takeFrom_length_lt (bestMaker_mem hm).1
      omega
    · -- the taker is used up
      have hzero : q - min q m.quantity = 0 := by omega
      rw [hzero] at hrest
      cases hrest with
      | done =>
        rw [length_takeFrom_of_ne hall, if_pos rfl, List.length_nil]
        omega
      | trade hq' => exact absurd hq' (Nat.lt_irrefl 0)

theorem sum_map_const {α : Type} (n : Nat) (l : List α) :
    (l.map fun _ => n).sum = l.length * n := by
  rw [List.map_const', List.sum_replicate_nat]

section Fills

variable (symbolId : Nat) (fs : List Fill)

theorem length_fillUpdates : (fs.flatMap (Fill.updates symbolId)).length = 2 * fs.length := by
  rw [List.length_flatMap]
  exact (sum_map_const 2 fs).trans (Nat.mul_comm _ _)

theorem countP_fillUpdates :
    (fs.flatMap (Fill.updates symbolId)).countP (·.IsTrade) = fs.length := by
  induction fs with
  | nil => rfl
  | cons f fs ih =>
    have hone : (f.updates symbolId).countP (·.IsTrade) = 1 := by
      unfold Fill.updates
      split <;> rfl
    rw [List.flatMap_cons, List.countP_append, ih, hone, List.length_cons, Nat.add_comm]

theorem length_fillResponses (clientId clientOrderId marketOrderId : Nat) (side : Side) :
    (fs.flatMap (Fill.responses symbolId clientId clientOrderId marketOrderId side)).length =
      2 * fs.length := by
  induction fs with
  | nil => rfl
  | cons f fs ih =>
    rw [List.flatMap_cons, List.length_append, ih, List.length_cons]
    change 2 + 2 * fs.length = _
    omega

end Fills

namespace IndexedBook

variable {band : PriceBand} {x : IndexedBook}

/-- **What a call emits**, and what it does to the orders that rest. -/
structure Counted (x : IndexedBook) (symbolId : Nat) (call : BookCall) : Prop where
  trades : (x.updates symbolId call).countP (·.IsTrade) + (x.step call).book.resting.length ≤
    x.book.resting.length + adds [call]
  updates : (x.updates symbolId call).length + 2 * (x.step call).book.resting.length ≤
    2 * x.book.resting.length + 3 * adds [call]
  responses : (x.responses symbolId call).length =
    1 + 2 * (x.updates symbolId call).countP (·.IsTrade)

theorem counted_add (symbolId clientId clientOrderId : Nat) (side : Side) (price : Int)
    (quantity : Nat) :
    Counted x symbolId (.add clientId clientOrderId side price quantity) := by
  have hsweep := (sweep_sweeps side price x.book.resting quantity).trades_le
  have htrades : (x.updates symbolId (.add clientId clientOrderId side price quantity)).countP
      (·.IsTrade) = (x.book.fills side price quantity).length := by
    change (_ ++ _ : List MatchingEngineMarketUpdate).countP _ = _
    rw [List.countP_append, countP_fillUpdates]
    split <;> rfl
  have hupdates : (x.updates symbolId (.add clientId clientOrderId side price quantity)).length =
      2 * (x.book.fills side price quantity).length +
        if x.book.left side price quantity = 0 then 0 else 1 := by
    change (_ ++ _ : List MatchingEngineMarketUpdate).length = _
    rw [List.length_append, length_fillUpdates]
    split <;> rfl
  have hresting : (x.step (.add clientId clientOrderId side price quantity)).book.resting.length =
      (sweep side price x.book.resting quantity).2.1.length +
        if x.book.left side price quantity = 0 then 0 else 1 := by
    rw [step_add]
    split
    · rfl
    · exact List.length_append
  have hadds : adds [.add clientId clientOrderId side price quantity] = 1 := rfl
  change (x.book.fills side price quantity).length + _ ≤
    _ + if x.book.left side price quantity = 0 then 1 else 0 at hsweep
  refine ⟨?_, ?_, ?_⟩
  · rw [htrades, hresting, hadds]
    split at hsweep <;> simp_all only [if_true, if_false] <;> omega
  · rw [hupdates, hresting, hadds]
    split at hsweep <;> simp_all only [if_true, if_false] <;> omega
  · rw [htrades]
    change (_ :: _ : List MatchingEngineClientResponse).length = _
    rw [List.length_cons, length_fillResponses, Nat.add_comm]

theorem counted_cancel (h : Inv band x) (symbolId clientId clientOrderId : Nat) :
    Counted x symbolId (.cancel clientId clientOrderId) := by
  have hadds : adds [.cancel clientId clientOrderId] = 0 := rfl
  cases hf : x.find clientId clientOrderId with
  | none =>
    have hnone : x.updates symbolId (.cancel clientId clientOrderId) = [] := by
      simp only [IndexedBook.updates, hf, ListBook.cancelUpdates]
    refine ⟨?_, ?_, ?_⟩
    · rw [hnone, h.step_cancel_none hf, hadds]
      exact (Nat.zero_add _).le
    · rw [hnone, h.step_cancel_none hf, hadds]
      exact (Nat.zero_add _).le
    · rw [hnone]
      simp only [IndexedBook.responses, hf, ListBook.cancelResponses]
      rfl
  | some o =>
    obtain ⟨ho, -, -⟩ := h.find_some hf
    have hone : x.updates symbolId (.cancel clientId clientOrderId) =
        [⟨.cancel, symbolId, o.marketOrderId, o.side, o.price, 0, 0⟩] := by
      simp only [IndexedBook.updates, hf, ListBook.cancelUpdates]
    have hresting : (x.step (.cancel clientId clientOrderId)).book.resting.length <
        x.book.resting.length := by
      simp only [IndexedBook.step, hf, ListBook.remove, without]
      exact List.length_filter_lt_length_iff_exists.mpr ⟨o, ho, by simp⟩
    refine ⟨?_, ?_, ?_⟩
    · rw [hone, hadds]
      change 0 + _ ≤ _
      omega
    · rw [hone, hadds, List.length_singleton]
      omega
    · rw [hone]
      simp only [IndexedBook.responses, hf, ListBook.cancelResponses]
      rfl

theorem Inv.counted (h : Inv band x) (symbolId : Nat) (call : BookCall) :
    Counted x symbolId call := by
  cases call with
  | add => exact counted_add ..
  | cancel => exact counted_cancel h ..

end IndexedBook

/-! ## 2. The requests of all symbols -/

namespace IndexedBooks

variable {xs : IndexedBooks} {r : MatchingEngineClientRequest}

/-- The orders that rest in the books. -/
def resting (xs : IndexedBooks) : Nat :=
  ∑ s ∈ Finset.range kMaxSymbols, (xs s).book.resting.length

/-- The orders that have arrived at the books. -/
def arrived (xs : IndexedBooks) : Nat := ∑ s ∈ Finset.range kMaxSymbols, (xs s).book.arrivals

/-- A call changes one book. -/
theorem sum_update (xs : IndexedBooks) {s : Nat} (hs : s < kMaxSymbols) (x : IndexedBook)
    (f : IndexedBook → Nat) :
    ∑ t ∈ Finset.range kMaxSymbols, f (Function.update xs s x t) + f (xs s) =
      ∑ t ∈ Finset.range kMaxSymbols, f (xs t) + f x := by
  have hmem : s ∈ Finset.range kMaxSymbols := Finset.mem_range.mpr hs
  have hothers : ∑ t ∈ (Finset.range kMaxSymbols).erase s, f (Function.update xs s x t) =
      ∑ t ∈ (Finset.range kMaxSymbols).erase s, f (xs t) := by
    refine Finset.sum_congr rfl fun t ht => ?_
    rw [Function.update_of_ne (Finset.ne_of_mem_erase ht)]
  have hafter := Finset.add_sum_erase _ (fun t => f (Function.update xs s x t)) hmem
  have hbefore := Finset.add_sum_erase _ (fun t => f (xs t)) hmem
  rw [hothers, Function.update_self] at hafter
  omega

theorem resting_update (xs : IndexedBooks) {s : Nat} (hs : s < kMaxSymbols) (x : IndexedBook) :
    resting (Function.update xs s x) + (xs s).book.resting.length =
      xs.resting + x.book.resting.length :=
  sum_update xs hs x fun x => x.book.resting.length

theorem arrived_update (xs : IndexedBooks) {s : Nat} (hs : s < kMaxSymbols) (x : IndexedBook) :
    arrived (Function.update xs s x) + (xs s).book.arrivals = xs.arrived + x.book.arrivals :=
  sum_update xs hs x fun x => x.book.arrivals

/-- **The updates of a request are paid for** by the order that arrives and those that leave. -/
theorem Inv.paid (h : Inv xs) (hdoc : r.Documented) :
    (xs.updates r).length + 2 * (xs.step r).resting + 3 * xs.arrived ≤
      2 * xs.resting + 3 * (xs.step r).arrived := by
  obtain ⟨hsymbol, call, hcall, -⟩ := hdoc
  have hupdates := ((h r.symbolId hsymbol).counted r.symbolId call).updates
  have hresting := resting_update xs hsymbol ((xs r.symbolId).step call)
  have harrived := arrived_update xs hsymbol ((xs r.symbolId).step call)
  rw [IndexedBook.arrivals_step] at harrived
  rw [updates_call xs hcall, step_call xs hcall]
  omega

theorem Inv.run_paid : ∀ {rs : List MatchingEngineClientRequest} {xs : IndexedBooks}, Inv xs →
    (∀ r ∈ rs, r.Documented) →
      (Run.outputs step updates xs rs).length + 2 * (rs.foldl step xs).resting + 3 * xs.arrived ≤
        2 * xs.resting + 3 * (rs.foldl step xs).arrived
  | [], xs, _, _ => by
    rw [Run.outputs_nil, List.foldl_nil, List.length_nil]
    omega
  | r :: rs, xs, h, hdoc => by
    have hr := hdoc r List.mem_cons_self
    have hfirst := h.paid hr
    have hrest := run_paid (h.next hr) fun r' hr' => hdoc r' (List.mem_cons_of_mem r hr')
    rw [List.foldl_cons, Run.outputs_cons, List.length_append]
    omega

/-- Books with ids left have met few orders. -/
theorem arrived_le (h : ∀ s, s < kMaxSymbols → (xs s).book.arrivals < kMaxOrderIds) :
    xs.arrived ≤ kMaxSymbols * kMaxOrderIds := by
  have hle := Finset.sum_le_card_nsmul (Finset.range kMaxSymbols)
    (fun s => (xs s).book.arrivals) kMaxOrderIds fun s hs => (h s (Finset.mem_range.mp hs)).le
  rwa [Finset.card_range] at hle

/-- **A stream that is paid for by few orders** is short: its numbers fit a signed word. -/
theorem short_of_paid {n : Nat} (hpaid : n + 2 * xs.resting ≤ 3 * xs.arrived)
    (h : ∀ s, s < kMaxSymbols → (xs s).book.arrivals < kMaxOrderIds) : n < 2 ^ 63 := by
  have harrived := arrived_le h
  unfold kMaxSymbols kMaxOrderIds at harrived
  omega

/-- Few orders leave few. -/
theorem Few.foldl : ∀ {rs : List MatchingEngineClientRequest} {xs : IndexedBooks},
    (∀ r ∈ rs, r.Documented) → Few xs rs → ∀ s, s < kMaxSymbols →
      (rs.foldl step xs s).book.arrivals < kMaxOrderIds
  | [], _, _, hfew => hfew
  | r :: rs, _, hdoc, hfew => by
    have hrest : ∀ r' ∈ rs, r'.Documented := fun r' hr' => hdoc r' (List.mem_cons_of_mem r hr')
    intro s hs
    rw [List.foldl_cons]
    exact Few.foldl hrest (Few.next (hdoc r List.mem_cons_self) hfew) s hs

theorem adds_call {call : BookCall} (hcall : r.call? = some call) :
    IndexedBook.adds [call] = if r.IsNew then 1 else 0 := by
  unfold MatchingEngineClientRequest.call? at hcall
  unfold MatchingEngineClientRequest.IsNew
  split at hcall
  · rename_i htype
    obtain rfl := Option.some.inj hcall
    simp [htype, IndexedBook.adds]
  · rename_i htype
    obtain rfl := Option.some.inj hcall
    simp [htype, IndexedBook.adds]
  · cases hcall
  · cases hcall

/-- **What a run emits**, and what it does to the orders that rest. -/
theorem Inv.run_counted : ∀ {rs : List MatchingEngineClientRequest} {xs : IndexedBooks}, Inv xs →
    (∀ r ∈ rs, r.Documented) →
      (Run.outputs step updates xs rs).countP (·.IsTrade) + (rs.foldl step xs).resting ≤
        xs.resting + rs.countP (·.IsNew) ∧
      (Run.outputs step updates xs rs).length + 2 * (rs.foldl step xs).resting ≤
        2 * xs.resting + 3 * rs.countP (·.IsNew) ∧
      (Run.outputs step responses xs rs).length =
        rs.length + 2 * (Run.outputs step updates xs rs).countP (·.IsTrade)
  | [], xs, _, _ => ⟨(Nat.zero_add _).le, (Nat.zero_add _).le, rfl⟩
  | r :: rs, xs, h, hdoc => by
    have hr := hdoc r List.mem_cons_self
    obtain ⟨htrades, hupdates, hresponses⟩ :=
      run_counted (h.next hr) fun r' hr' => hdoc r' (List.mem_cons_of_mem r hr')
    obtain ⟨hsymbol, call, hcall, -⟩ := hr
    have hone := (h r.symbolId hsymbol).counted r.symbolId call
    have hresting := resting_update xs hsymbol ((xs r.symbolId).step call)
    have hfirst := hone.trades
    have hsecond := hone.updates
    have hthird := hone.responses
    rw [← step_call xs hcall] at hresting
    rw [← updates_call xs hcall, adds_call hcall] at hfirst hsecond
    rw [← updates_call xs hcall, ← responses_call xs hcall] at hthird
    rw [List.foldl_cons, Run.outputs_cons, Run.outputs_cons, List.countP_append, List.length_append,
      List.length_append, List.countP_cons, List.length_cons]
    refine ⟨?_, ?_, ?_⟩ <;> omega

end IndexedBooks

/-- A run with few orders publishes a short stream. -/
theorem MatchingEngine.run_short {requests : List MatchingEngineClientRequest} {m : MatchingEngine}
    (hdoc : ∀ r ∈ requests, r.Documented) (hfew : IndexedBooks.Few .empty requests)
    (hrun : run requests = .ok m) : m.outgoingMarketUpdates.length < 2 ^ 63 := by
  obtain ⟨m', hrun', -, -, hupdates⟩ := run_sim (run_simulates hdoc hrun).2
  obtain rfl := Except.ok.inj (hrun.symm.trans hrun')
  have hpaid := IndexedBooks.Inv.empty.run_paid hdoc
  rw [← hupdates] at hpaid
  have hempty : IndexedBooks.empty.resting = 0 := rfl
  refine IndexedBooks.short_of_paid ?_
    (IndexedBooks.Few.foldl hdoc hfew)
  omega

/-- **A run emits no more than its new orders pay for.**  There is one response for each request
and two for each trade, there are no more trades than new orders, and at most three market updates
for each new order.  A single request may emit as many messages as there are orders; it takes those
out of the book that it trades with, and they were paid for when they were entered. -/
theorem MatchingEngine.messages_bounded {requests : List MatchingEngineClientRequest}
    {m : MatchingEngine} (hdoc : ∀ r ∈ requests, r.Documented) (hrun : run requests = .ok m) :
    m.outgoingClientResponses.length =
        requests.length + 2 * m.outgoingMarketUpdates.countP (·.IsTrade) ∧
      m.outgoingMarketUpdates.countP (·.IsTrade) ≤ requests.countP (·.IsNew) ∧
      m.outgoingMarketUpdates.length ≤ 3 * requests.countP (·.IsNew) := by
  obtain ⟨m', hrun', -, hresponses, hupdates⟩ := run_sim (run_simulates hdoc hrun).2
  obtain rfl := Except.ok.inj (hrun.symm.trans hrun')
  obtain ⟨htrades, hlength, hanswers⟩ := IndexedBooks.Inv.empty.run_counted hdoc
  rw [← hupdates] at htrades hlength hanswers
  rw [← hresponses] at hanswers
  have hempty : IndexedBooks.empty.resting = 0 := rfl
  rw [hempty] at htrades hlength
  exact ⟨hanswers, by omega, by omega⟩

/-- Two sells, and a buy that takes one of them and a part of the other. -/
theorem MatchingEngine.messages_bounded_two_trades : ∃ m,
    run [⟨.new, 1, 0, 1, .sell, 103, 5⟩, ⟨.new, 2, 0, 1, .sell, 104, 5⟩,
      ⟨.new, 3, 0, 1, .buy, 105, 8⟩] = .ok m ∧
    m.outgoingClientResponses.length = 3 + 2 * 2 ∧
    m.outgoingMarketUpdates.countP (·.IsTrade) = 2 ∧
    m.outgoingMarketUpdates.countP (·.IsTrade) ≤ 3 ∧ m.outgoingMarketUpdates.length ≤ 3 * 3 := by
  obtain ⟨m, hrun, hcheck⟩ : ∃ m, run [⟨.new, 1, 0, 1, .sell, 103, 5⟩,
      ⟨.new, 2, 0, 1, .sell, 104, 5⟩, ⟨.new, 3, 0, 1, .buy, 105, 8⟩] = .ok m ∧
        decide (m.outgoingMarketUpdates.countP (·.IsTrade) = 2) = true :=
    exists_of_returns (by decide +kernel)
  have htrades := of_decide_eq_true hcheck
  obtain ⟨hresponses, hle, hlength⟩ := messages_bounded (by decide) hrun
  exact ⟨m, hrun, by rw [hresponses, htrades]; rfl, htrades, hle, hlength⟩

end YQuant
