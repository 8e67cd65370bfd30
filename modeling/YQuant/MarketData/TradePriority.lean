/-
# Priority, as the market data shows it

A reader of the market data can check the exchange: when a trade is published, the maker it names
is the first order of the queue at the best price of its side, among the orders that the earlier
updates left live, and the trade takes no more than this order has (`trades_meet_first`).  This
holds in the middle of a call too, between the trades of one taker.

The reader needs nothing but the updates; it does not know which taker made a trade, nor its limit.
What makes this work is the order of the messages inside a call: a trade is published before its
maker is reduced or leaves, and the next trade after that, so at every trade the replayed orders
are those of the book at that moment (`Sweeps.meetFirst`).

That ids are not used twice is what ties replayed orders to orders of the book, and the bound on
the number of orders comes from there.
-/
import YQuant.Matcher.PriceTime
import YQuant.Trading.TradeSignal

namespace YQuant

/-- **A trade meets the order that is first in line**: no live order of its side is better priced,
and none at its price is ahead of it. -/
structure MeetsFirst (l : List LiveOrder) (u : MatchingEngineMarketUpdate) : Prop where
  first : ∃ o q, restingAt l u.side u.price = o :: q ∧ o.orderId = u.orderId ∧
    0 < u.quantity ∧ u.quantity ≤ o.quantity
  best : ∀ o ∈ l, o.side = u.side →
    o.price = u.price ∨ MarketOrderBook.addAfter u.side o.price u.price = true

/-- What a trade meets, if the update is one. -/
def TradeMeetsFirst (l : List LiveOrder) (u : MatchingEngineMarketUpdate) : Prop :=
  u.type = .trade → MeetsFirst l u

variable {band : PriceBand}

/-- The queue at the price of the next maker starts with the maker. -/
theorem restingAt_bestMaker {l : List Resting} {side : Side} {limit : Int} {m : Resting}
    (hl : Orderly band l) (hm : bestMaker l side limit = some m) :
    ∃ q, restingAt (l.map Resting.live) m.side m.price = m.live :: q := by
  obtain ⟨q, hq⟩ := priceTimeQueue_of_bestMaker hl hm
  obtain ⟨l₁, l₂, rfl⟩ := List.append_of_mem (bestMaker_mem hm).1
  have hfront : (l₁.map Resting.live).filter (fun o => o.At m.side m.price) = [] := by
    refine List.filter_eq_nil_iff.mpr fun o ho => ?_
    obtain ⟨r, hr, rfl⟩ := List.mem_map.mp ho
    rw [decide_eq_true_iff]
    exact first_of_priceTimeQueue hl hq r hr
  have hself : m.live.At m.side m.price := ⟨rfl, rfl⟩
  rw [restingAt, List.map_append, List.map_cons, List.filter_append, hfront, List.nil_append,
    List.filter_cons_of_pos (by simpa using hself)]
  exact ⟨_, rfl⟩

/-- **The trades of a taker.** -/
theorem Sweeps.meetFirst {side : Side} {limit : Int} {l l' : List Resting} {q q' : Nat}
    {fs : List Fill} (symbolId : Nat) (h : Sweeps side limit l q fs l' q') (hl : Orderly band l)
    (hsmall : ∀ o ∈ l, o.arrival < kMaxOrderIds) :
    Run.AlongRun replay TradeMeetsFirst (l.map Resting.live)
      (fs.flatMap (Fill.updates symbolId)) := by
  induction h with
  | done => trivial
  | @trade l l' q q' m fs hq hm _ ih =>
    have hmem := (bestMaker_mem hm).1
    have hpos := hl.positive m hmem
    have hexecuted : 0 < min q m.quantity := Nat.lt_min.mpr ⟨hq, hpos⟩
    obtain ⟨-, hfold⟩ := fill_published symbolId (q - min q m.quantity) hl hsmall hmem hexecuted
      (min_le_right q m.quantity)
    obtain ⟨queue, hqueue⟩ := restingAt_bestMaker hl hm
    rw [List.flatMap_cons, Run.alongRun_append, hfold]
    refine ⟨⟨fun _ => ⟨⟨m.live, queue, hqueue, rfl, hexecuted, min_le_right _ _⟩,
      fun o ho hside => ?_⟩, ?_, trivial⟩, ih (hl.takeFrom hmem (min_le_right _ _))
        (takeFrom_small hsmall)⟩
    · obtain ⟨r, hr, rfl⟩ := List.mem_map.mp ho
      exact bestMaker_addAfter hm hr hside
    · -- what becomes of the maker is no trade
      intro htype
      dsimp only at htype
      split at htype <;> cases htype

namespace IndexedBook

variable {x : IndexedBook}

/-- **The trades of a call.** -/
theorem Inv.call_meetFirst (symbolId : Nat) (h : Inv band x) (hsmall : x.Small) (call : BookCall) :
    Run.AlongRun replay TradeMeetsFirst x.live (x.updates symbolId call) := by
  cases call with
  | add clientId clientOrderId side price quantity =>
    refine Run.alongRun_append.mpr ⟨(sweep_sweeps side price x.book.resting quantity).meetFirst
      symbolId h.orderly hsmall, ?_⟩
    split
    · trivial
    · refine ⟨?_, trivial⟩
      intro hadd
      cases hadd
  | cancel clientId clientOrderId =>
    simp only [updates]
    cases x.find clientId clientOrderId with
    | none => trivial
    | some o =>
      refine ⟨?_, trivial⟩
      intro hcancel
      cases hcancel

/-- **The trades of a run.** -/
theorem Inv.run_meetFirst (symbolId : Nat) :
    ∀ {calls : List BookCall} {x : IndexedBook}, Inv band x →
      (∀ call ∈ calls, call.Documented band) → x.book.arrivals + adds calls < kMaxOrderIds →
      Run.AlongRun replay TradeMeetsFirst x.live
        (Run.outputs IndexedBook.step (updates symbolId) x calls)
  | [], _, _, _, _ => trivial
  | call :: calls, x, h, hdoc, hfew => by
    have hd := hdoc call List.mem_cons_self
    have hsmall := h.small (Nat.lt_of_le_of_lt (Nat.le_add_right _ _) hfew)
    rw [adds_cons, ← Nat.add_assoc, ← arrivals_step] at hfew
    obtain ⟨-, hfold⟩ := h.call_published symbolId hd
      (Nat.lt_of_le_of_lt (Nat.le_add_right _ _) hfew)
    rw [Run.outputs_cons, Run.alongRun_append, hfold]
    exact ⟨h.call_meetFirst symbolId hsmall call, run_meetFirst symbolId (h.step hd)
      (fun c hc => hdoc c (List.mem_cons_of_mem call hc)) hfew⟩

end IndexedBook

namespace BookCore

/-- **Every published trade meets the order that is first in line**, among the orders that the
updates before it left live, and takes no more than this order has.  The replayed orders are those
of the book as long as ids are not drawn twice, so the run enters fewer than `kMaxOrderIds` orders;
the tables of the readers would be too short for more. -/
theorem trades_meet_first (symbolId : Nat) {calls : List BookCall} {b : BookCore}
    (hband : band.isValid = true) (hdoc : ∀ call ∈ calls, call.Documented band)
    (hfew : IndexedBook.adds calls < kMaxOrderIds) (hrun : run symbolId band calls = .ok b)
    {us us' : List MatchingEngineMarketUpdate} {u : MatchingEngineMarketUpdate}
    (hsplit : b.outgoingMarketUpdates = us ++ u :: us') (htype : u.type = .trade) :
    MeetsFirst (us.foldl replay []) u := by
  obtain ⟨b₂, hrun₂, -, -, hupdates⟩ := run_sim symbolId hband (admits_of_run hband hdoc hrun)
  obtain rfl := Except.ok.inj (hrun.symm.trans hrun₂)
  have hmeet := IndexedBook.Inv.empty.run_meetFirst symbolId hdoc
    (by simpa [IndexedBook.empty, ListBook.empty] using hfew)
  rw [← hupdates, hsplit, Run.alongRun_append] at hmeet
  exact hmeet.2.1 htype

/-- Two offers at one price: the second is met when the first is gone. -/
theorem trades_meet_first_second_offer : ∃ b us u us',
    run 0 kDefaultPriceBand [.add 1 1 .sell 105 2, .add 2 1 .sell 105 4, .add 3 1 .buy 105 3] =
      .ok b ∧
    b.outgoingMarketUpdates = us ++ u :: us' ∧ u.type = .trade ∧ u.orderId = 2 ∧
    MeetsFirst (us.foldl replay []) u := by
  have hdoc : ∀ call ∈ [BookCall.add 1 1 .sell 105 2, .add 2 1 .sell 105 4, .add 3 1 .buy 105 3],
      call.Documented kDefaultPriceBand := by decide
  obtain ⟨b, hrun, hcheck⟩ : ∃ b, run 0 kDefaultPriceBand [.add 1 1 .sell 105 2,
      .add 2 1 .sell 105 4, .add 3 1 .buy 105 3] = .ok b ∧ decide (b.outgoingMarketUpdates =
        [⟨.add, 0, 1, .sell, 105, 2, 1⟩, ⟨.add, 0, 2, .sell, 105, 4, 2⟩,
          ⟨.trade, 0, 1, .sell, 105, 2, 0⟩, ⟨.cancel, 0, 1, .sell, 105, 0, 0⟩] ++
          ⟨.trade, 0, 2, .sell, 105, 1, 0⟩ :: [⟨.modify, 0, 2, .sell, 105, 3, 2⟩]) = true :=
    exists_of_returns (by decide +kernel)
  have hsplit := of_decide_eq_true hcheck
  exact ⟨b, _, _, _, hrun, hsplit, rfl, rfl,
    trades_meet_first 0 (by decide) hdoc (by decide) hrun hsplit rfl⟩

end BookCore

end YQuant
