/-
# Price-time priority

The matching loop looks for the best level, walks its queue, and looks again.  What comes out of it
needs none of these steps to be told: line up the orders that the taker crosses by price and then by
arrival, and give each what it can take until the taker's quantity is used up (`allocate`).

`sweep_eq_allocate` says so of the trades of one taker, and `BookCore.add_allocates` of the messages
of `BookCore::Add` in any run.

The proof is an induction over the trades.  The next maker of the book is the first of the queue
(`priceTimeQueue_of_bestMaker`), because a better price comes before a worse one and, at one price,
an earlier arrival before a later one; when it is used up the rest of the queue is the queue of
what is left, and when the taker is used up the dealing ends as well.

* `executed_allocate`: nothing is held back;
* `makers_allocate`: nobody is passed over.

That an order keeps its place when its quantity is reduced is part of this, and that it loses it
when it is cancelled and entered again is, too: it has a new arrival then.
-/
import YQuant.MarketData.Stream

namespace YQuant

/-! ## 1. The queue and what a taker takes from it -/

/-- `o` trades before `o'`: at a better price for the taker, or at the same price and earlier. -/
def Resting.Before (takerSide : Side) (o o' : Resting) : Prop :=
  takerRank takerSide o.price < takerRank takerSide o'.price ∨
    takerRank takerSide o.price = takerRank takerSide o'.price ∧ o.arrival < o'.arrival

instance (takerSide : Side) (o o' : Resting) : Decidable (o.Before takerSide o') :=
  inferInstanceAs (Decidable (_ ∨ _))

/-- The orders a taker crosses, in the order in which they trade. -/
def priceTimeQueue (takerSide : Side) (limit : Int) (resting : List Resting) : List Resting :=
  (resting.filter fun o => o.CrossedBy takerSide limit).mergeSort fun o o' =>
    decide (¬ o'.Before takerSide o)

/-- A quantity is dealt out along a queue. -/
def allocate : Nat → List Resting → List Fill
  | _, [] => []
  | quantity, maker :: makers =>
    if quantity = 0 then []
    else ⟨maker, min quantity maker.quantity, quantity - min quantity maker.quantity⟩ ::
      allocate (quantity - min quantity maker.quantity) makers

/-- What is in a queue. -/
def available (makers : List Resting) : Nat := (makers.map Resting.quantity).sum

@[simp] theorem allocate_zero (makers : List Resting) : allocate 0 makers = [] := by
  cases makers <;> rfl

/-- **Nothing is held back**: the executed quantity is all there is, or all there is to take. -/
theorem executed_allocate : ∀ (quantity : Nat) (makers : List Resting),
    ((allocate quantity makers).map Fill.executed).sum = min quantity (available makers)
  | quantity, [] => (Nat.min_zero quantity).symm
  | quantity, maker :: makers => by
    have havailable : available (maker :: makers) = maker.quantity + available makers := by
      simp [available]
    rw [allocate, havailable]
    split
    · next hzero => simp [hzero]
    · rw [List.map_cons, List.sum_cons, executed_allocate]
      change min quantity maker.quantity + _ = _
      omega

/-- **Nobody is passed over**: the makers stand at the front of the queue, and all but the last give
everything they have. -/
theorem makers_allocate : ∀ (quantity : Nat) (makers : List Resting),
    (allocate quantity makers).map Fill.maker <+: makers ∧
      ∀ f fs fs', allocate quantity makers = fs ++ f :: fs' → fs' ≠ [] →
        f.executed = f.maker.quantity
  | quantity, [] => ⟨List.prefix_rfl, fun _ _ _ h => by simp [allocate] at h⟩
  | quantity, maker :: makers => by
    obtain ⟨hmakers, hall⟩ := makers_allocate (quantity - min quantity maker.quantity) makers
    rw [allocate]
    split
    · exact ⟨List.nil_prefix, fun _ _ _ h => by simp at h⟩
    · refine ⟨(List.prefix_cons_inj maker).mpr hmakers, fun f fs fs' h hne => ?_⟩
      cases fs with
      | nil =>
        obtain ⟨rfl, hrest⟩ := List.cons.inj h
        change min quantity maker.quantity = maker.quantity
        by_contra hlt
        -- a maker that keeps something has exhausted the taker
        have hzero : quantity - min quantity maker.quantity = 0 := by omega
        rw [hzero, allocate_zero] at hrest
        exact hne hrest.symm
      | cons f' fs => exact hall f fs fs' (List.cons.inj h).2 hne

/-! ## 2. The queue is the order of the best makers -/

section Queue

variable {band : PriceBand} {l : List Resting} {side : Side} {limit : Int} {m : Resting}

/-- Orders that differ in their arrival are lined up in exactly one way. -/
theorem Resting.Before.total {o o' : Resting} (hne : o.arrival ≠ o'.arrival)
    (h : ¬ o'.Before side o) : o.Before side o' := by
  unfold Before at h ⊢
  omega

theorem Resting.Before.asymm {o o' : Resting} (h : o.Before side o') : ¬ o'.Before side o := by
  unfold Before at h ⊢
  omega

theorem mem_priceTimeQueue {o : Resting} :
    o ∈ priceTimeQueue side limit l ↔ o ∈ l ∧ o.CrossedBy side limit := by
  rw [priceTimeQueue, List.mem_mergeSort, List.mem_filter, decide_eq_true_eq]

theorem priceTimeQueue_perm :
    (priceTimeQueue side limit l).Perm (l.filter fun o => o.CrossedBy side limit) :=
  List.mergeSort_perm _ _

theorem priceTimeQueue_sorted (hl : Orderly band l) :
    (priceTimeQueue side limit l).Pairwise (Resting.Before side) := by
  have hsorted : (priceTimeQueue side limit l).Pairwise fun o o' =>
      decide (¬ o'.Before side o) = true := by
    refine List.pairwise_mergeSort (fun a b c hab hbc => ?_) (fun a b => ?_) _
    · have hab := of_decide_eq_true hab
      have hbc := of_decide_eq_true hbc
      refine decide_eq_true ?_
      unfold Resting.Before at hab hbc ⊢
      omega
    · rw [Bool.or_eq_true, decide_eq_true_iff, decide_eq_true_iff]
      unfold Resting.Before
      omega
  have hdistinct : (priceTimeQueue side limit l).Pairwise fun o o' => o.arrival ≠ o'.arrival :=
    ((hl.filter _).arrivals.imp Nat.ne_of_lt).perm priceTimeQueue_perm.symm Ne.symm
  exact hsorted.imp₂ (fun o o' h hne => .total hne (of_decide_eq_true h)) hdistinct

/-- **A queue is known by its members and its order.** -/
theorem eq_priceTimeQueue (hl : Orderly band l) {q : List Resting}
    (hperm : q.Perm (l.filter fun o => o.CrossedBy side limit))
    (hsorted : q.Pairwise (Resting.Before side)) : priceTimeQueue side limit l = q :=
  (priceTimeQueue_perm.trans hperm.symm).eq_of_pairwise
    (fun _ _ _ _ hab hba => absurd hba hab.asymm) (priceTimeQueue_sorted hl) hsorted

variable {q : List Resting}

theorem mem_of_priceTimeQueue (hq : priceTimeQueue side limit l = m :: q) :
    m ∈ l ∧ m.CrossedBy side limit := by
  rw [← mem_priceTimeQueue, hq]
  exact List.mem_cons_self

/-- The first of the queue trades before all others. -/
theorem before_of_priceTimeQueue (hl : Orderly band l) (hq : priceTimeQueue side limit l = m :: q)
    {o : Resting} (ho : o ∈ l) (hcross : o.CrossedBy side limit) : o = m ∨ m.Before side o := by
  have hmem := mem_priceTimeQueue.mpr ⟨ho, hcross⟩
  have hsorted : (m :: q).Pairwise (Resting.Before side) := hq ▸ priceTimeQueue_sorted hl
  rw [hq] at hmem
  rcases List.mem_cons.mp hmem with heq | hmem
  · exact .inl heq
  · exact .inr ((List.pairwise_cons.mp hsorted).1 o hmem)

/-- In the book, no order in front of it rests at its price. -/
theorem first_of_priceTimeQueue {l₁ l₂ : List Resting} (hl : Orderly band (l₁ ++ m :: l₂))
    (hq : priceTimeQueue side limit (l₁ ++ m :: l₂) = m :: q) :
    ∀ o ∈ l₁, ¬ o.At m.side m.price := by
  intro o ho hat
  have hlt : o.arrival < m.arrival :=
    (List.pairwise_append.mp hl.arrivals).2.2 o ho m List.mem_cons_self
  have hcross : o.CrossedBy side limit := by
    have hmcross := (mem_of_priceTimeQueue hq).2
    unfold Resting.CrossedBy at hmcross ⊢
    rwa [hat.1, hat.2]
  rcases before_of_priceTimeQueue hl hq (List.mem_append_left _ ho) hcross with
    rfl | hbefore | ⟨-, hbefore⟩
  · exact Nat.lt_irrefl _ hlt
  · rw [hat.2] at hbefore
    exact lt_irrefl _ hbefore
  · exact Nat.lt_asymm hlt hbefore

/-- **The first of the queue is the next maker.** -/
theorem bestMaker_of_priceTimeQueue (hl : Orderly band l)
    (hq : priceTimeQueue side limit l = m :: q) : bestMaker l side limit = some m := by
  obtain ⟨hmem, hcross⟩ := mem_of_priceTimeQueue hq
  obtain ⟨l₁, l₂, rfl⟩ := List.append_of_mem hmem
  refine bestMaker_of_first rfl hcross (fun o ho hocross => ?_) (first_of_priceTimeQueue hl hq)
  rcases before_of_priceTimeQueue hl hq ho hocross with rfl | hlt | ⟨heq, -⟩
  · exact le_rfl
  · exact hlt.le
  · exact heq.le

/-- **The next maker is the first of the queue.** -/
theorem priceTimeQueue_of_bestMaker (hl : Orderly band l) (hm : bestMaker l side limit = some m) :
    ∃ q, priceTimeQueue side limit l = m :: q := by
  obtain ⟨m', q, hq⟩ := List.exists_cons_of_ne_nil
    (List.ne_nil_of_mem (mem_priceTimeQueue.mpr (bestMaker_mem hm)))
  obtain rfl := Option.some.inj (hm.symm.trans (bestMaker_of_priceTimeQueue hl hq))
  exact ⟨q, hq⟩

theorem priceTimeQueue_without (hl : Orderly band l)
    (hq : priceTimeQueue side limit l = m :: q) :
    priceTimeQueue side limit (without l m) = q := by
  have hperm : (m :: q).Perm (l.filter fun o => o.CrossedBy side limit) := by
    rw [← hq]
    exact priceTimeQueue_perm
  have hsorted : (m :: q).Pairwise (Resting.Before side) := hq ▸ priceTimeQueue_sorted hl
  refine eq_priceTimeQueue (hl.filter _) ?_ (List.pairwise_cons.mp hsorted).2
  have hrest := hperm.filter fun o => decide (o.arrival ≠ m.arrival)
  rw [List.filter_cons_of_neg (by simp), List.filter_comm] at hrest
  refine (List.Perm.of_eq (List.filter_eq_self.mpr fun o ho => ?_)).symm.trans hrest
  have hne : (m :: q).Pairwise fun o o' => o.arrival ≠ o'.arrival :=
    ((hl.filter _).arrivals.imp Nat.ne_of_lt).perm hperm.symm Ne.symm
  simpa using ((List.pairwise_cons.mp hne).1 o ho).symm

/-- **The trades of a taker** are dealt out along the queue. -/
theorem sweeps_allocate : ∀ (q : List Resting) {l : List Resting} (quantity : Nat),
    Orderly band l → priceTimeQueue side limit l = q →
      ∃ l', Sweeps side limit l quantity (allocate quantity q) l' (quantity - available q) ∧
        Settled side limit l' (quantity - available q)
  | [], l, quantity, hl, hq => by
    refine ⟨l, .done, .inr (bestMaker_eq_none.mpr fun o ho hcross => ?_)⟩
    have hmem := mem_priceTimeQueue.mpr ⟨ho, hcross⟩
    rw [hq] at hmem
    exact List.not_mem_nil hmem
  | m :: q, l, quantity, hl, hq => by
    have hbest := bestMaker_of_priceTimeQueue hl hq
    have havailable : available (m :: q) = m.quantity + available q := by simp [available]
    rcases Nat.eq_zero_or_pos quantity with rfl | hpos
    · rw [allocate_zero, Nat.zero_sub]
      exact ⟨l, .done, .inl rfl⟩
    · rw [allocate, if_neg hpos.ne', havailable]
      rcases Nat.lt_or_ge quantity m.quantity with hlt | hge
      · -- the taker is used up
        have hzero : quantity - min quantity m.quantity = 0 := by omega
        have hleft : quantity - (m.quantity + available q) = 0 := by omega
        rw [hleft, hzero, allocate_zero]
        have htrade : Sweeps side limit l quantity
            [⟨m, min quantity m.quantity, quantity - min quantity m.quantity⟩]
            (takeFrom l m (min quantity m.quantity)) (quantity - min quantity m.quantity) :=
          .trade hpos hbest .done
        rw [hzero] at htrade
        exact ⟨_, htrade, .inl rfl⟩
      · obtain ⟨l', hsweeps, hsettled⟩ := sweeps_allocate q (quantity - m.quantity)
          (hl.filter _) (priceTimeQueue_without hl hq)
        rw [Nat.sub_sub] at hsweeps hsettled
        refine ⟨l', .trade hpos hbest ?_, hsettled⟩
        rw [min_eq_right hge, takeFrom, if_pos rfl]
        exact hsweeps

/-- **The loop that looks for the best order again after each trade** deals the taker's quantity out
along the queue. -/
theorem sweep_eq_allocate (hl : Orderly band l) (quantity : Nat) :
    (sweep side limit l quantity).1 = allocate quantity (priceTimeQueue side limit l) ∧
      (sweep side limit l quantity).2.2 = quantity - available (priceTimeQueue side limit l) := by
  obtain ⟨l', hsweeps, hsettled⟩ := sweeps_allocate _ quantity hl rfl
  rw [hsweeps.eq_sweep hsettled]
  exact ⟨rfl, rfl⟩

end Queue

/-! ## 3. The messages of a new order -/

/-- What `Add` has emitted, in a book that holds the orders of `x`: the acceptance, the trades that
deal out price-time priority, and what the queue could not give, which comes to rest. -/
structure Allocates (symbolId : Nat) (x : IndexedBook) (clientId clientOrderId : Nat) (side : Side)
    (price : Int) (quantity : Nat) (b b' : BookCore) : Prop where
  responses : b'.outgoingClientResponses = b.outgoingClientResponses ++
    ⟨.accepted, clientId, symbolId, clientOrderId, (x.book.arrivals + 1) % kWord64, side, price, 0,
      quantity⟩ :: (allocate quantity (priceTimeQueue side price x.book.resting)).flatMap
        (Fill.responses symbolId clientId clientOrderId ((x.book.arrivals + 1) % kWord64) side)
  updates : ∃ priority, b'.outgoingMarketUpdates = b.outgoingMarketUpdates ++
    ((allocate quantity (priceTimeQueue side price x.book.resting)).flatMap
    (Fill.updates symbolId) ++
      if quantity ≤ available (priceTimeQueue side price x.book.resting) then []
      else [⟨.add, symbolId, (x.book.arrivals + 1) % kWord64, side, price,
        quantity - available (priceTimeQueue side price x.book.resting), priority⟩])

namespace BookCore

/-- **`Add` deals out price-time priority**, in every state that documented calls can reach: its
trades are what `allocate` gives the orders it crosses, lined up by price and then by arrival, and
its messages follow from them.  Nothing is said of how the loops get there; `Sweeps` compares them
trade by trade, and `sweep_eq_allocate` does away with the order of the steps. -/
theorem add_allocates {symbolId : Nat} {band : PriceBand} {calls : List BookCall} {b b' : BookCore}
    (hband : band.isValid = true) (hdoc : ∀ call ∈ calls, call.Documented band)
    (hrun : run symbolId band calls = .ok b) {clientId clientOrderId quantity : Nat} {side : Side}
    {price : Int} (hadd : (BookCall.add clientId clientOrderId side price quantity).Documented band)
    (happly : b.apply (.add clientId clientOrderId side price quantity) = .ok b') :
    ∃ x, Simulates symbolId band b x ∧
      Allocates symbolId x clientId clientOrderId side price quantity b b' := by
  obtain ⟨b₂, hrun₂, hsim, -⟩ := run_sim symbolId hband (admits_of_run hband hdoc hrun)
  obtain rfl := Except.ok.inj (hrun.symm.trans hrun₂)
  obtain ⟨b₃, happly₃, -, hemits⟩ := hsim.step (hsim.admits hadd happly)
  obtain rfl := Except.ok.inj (happly.symm.trans happly₃)
  refine ⟨_, hsim, ?_⟩
  generalize calls.foldl IndexedBook.step .empty = x at hsim hemits
  obtain ⟨hfills, hleft⟩ : x.book.fills side price quantity =
        allocate quantity (priceTimeQueue side price x.book.resting) ∧
      x.book.left side price quantity =
        quantity - available (priceTimeQueue side price x.book.resting) :=
    sweep_eq_allocate hsim.inv.orderly quantity
  constructor
  · rw [hemits.responses, ← hfills]
    rfl
  · refine ⟨((x.book.traded side price quantity).queued side price + 1) % kWord64, ?_⟩
    rw [hemits.updates, ← hfills]
    simp only [IndexedBook.updates, ListBook.addUpdates, hleft, Nat.sub_eq_zero_iff_le]

/-- Three offers, the better price last, and a bid that takes one and a half of them. -/
theorem add_allocates_three_offers : ∃ b b',
    run 0 kDefaultPriceBand [.add 1 1 .sell 105 10, .add 2 1 .sell 105 4, .add 3 1 .sell 103 2] =
      .ok b ∧
    b.apply (.add 4 1 .buy 105 7) = .ok b' ∧
    ∃ x, Simulates 0 kDefaultPriceBand b x ∧ Allocates 0 x 4 1 .buy 105 7 b b' := by
  have hband : kDefaultPriceBand.isValid = true := by decide
  have hdoc : ∀ call ∈
    [BookCall.add 1 1 .sell 105 10, .add 2 1 .sell 105 4, .add 3 1 .sell 103 2] ++
      [.add 4 1 .buy 105 7], call.Documented kDefaultPriceBand := by decide
  obtain ⟨b', -, hrun', -⟩ := run_published 0 hband hdoc (by decide)
  obtain ⟨b₀, hinit, hfold⟩ := bind_ok hrun'
  obtain ⟨b, hcalls, hlast⟩ := Run.foldlM_append_ok.mp hfold
  obtain ⟨b'', happly, hdone⟩ := Run.foldlM_cons_ok.mp hlast
  obtain rfl : b'' = b' := Except.ok.inj hdone
  have hrun : run 0 kDefaultPriceBand [.add 1 1 .sell 105 10, .add 2 1 .sell 105 4,
      .add 3 1 .sell 103 2] = .ok b := by rw [run, hinit, ok_bind, hcalls]
  exact ⟨b, b'', hrun, happly, add_allocates hband
    (fun call hcall => hdoc call (List.mem_append_left _ hcall)) hrun (by decide) happly⟩

end BookCore

end YQuant
