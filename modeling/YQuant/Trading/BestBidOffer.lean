/-
# The best bid and offer of the client and of the exchange

After the updates of whole calls, the client's best price of a side is the price of the best tick
there, and its quantity is what rests at that tick.  The exchange keeps that total in 64 bits
(`FIFOLevel::total_quantity`), which is always enough; the client adds it up in the 32 bits of a
`Quantity`.  So the two agree exactly as long as the total of the best tick fits into 32 bits
(`reportsSide_iff`); at `2 ^ 32` the client shows quantity zero, which stands for an empty side.

For the exchange the 64-bit total is exact, because a pool of `kMaxOrderIds` orders of 32 bits each
cannot exceed it (`totalQuantity_eq`).  For the client the sum is right modulo `2 ^ 32`
(`totalQty_eq`); since an order alone always fits, it takes two orders of one price to be wrong.

`bbo_iff` states both directions for every run and between any two calls.  In the middle of a call
the client has processed part of what the exchange has done, and nothing is compared there.
-/
import YQuant.Matcher.TwoSides
import YQuant.Trading.BookMirror

namespace YQuant

/-- The quantity of a call is one that a `Quantity` can hold. -/
def BookCall.QuantityFits : BookCall → Prop
  | .add _ _ _ _ quantity => quantity < kWord32
  | .cancel _ _ => True

instance : (call : BookCall) → Decidable call.QuantityFits
  | .add .. => Nat.decLt ..
  | .cancel .. => isTrue trivial

/-! ## 1. Quantities that fit into 32 bits -/

/-- Trades only take from what rests and from what is left of the taker. -/
theorem Sweeps.quantity_lt {side : Side} {limit : Int} {l l' : List Resting} {q q' n : Nat}
    {fs : List Fill} (h : Sweeps side limit l q fs l' q') (hq : q < n)
    (hl : ∀ o ∈ l, o.quantity < n) : (∀ o ∈ l', o.quantity < n) ∧ q' < n := by
  refine h.preserves (P := fun l q => (∀ o ∈ l, o.quantity < n) ∧ q < n)
    (fun l q m hP _ _ => ⟨fun o ho => ?_, (Nat.sub_le ..).trans_lt hP.2⟩) ⟨hl, hq⟩
  obtain ⟨o', ho', -, hother, hmaker⟩ := mem_takeFrom ho
  by_cases harrival : o.arrival = m.arrival
  · rw [(hmaker harrival).2]
    exact (Nat.sub_le ..).trans_lt (hP.1 o' ho')
  · rw [hother harrival]
    exact hP.1 o' ho'

namespace IndexedBook

/-- Everything that rests has a quantity that a `Quantity` can hold. -/
def QuantitiesFit (x : IndexedBook) : Prop := ∀ o ∈ x.book.resting, o.quantity < kWord32

theorem QuantitiesFit.step {x : IndexedBook} (h : x.QuantitiesFit) {call : BookCall}
    (hcall : call.QuantityFits) : (x.step call).QuantitiesFit := by
  cases call with
  | add clientId clientOrderId side price quantity =>
    obtain ⟨htraded, hleft⟩ :=
      (sweep_sweeps side price x.book.resting quantity).quantity_lt hcall h
    rw [step_add]
    split
    · exact htraded
    · intro o ho
      rcases List.mem_append.mp ho with ho | ho
      · exact htraded o ho
      · rw [List.mem_singleton.mp ho]
        exact hleft
  | cancel clientId clientOrderId => exact fun o ho => h o (mem_step_cancel ho)

theorem QuantitiesFit.foldl {calls : List BookCall} (hfit : ∀ call ∈ calls, call.QuantityFits) :
    ∀ {x : IndexedBook}, x.QuantitiesFit → (calls.foldl IndexedBook.step x).QuantitiesFit := by
  induction calls with
  | nil => exact fun h => h
  | cons call calls ih =>
    exact fun h => ih (fun c hc => hfit c (List.mem_cons_of_mem call hc))
      (h.step (hfit call List.mem_cons_self))

end IndexedBook

/-! ## 2. The total of a tick -/

/-- The quantity of a list of live orders. -/
def queuedQuantity (l : List LiveOrder) : Nat := (l.map LiveOrder.quantity).sum

theorem le_queuedQuantity {l : List LiveOrder} {o : LiveOrder} (ho : o ∈ l) :
    o.quantity ≤ queuedQuantity l :=
  List.single_le_sum (fun _ _ => Nat.zero_le _) _ (List.mem_map_of_mem ho)

/-- A 32-bit counter adds up what is there modulo `2 ^ 32`. -/
theorem MarketOrderBook.totalQty_eq {l : List LiveOrder} (h : ∀ o ∈ l, o.quantity < kWord32) :
    totalQty l = queuedQuantity l % kWord32 := by
  have hfold : ∀ (l : List LiveOrder) (qty : Nat),
      l.foldl (fun qty o => (qty + o.quantity) % kWord32) (qty % kWord32) =
        (qty + queuedQuantity l) % kWord32 := by
    intro l
    induction l with
    | nil => exact fun _ => rfl
    | cons o l ih =>
      intro qty
      rw [List.foldl_cons, Nat.mod_add_mod, ih, queuedQuantity, queuedQuantity, List.map_cons,
        List.sum_cons, Nat.add_assoc]
  cases l with
  | nil => rfl
  | cons o l =>
    have hfirst := hfold l o.quantity
    rw [Nat.mod_eq_of_lt (h o List.mem_cons_self)] at hfirst
    rw [totalQty, hfirst, queuedQuantity, queuedQuantity, List.map_cons, List.sum_cons]

/-- The total of a tick is what rests there, in 64 bits. -/
theorem BookCore.Rep.totalQuantity_mod {b : BookCore} {addr : Nat → Nat} {x : IndexedBook}
    (h : b.Rep addr x) {side : Side} (hs : side.Directional) (t : Nat) :
    ((b.levels side).levels t).totalQuantity =
      queuedQuantity (restingAt x.live side (b.band.toPrice t)) % kWord64 := by
  let node : Nodes := b.orderPool.object?
  have hquantity : ∀ o ∈ x.book.resting, node.quantity (addr o.arrival) = o.quantity := by
    intro o ho
    obtain ⟨n, hn, hstored⟩ := h.node o ho
    exact (Nodes.quantity_eq hn).trans hstored.remainingQuantity
  have hsame : (queueAt b.band addr x.book.resting side t).map node.quantity =
      (restingAt x.live side (b.band.toPrice t)).map LiveOrder.quantity := by
    rw [queueAt, slots, restingAt, IndexedBook.live, List.filter_map, List.map_map, List.map_map]
    exact List.map_congr_left fun o ho => hquantity o (List.mem_filter.mp ho).1
  rw [((h.levels side hs).level t).total, queuedQuantity, ← hsame]

/-- **The total of a tick is exact**: 64 bits hold whatever can rest there. -/
theorem BookCore.Rep.totalQuantity_eq {b : BookCore} {addr : Nat → Nat} {x : IndexedBook}
    (h : b.Rep addr x) (hfit : x.QuantitiesFit) {side : Side} (hs : side.Directional) (t : Nat) :
    ((b.levels side).levels t).totalQuantity =
      queuedQuantity (restingAt x.live side (b.band.toPrice t)) := by
  rw [h.totalQuantity_mod hs, queuedQuantity]
  refine Nat.mod_eq_of_lt (TwoSides.sum_lt ?_ fun o ho => ?_)
  · calc (restingAt x.live side (b.band.toPrice t)).length
        ≤ x.live.length := List.length_filter_le ..
      _ = x.book.resting.length := List.length_map ..
      _ = (slots addr x.book.resting).length := (List.length_map ..).symm
      _ ≤ b.orderPool.capacity := h.pool.length_le
      _ = kMaxOrderIds := h.capacity
  · obtain ⟨r, hr, rfl⟩ := List.mem_map.mp (mem_restingAt.mp ho).1
    exact hfit r hr

/-! ## 3. The best level of a side -/

/-- **The client reports the best level of a side**: its price and its total, and a quantity of zero
only when the side is empty. -/
structure ReportsSide (b : BookCore) (bbo : BBO) (side : Side) : Prop where
  best : ∀ t : Nat, (b.levels side).bestTick = t →
    bbo.side side = (b.band.toPrice t, ((b.levels side).levels t).totalQuantity)
  empty : (bbo.side side).2 = 0 ↔ (b.levels side).isEmpty = true

/-- The total of the best tick of a side fits into a `Quantity`. -/
def BestFits (b : BookCore) (side : Side) : Prop :=
  ∀ t : Nat, (b.levels side).bestTick = t → ((b.levels side).levels t).totalQuantity < kWord32

/-- The best tick is the top of the side. -/
theorem BookCore.Rep.isTop {b : BookCore} {addr : Nat → Nat} {x : IndexedBook}
    (h : b.Rep addr x) (hinv : IndexedBook.Inv b.band x) {side : Side} (hs : side.Directional) :
    ((b.levels side).bestTick = kInvalidTick ∧ MarketOrderBook.IsTop x.live side (0, 0)) ∨
      ∃ t : Nat, (b.levels side).bestTick = t ∧
        restingAt x.live side (b.band.toPrice t) ≠ [] ∧
        MarketOrderBook.IsTop x.live side (b.band.toPrice t,
          MarketOrderBook.totalQty (restingAt x.live side (b.band.toPrice t))) := by
  have hbest := (h.levels side hs).best
  rw [h.side side hs] at hbest
  -- every order of the side rests at an occupied tick
  have htick : ∀ o ∈ x.live, o.side = side → ∃ t : Nat, o.price = b.band.toPrice t ∧
      queueAt b.band addr x.book.resting side t ≠ [] := by
    intro o ho hside
    obtain ⟨r, hr, rfl⟩ := List.mem_map.mp ho
    obtain ⟨t, -, -, hprice⟩ := PriceBand.toTick_of_inBand h.valid (hinv.orderly.inBand r hr)
    exact ⟨t, hprice, exists_at_iff.mp ⟨r, hr, hside, hprice⟩⟩
  rcases hbest with ⟨hinvalid, hnone⟩ | ⟨t, ht, hoccupied, hfirst⟩
  · refine .inl ⟨hinvalid, .inl ⟨rfl, fun o ho hside => ?_⟩⟩
    obtain ⟨t, -, hqueue⟩ := htick o ho hside
    exact hnone t hqueue
  · obtain ⟨r, hr, hat⟩ := exists_at_iff.mpr hoccupied
    have hlive : r.live ∈ restingAt x.live side (b.band.toPrice t) :=
      mem_restingAt.mpr ⟨List.mem_map_of_mem hr, hat⟩
    refine .inr ⟨t, ht, List.ne_nil_of_mem hlive, .inr ⟨⟨r.live, List.mem_map_of_mem hr, hat⟩,
      fun o ho hside => ?_, rfl⟩⟩
    obtain ⟨t', hprice, hqueue⟩ := htick o ho hside
    have hbehind := hfirst t' hqueue
    rcases eq_or_ne o.price (b.band.toPrice t) with heq | hne
    · exact .inl heq
    · refine .inr ((MarketOrderBook.addAfter_iff hs).mpr ?_)
      rw [hprice] at hne ⊢
      by_cases hbuy : side = .buy
      · rw [if_pos hbuy] at hbehind ⊢
        exact lt_of_le_of_ne
          ((PriceBand.toPrice_le_iff h.valid).mpr (Int.ofNat_le.mpr hbehind)) hne
      · rw [if_neg hbuy] at hbehind ⊢
        exact lt_of_le_of_ne
          ((PriceBand.toPrice_le_iff h.valid).mpr (Int.ofNat_le.mpr hbehind)) hne.symm

/-- **The client reports a side whose best total fits into 32 bits.** -/
theorem BookCore.Rep.reportsSide {b : BookCore} {addr : Nat → Nat} {x : IndexedBook}
    {m : MarketOrderBook} (h : b.Rep addr x) (hinv : IndexedBook.Inv b.band x)
    (hshows : m.Shows x.live) {side : Side} (hs : side.Directional)
    (htotal : ∀ t : Nat, (b.levels side).bestTick = t →
      queuedQuantity (restingAt x.live side (b.band.toPrice t)) < kWord32) :
    ReportsSide b m.bbo side := by
  rcases h.isTop hinv hs with ⟨hinvalid, htop⟩ | ⟨t, ht, hne, htop⟩
  · have hbbo : m.bbo.side side = (0, 0) := (hshows side hs).unique hs htop
    refine ⟨fun t ht => ?_, ?_⟩
    · rw [hinvalid, kInvalidTick] at ht
      omega
    · rw [hbbo]
      exact iff_of_true rfl (PriceLevels.isEmpty_iff_invalid.mpr hinvalid)
  · have hlt := htotal t ht
    have hbbo : m.bbo.side side = (b.band.toPrice t,
        queuedQuantity (restingAt x.live side (b.band.toPrice t))) := by
      rw [(hshows side hs).unique hs htop,
        MarketOrderBook.totalQty_eq fun o ho => (le_queuedQuantity ho).trans_lt hlt,
        Nat.mod_eq_of_lt hlt]
    refine ⟨fun t' ht' => ?_, ?_⟩
    · obtain rfl : t' = t := Int.ofNat.inj (ht'.symm.trans ht)
      rw [hbbo, h.totalQuantity_mod hs, Nat.mod_eq_of_lt (hlt.trans (by decide))]
    · -- the first order at the tick has a quantity
      obtain ⟨o, ho⟩ := List.exists_mem_of_ne_nil _ hne
      obtain ⟨r, hr, rfl⟩ := List.mem_map.mp (mem_restingAt.mp ho).1
      have hpos : 0 < queuedQuantity (restingAt x.live side (b.band.toPrice t)) :=
        (hinv.orderly.positive r hr).trans_le (le_queuedQuantity ho)
      rw [hbbo, PriceLevels.isEmpty_iff_invalid, ht, kInvalidTick]
      refine iff_of_false hpos.ne' ?_
      omega

/-- **The two agree on a side exactly when the total of its best tick fits into 32 bits.** -/
theorem BookCore.Rep.reportsSide_iff {b : BookCore} {addr : Nat → Nat} {x : IndexedBook}
    {m : MarketOrderBook} (h : b.Rep addr x) (hinv : IndexedBook.Inv b.band x)
    (hfit : x.QuantitiesFit) (hshows : m.Shows x.live) {side : Side} (hs : side.Directional) :
    ReportsSide b m.bbo side ↔ BestFits b side := by
  constructor
  · intro hreports t ht
    rcases h.isTop hinv hs with ⟨hinvalid, -⟩ | ⟨t', ht', -, htop⟩
    · rw [hinvalid, kInvalidTick] at ht
      omega
    · obtain rfl : t = t' := Int.ofNat.inj (ht.symm.trans ht')
      have hqty : ((b.levels side).levels t).totalQuantity = _ :=
        congrArg Prod.snd ((hreports.best t ht).symm.trans ((hshows side hs).unique hs htop))
      have hquantity : ∀ o ∈ restingAt x.live side (b.band.toPrice t), o.quantity < kWord32 := by
        intro o ho
        obtain ⟨r, hr, rfl⟩ := List.mem_map.mp (mem_restingAt.mp ho).1
        exact hfit r hr
      rw [hqty, MarketOrderBook.totalQty_eq hquantity]
      exact Nat.mod_lt _ (by decide)
  · intro hfits
    refine h.reportsSide hinv hshows hs fun t ht => ?_
    rw [← h.totalQuantity_eq hfit hs t]
    exact hfits t ht

/-! ## 4. Runs -/

theorem IndexedBook.adds_append (calls calls' : List BookCall) :
    adds (calls ++ calls') = adds calls + adds calls' := by
  induction calls with
  | nil => exact (Nat.zero_add _).symm
  | cons call calls ih => rw [List.cons_append, adds_cons, ih, adds_cons call calls, Nat.add_assoc]

/-- The book of a run and the client that has processed all its updates. -/
theorem BookCore.run_reports (symbolId : Nat) {calls : List BookCall}
    (hdoc : ∀ call ∈ calls, call.Documented kDefaultPriceBand)
    (hfit : ∀ call ∈ calls, call.QuantityFits) (hfew : IndexedBook.adds calls < kMaxOrderIds) :
    ∃ b m, run symbolId kDefaultPriceBand calls = .ok b ∧
      b.outgoingMarketUpdates =
        Run.outputs IndexedBook.step (IndexedBook.updates symbolId) .empty calls ∧
      b.outgoingMarketUpdates.foldlM MarketOrderBook.onMarketUpdate .init = .ok m ∧
      ∀ side, side.Directional → (ReportsSide b m.bbo side ↔ BestFits b side) := by
  have hfew' : IndexedBook.empty.book.arrivals + IndexedBook.adds calls < kMaxOrderIds :=
    (Nat.zero_add _).trans_lt hfew
  have hadmits := IndexedBook.Inv.empty.admits_of_few hdoc hfew'
  obtain ⟨b, hrun, hsim, -, hupdates⟩ := run_sim symbolId (by decide) hadmits
  obtain ⟨hpub, hfold⟩ := IndexedBook.Inv.empty.run_published symbolId hdoc hfew'
  obtain ⟨addr, hrep⟩ := hsim.rep
  obtain ⟨m, addr', ladder, hm, -, hshows⟩ := (MarketOrderBook.mirrors_init id).foldlM
    MarketOrderBook.shows_init (applicable_of_published (Consistent.nil _) hpub)
  have hquantities : (calls.foldl IndexedBook.step .empty).QuantitiesFit :=
    IndexedBook.QuantitiesFit.foldl hfit fun o ho => absurd ho List.not_mem_nil
  refine ⟨b, m, hrun, hupdates, hupdates ▸ hm, fun side hs => ?_⟩
  have hlive : m.Shows (calls.foldl IndexedBook.step .empty).live := by
    rw [← hfold]
    exact hshows
  exact hrep.reportsSide_iff (hsim.band ▸ hsim.inv) hquantities hlive hs

/-- **The client's best bid and offer**, in every run and between any two calls: on each side it is
the exchange's if and only if the total of the best tick fits into 32 bits.  The price is always
right; the quantity is a sum of 32 bits at the client and of 64 at the exchange.  In the middle of
a call the client may be behind by the updates still to come. -/
theorem MarketOrderBook.bbo_iff (symbolId : Nat) (calls : List BookCall)
    (hdoc : ∀ call ∈ calls, call.Documented kDefaultPriceBand)
    (hfit : ∀ call ∈ calls, call.QuantityFits) (hfew : IndexedBook.adds calls < kMaxOrderIds) :
    ∃ full, BookCore.run symbolId kDefaultPriceBand calls = .ok full ∧
      ∀ done, done <+: calls → ∃ b m, BookCore.run symbolId kDefaultPriceBand done = .ok b ∧
        b.outgoingMarketUpdates <+: full.outgoingMarketUpdates ∧
        b.outgoingMarketUpdates.foldlM onMarketUpdate init = .ok m ∧
        ∀ side, side.Directional → (ReportsSide b m.bbo side ↔ BestFits b side) := by
  obtain ⟨full, -, hrun, hupdates, -⟩ := BookCore.run_reports symbolId hdoc hfit hfew
  refine ⟨full, hrun, fun done hdone => ?_⟩
  obtain ⟨rest, rfl⟩ := hdone
  have hfew' : IndexedBook.adds done < kMaxOrderIds := by
    rw [IndexedBook.adds_append] at hfew
    exact (Nat.le_add_right _ _).trans_lt hfew
  obtain ⟨b, m, hb, hupdates', hm, hiff⟩ := BookCore.run_reports symbolId
    (fun c hc => hdoc c (List.mem_append_left _ hc))
    (fun c hc => hfit c (List.mem_append_left _ hc)) hfew'
  refine ⟨b, m, hb, ?_, hm, hiff⟩
  rw [hupdates, hupdates', Run.outputs_append]
  exact List.prefix_append _ _

/-- A bid, a better bid, and a sell that takes the better one. -/
theorem MarketOrderBook.bbo_iff_three_orders :
    ∃ full, BookCore.run 0 kDefaultPriceBand [.add 1 1 .buy 10 5, .add 1 2 .buy 12 4,
        .add 2 1 .sell 12 7] = .ok full ∧
      ∀ done, done <+: [.add 1 1 .buy 10 5, .add 1 2 .buy 12 4, .add 2 1 .sell 12 7] →
        ∃ b m, BookCore.run 0 kDefaultPriceBand done = .ok b ∧
          b.outgoingMarketUpdates <+: full.outgoingMarketUpdates ∧
          b.outgoingMarketUpdates.foldlM onMarketUpdate init = .ok m ∧
          ∀ side, side.Directional → (ReportsSide b m.bbo side ↔ BestFits b side) :=
  bbo_iff 0 _ (by decide) (by decide) (by decide)

/-- **Two bids of `2 ^ 31` at one price** show as an empty side. -/
theorem MarketOrderBook.not_reportsSide : ¬ ∀ (symbolId : Nat) (calls : List BookCall)
    (b : BookCore) (m : MarketOrderBook), (∀ call ∈ calls, call.Documented kDefaultPriceBand) →
    (∀ call ∈ calls, call.QuantityFits) → IndexedBook.adds calls < kMaxOrderIds →
    BookCore.run symbolId kDefaultPriceBand calls = .ok b →
    b.outgoingMarketUpdates.foldlM onMarketUpdate init = .ok m →
    ∀ side, side.Directional → ReportsSide b m.bbo side := by
  intro hreports
  let calls : List BookCall := [.add 1 1 .buy 10 2147483648, .add 1 2 .buy 10 2147483648]
  have hdoc : ∀ call ∈ calls, call.Documented kDefaultPriceBand := by decide
  have hfit : ∀ call ∈ calls, call.QuantityFits := by decide
  have hfew : IndexedBook.adds calls < kMaxOrderIds := by decide
  obtain ⟨b, m, hrun, -, hm, hiff⟩ := BookCore.run_reports 0 hdoc hfit hfew
  obtain ⟨b', hrun', hcheck⟩ : ∃ b, BookCore.run 0 kDefaultPriceBand calls = .ok b ∧
      decide ((b.levels .buy).bestTick = 10 ∧ ((b.levels .buy).levels 10).totalQuantity = kWord32) =
        true := exists_of_returns (by decide +kernel)
  obtain rfl := Except.ok.inj (hrun.symm.trans hrun')
  obtain ⟨hbest, htotal⟩ := of_decide_eq_true hcheck
  have hfits : BestFits b .buy := (hiff .buy (.inl rfl)).mp
    (hreports 0 calls b m hdoc hfit hfew hrun hm .buy (.inl rfl))
  exact absurd (hfits 10 hbest) (htotal ▸ Nat.lt_irrefl _)

end YQuant
