/-
# A snapshot rebuilds the book

A snapshot names no queue positions: it lists the orders of a symbol by ascending id.  A book that
is fed a snapshot, whatever it held before, is nevertheless the book that followed the updates,
level by level and queue by queue, because the exchange's queues are in ascending order of ids
(`Consistent.ascending`).

What is compared is what a reader of the book sees, `view`: the levels of a side along their links
and the queue of each level along its links.  `Mirrors.view_eq` says that it is a function of the
live orders.

So the number of a slot in a pool, and the order in which slots are recycled, are left out of the
comparison, and nothing else is: prices, quantities, ids, priorities and sides are those of the
live orders.  That a client may start from any book is why the cycle begins with a clear for each
symbol, also for one without orders.

The point of the stream may be in the middle of a call.  Then the snapshot has a maker that its
taker has already met, and so has the book that followed the updates.
-/
import YQuant.MarketData.SnapshotMirror

namespace YQuant
namespace MarketOrderBook

/-! ## 1. What a reader sees -/

/-- The queue that starts at an order, along the links. -/
def queueView (m : MarketOrderBook) (first : Option Nat) : List LiveOrder :=
  (Links.walkRing (orderLinks.nx m.orderPool) kMaxOrderIds first).filterMap fun a =>
    (m.orderPool.object? a).map fun n => ⟨n.orderId, n.side, n.price, n.qty, n.priority⟩

/-- The levels of a side, along the links: side, price and queue of each. -/
def view (m : MarketOrderBook) (side : Side) : List (Side × Int × List LiveOrder) :=
  (Links.walkRing (entryLinks.nx m.ordersAtPricePool) kMaxPriceLevels
    (m.bestOrdersByPrice side)).filterMap fun a =>
      (m.ordersAtPricePool.object? a).map fun v => (v.side, v.price, m.queueView v.firstMktOrder)

section View

variable {m m' : MarketOrderBook} {addr addr' : Nat → Nat} {ladder ladder' : Side → List Rung}
  {l : List LiveOrder} {side : Side}

theorem Mirrors.queueView_eq (h : m.Mirrors addr ladder l) (hs : side.Directional) {r : Rung}
    (hr : r ∈ ladder side) : ∃ v, m.ordersAtPricePool.object? r.slot = some v ∧ v.side = side ∧
      v.price = r.price ∧ m.queueView v.firstMktOrder = restingAt l side r.price := by
  obtain ⟨v, hv, hside, hprice⟩ := (h.levels.sides side hs).entry r hr
  obtain ⟨w, hw, hfirst, hring⟩ := h.queue side hs r hr
  obtain rfl := Option.some.inj (hv.symm.trans hw)
  refine ⟨v, hv, hside, hprice, ?_⟩
  have hlen : (slotsAt addr l side r.price).length ≤ kMaxOrderIds := by
    have hle := h.orders.pool.length_le
    rw [h.orders.capacity, List.length_map] at hle
    rw [slotsAt, List.length_map]
    exact (List.length_filter_le _ _).trans hle
  rw [queueView, hfirst, hring.walkRing_eq (h.orders.slotsAt_nodup side r.price) hlen, slotsAt,
    List.filterMap_map]
  conv_rhs => rw [← List.filterMap_some (l := restingAt l side r.price)]
  refine List.filterMap_congr fun o ho => ?_
  obtain ⟨n, hn, hholds⟩ := h.orders.node o (mem_restingAt.mp ho).1
  simp only [Function.comp_apply, hn, Option.map_some, hholds.orderId, hholds.side, hholds.price,
    hholds.qty, hholds.priority]

/-- **A reader sees the levels of the ladder and their live orders.** -/
theorem Mirrors.view_eq (h : m.Mirrors addr ladder l) (hs : side.Directional) :
    m.view side = ((ladder side).map Rung.price).map fun price =>
      (side, price, restingAt l side price) := by
  have hlad := h.levels.sides side hs
  rw [view, hlad.best, hlad.ring.walkRing_eq (h.levels.nodup_side hs)
    (by rw [List.length_map]; exact h.levels.length_le hs), List.filterMap_map, List.map_map,
    ← List.filterMap_eq_map]
  refine List.filterMap_congr fun r hr => ?_
  obtain ⟨v, hv, hside, hprice, hqueue⟩ := h.queueView_eq hs hr
  simp only [Function.comp_apply, hv, Option.map_some, hside, hprice, hqueue]

/-- The prices of a ladder are determined by the live orders. -/
theorem Mirrors.prices_eq (h : m.Mirrors addr ladder l) (h' : m'.Mirrors addr' ladder' l)
    (hs : side.Directional) : (ladder side).map Rung.price = (ladder' side).map Rung.price := by
  have hirrefl : Std.Irrefl fun p q : Int => addAfter side q p = true :=
    ⟨fun p hp => by rw [addAfter_irrefl] at hp; cases hp⟩
  have hantisymm : Std.Antisymm fun p q : Int => addAfter side q p = true :=
    ⟨fun p q hpq hqp => by rw [addAfter_asymm hs hpq] at hqp; cases hqp⟩
  refine List.Pairwise.eq_of_mem_iff (r := fun p q : Int => addAfter side q p = true)
    (List.pairwise_map.mpr (h.levels.sides side hs).sorted)
    (List.pairwise_map.mpr (h'.levels.sides side hs).sorted) fun price => ?_
  rw [List.mem_map, List.mem_map]
  exact (h.rung side hs price).trans (h'.rung side hs price).symm

/-- **Two books that mirror the same orders look the same.** -/
theorem Mirrors.view_unique (h : m.Mirrors addr ladder l) (h' : m'.Mirrors addr' ladder' l)
    (hs : side.Directional) : m.view side = m'.view side := by
  rw [h.view_eq hs, h'.view_eq hs, h.prices_eq h' hs]

theorem Shows.bbo_unique (h : m.Shows l) (h' : m'.Shows l) : m.bbo = m'.bbo := by
  have hbid := (h .buy (.inl rfl)).unique (.inl rfl) (h' .buy (.inl rfl))
  have hask := (h .sell (.inr rfl)).unique (.inr rfl) (h' .sell (.inr rfl))
  have h1 : (m.bbo.bidPrice, m.bbo.bidQty) = (m'.bbo.bidPrice, m'.bbo.bidQty) := hbid
  have h2 : (m.bbo.askPrice, m.bbo.askQty) = (m'.bbo.askPrice, m'.bbo.askQty) := hask
  cases hm : m.bbo
  cases hm' : m'.bbo
  simp_all

end View

/-! ## 2. Feeding a snapshot -/

/-- The updates a book of a symbol gets from a snapshot cycle. -/
def ofSymbol (symbolId : Nat) (messages : List MarketDataPublisherMarketUpdate) :
    List MatchingEngineMarketUpdate :=
  (messages.map (·.update)).filter fun u =>
    (u.type = .clear ∨ u.type = .add) ∧ u.symbolId = symbolId

/-- **The part of a cycle for one symbol**: a clear and its orders. -/
theorem ofSymbol_cycle {symbol : Nat} (hsym : symbol < kMaxSymbols) (M : Market) (n : Nat) :
    ofSymbol symbol (numbered 0 (SnapshotSynthesizer.Mirrors.cycleMessages M n)) =
      ⟨.clear, symbol, 0, .unset, 0, 0, 0⟩ :: (M symbol).map (·.snapshot symbol) := by
  have hpart : ∀ s, ((⟨.clear, s, 0, .unset, 0, 0, 0⟩ :: (M s).map (·.snapshot s) :
      List MatchingEngineMarketUpdate).filter fun u =>
        (u.type = .clear ∨ u.type = .add) ∧ u.symbolId = symbol) =
      if s = symbol then ⟨.clear, s, 0, .unset, 0, 0, 0⟩ :: (M s).map (·.snapshot s) else [] := by
    intro s
    split
    · next heq =>
      refine List.filter_eq_self.mpr fun u hu => ?_
      rcases List.mem_cons.mp hu with rfl | hu
      · simp [heq]
      · obtain ⟨o, -, rfl⟩ := List.mem_map.mp hu
        simp [LiveOrder.snapshot, heq]
    · next hne =>
      refine List.filter_eq_nil_iff.mpr fun u hu => ?_
      rcases List.mem_cons.mp hu with rfl | hu
      · simp [hne]
      · obtain ⟨o, -, rfl⟩ := List.mem_map.mp hu
        simp [LiveOrder.snapshot, hne]
  have hflat : ∀ ids : List Nat, ids.Nodup → symbol ∈ ids → (ids.flatMap fun s =>
      if s = symbol then (⟨.clear, s, 0, .unset, 0, 0, 0⟩ :: (M s).map (·.snapshot s) :
        List MatchingEngineMarketUpdate) else []) =
      ⟨.clear, symbol, 0, .unset, 0, 0, 0⟩ :: (M symbol).map (·.snapshot symbol) := by
    intro ids hnd hmem
    induction ids with
    | nil => cases hmem
    | cons i ids ih =>
      obtain ⟨hnot, hnd⟩ := List.nodup_cons.mp hnd
      rw [List.flatMap_cons]
      rcases List.mem_cons.mp hmem with rfl | hmem
      · rw [if_pos rfl, List.flatMap_eq_nil_iff.mpr, List.append_nil]
        exact fun j hj => if_neg fun heq : j = symbol => hnot (heq ▸ hj)
      · have hne : i ≠ symbol := fun heq => hnot (heq ▸ hmem)
        rw [if_neg hne, List.nil_append, ih hnd hmem]
  rw [ofSymbol, map_update_numbered, SnapshotSynthesizer.Mirrors.cycleMessages, List.filter_append,
    List.filter_cons_of_neg (by simp), List.filter_flatMap]
  simp only [hpart]
  rw [hflat _ List.nodup_range (List.mem_range.mpr hsym)]
  simp

/-- **A clear and the orders of a consistent list** are applicable in any state, and lead to the
list. -/
theorem snapshot_applicable {l : List LiveOrder} (h : Consistent kDefaultPriceBand l)
    (symbol : Nat) (before : List LiveOrder) :
    Run.AlongRun replay Applicable before
        (⟨.clear, symbol, 0, .unset, 0, 0, 0⟩ :: l.map (·.snapshot symbol)) ∧
      (⟨.clear, symbol, 0, .unset, 0, 0, 0⟩ :: l.map (·.snapshot symbol)).foldl replay before =
      l := by
  have hadds : ∀ l₂ l₁, l = l₁ ++ l₂ →
      Run.AlongRun replay Applicable l₁ (l₂.map (·.snapshot symbol)) ∧
        (l₂.map (·.snapshot symbol)).foldl replay l₁ = l := by
    intro l₂
    induction l₂ with
    | nil => exact fun l₁ hl => ⟨trivial, by rw [hl, List.append_nil]; rfl⟩
    | cons o l₂ ih =>
      intro l₁ hl
      have ho : o ∈ l := hl ▸ by simp
      have hbefore : ∀ o' ∈ l₁, o' ∈ l ∧ o'.orderId < o.orderId := fun o' ho' => by
        have hasc := h.ascending
        rw [hl, List.pairwise_append] at hasc
        exact ⟨hl ▸ List.mem_append_left _ ho', hasc.2.2 o' ho' o List.mem_cons_self⟩
      obtain ⟨hrun, hfold⟩ := ih (l₁ ++ [o]) (by rw [hl]; simp)
      refine ⟨⟨⟨h.small o ho, fun o' ho' => Nat.ne_of_lt (hbefore o' ho').2, h.sides o ho,
        fun o' ho' hcell => ?_⟩, hrun⟩, hfold⟩
      have hprice := priceToIndex_inj (h.prices o' (hbefore o' ho').1) (h.prices o ho) hcell
      exact ⟨h.apart o' (hbefore o' ho').1 o ho hprice, hprice⟩
  obtain ⟨hrun, hfold⟩ := hadds l [] rfl
  exact ⟨⟨trivial, hrun⟩, hfold⟩

/-- The states a book can be in: any updates that are applicable where they arrive. -/
def Reachable (m : MarketOrderBook) : Prop :=
  ∃ us, Run.AlongRun replay Applicable [] us ∧ us.foldlM onMarketUpdate init = .ok m

/-- **A snapshot rebuilds the book of the stream.**  For any point of the published stream and any
book, feeding the part of the snapshot cycle for a symbol gives the levels, the queues and the best
bid and offer of a new book that is fed the updates of that symbol.  A cycle lists the orders by
ascending id, and so are the exchange's queues: a new order has the largest id so far and goes to
the end of its queue.  What is compared is what a reader sees along the links, not the slots of the
pools, which differ. -/
theorem snapshot_rebuilds (requests : List MatchingEngineClientRequest)
    (hdoc : ∀ r ∈ requests, r.Documented) (hfew : IndexedBooks.Few .empty requests) :
    ∃ engine, MatchingEngine.run requests = .ok engine ∧
      ∀ us, us <+: engine.outgoingMarketUpdates →
        (∀ vs, vs <+: us → (vs.foldl replayMarket .empty).total ≤ kMaxOrderIds) →
        ∃ s cycle, (MarketDataPublisher.run us).snapshotMdUpdates.foldlM
            SnapshotSynthesizer.addToSnapshot .init = .ok s ∧ s.publishSnapshot = .ok cycle ∧
          ∀ symbol, symbol < kMaxSymbols → ∀ m : MarketOrderBook, m.Reachable →
            ∃ m₁ m₂, (ofSymbol symbol cycle).foldlM onMarketUpdate m = .ok m₁ ∧
              (us.filter fun u => u.symbolId = symbol).foldlM onMarketUpdate init = .ok m₂ ∧
              (∀ side, side.Directional → m₁.view side = m₂.view side) ∧ m₁.bbo = m₂.bbo := by
  obtain ⟨engine, xs, hrun, -, hpub, -⟩ := MatchingEngine.run_published hdoc hfew
  refine ⟨engine, hrun, fun us hus hroom => ?_⟩
  obtain ⟨rest, hrest⟩ := hus
  rw [← hrest, Run.alongRun_append] at hpub
  obtain ⟨s, addr, hs, h⟩ :=
    (SnapshotSynthesizer.mirrors_init fun _ => id).foldlM hpub.1 hroom
  rw [Nat.zero_add] at h
  have hcons : ∀ symbol, Consistent kDefaultPriceBand (us.foldl replayMarket .empty symbol) :=
    fun symbol => by
      rw [foldl_replayMarket_at]
      exact (published_at symbol hpub.1).inv (I := Consistent kDefaultPriceBand)
        (fun _ _ hl hp => Published.consistent hl hp) (Consistent.nil _)
  refine ⟨s, _, by rw [(run_publish us).2]; exact hs,
    h.publishSnapshot_eq fun symbol _ => (hcons symbol).ascending, fun symbol hsym m hm => ?_⟩
  obtain ⟨vs, hvs, hmrun⟩ := hm
  obtain ⟨m', addr', ladder', hm', hmir', hshow'⟩ := (mirrors_init id).foldlM shows_init hvs
  obtain rfl := Except.ok.inj (hmrun.symm.trans hm')
  obtain ⟨happ, hfold⟩ := snapshot_applicable (hcons symbol) symbol (vs.foldl replay [])
  obtain ⟨m₁, addr₁, ladder₁, hm₁, hmir₁, hshow₁⟩ := hmir'.foldlM hshow' happ
  obtain ⟨m₂, addr₂, ladder₂, hm₂, hmir₂, hshow₂⟩ := (mirrors_init id).foldlM shows_init
    (applicable_of_published (Consistent.nil _) (published_at symbol hpub.1))
  rw [hfold] at hmir₁ hshow₁
  have hfold₂ : (us.filter fun u => u.symbolId = symbol).foldl replay [] =
      us.foldl replayMarket .empty symbol := (foldl_replayMarket_at symbol (M := .empty)).symm
  rw [hfold₂] at hmir₂ hshow₂
  exact ⟨m₁, m₂, by rw [ofSymbol_cycle hsym]; exact hm₁, hm₂,
    fun side hside => hmir₁.view_unique hmir₂ hside, hshow₁.bbo_unique hshow₂⟩

/-- Two orders of one price and one of another symbol. -/
theorem snapshot_rebuilds_queue :
    ∃ engine, MatchingEngine.run [⟨.new, 1, 0, 1, .sell, 105, 10⟩, ⟨.new, 2, 0, 1, .sell, 105, 4⟩,
        ⟨.new, 1, 5, 2, .buy, 7, 4⟩] = .ok engine ∧
      ∀ us, us <+: engine.outgoingMarketUpdates →
        (∀ vs, vs <+: us → (vs.foldl replayMarket .empty).total ≤ kMaxOrderIds) →
        ∃ s cycle, (MarketDataPublisher.run us).snapshotMdUpdates.foldlM
            SnapshotSynthesizer.addToSnapshot .init = .ok s ∧ s.publishSnapshot = .ok cycle ∧
          ∀ symbol, symbol < kMaxSymbols → ∀ m : MarketOrderBook, m.Reachable →
            ∃ m₁ m₂, (ofSymbol symbol cycle).foldlM onMarketUpdate m = .ok m₁ ∧
              (us.filter fun u => u.symbolId = symbol).foldlM onMarketUpdate init = .ok m₂ ∧
              (∀ side, side.Directional → m₁.view side = m₂.view side) ∧ m₁.bbo = m₂.bbo :=
  snapshot_rebuilds _ (by decide) (by decide)

end MarketOrderBook

end YQuant
