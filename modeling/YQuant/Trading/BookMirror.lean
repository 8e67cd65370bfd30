/-
# The client's book follows the exchange's book

`onMarketUpdate` is put together from the steps of a mirrored book and the refresh of the best bid
and offer.  `IsTop` says what the best price and its quantity are of a list of live orders; the
source refreshes a side only when the update reaches its best level, and `IsTop.congr` is why that
is enough.

An update is `Applicable` when the book can rely on what the source takes for granted: a new order
has a fresh id and finds only orders of its own side and price in the cell of the level table that
its price selects; a modified or cancelled order is live where the update says it is.  Every update
that a book publishes is applicable where it arrives (`Published.applicable`).

`follows_prefix` is the result for whole runs: a client's book that is fed any prefix of what an
exchange's book publishes mirrors the orders that rest there.

What has to be shown of the refresh is that nothing is left out: an update behind the best level,
or of the other side, cannot change the best price or its quantity (`Mirrors.sideUpdated_spec`).
The refresh adds up a queue in 32 bits, and `IsTop` has the same sum, so the comparison with the
exchange's total is made elsewhere (`BestBidOffer.lean`).
-/
import YQuant.Matcher.Cancellable
import YQuant.Trading.MirrorSteps

namespace YQuant

/-- One side of the best bid and offer. -/
def BBO.side (b : BBO) (side : Side) : Int × Nat :=
  if side = .buy then (b.bidPrice, b.bidQty) else (b.askPrice, b.askQty)

namespace MarketOrderBook

/-! ## 1. The best level of a side -/

/-- The quantity of a queue, as a 32-bit counter adds it up. -/
def totalQty : List LiveOrder → Nat
  | [] => 0
  | o :: os => os.foldl (fun qty o => (qty + o.quantity) % kWord32) o.quantity

/-- `t` is the best price of a side and its quantity; zero and zero for an empty side. -/
def IsTop (l : List LiveOrder) (side : Side) (t : Int × Nat) : Prop :=
  (t = (0, 0) ∧ ∀ o ∈ l, o.side ≠ side) ∨
    ((∃ o ∈ l, o.At side t.1) ∧
      (∀ o ∈ l, o.side = side → o.price = t.1 ∨ addAfter side o.price t.1 = true) ∧
      t.2 = totalQty (restingAt l side t.1))

section Top

variable {l l' : List LiveOrder} {side : Side} {t t' : Int × Nat}

theorem IsTop.unique (hs : side.Directional) (h : IsTop l side t) (h' : IsTop l side t') :
    t = t' := by
  rcases h with ⟨rfl, hempty⟩ | ⟨⟨o, ho, hat⟩, hbest, hqty⟩
  · rcases h' with ⟨rfl, -⟩ | ⟨⟨o, ho, hat⟩, -⟩
    · rfl
    · exact absurd hat.1 (hempty o ho)
  · rcases h' with ⟨-, hempty⟩ | ⟨⟨o', ho', hat'⟩, hbest', hqty'⟩
    · exact absurd hat.1 (hempty o ho)
    · have hprice : t.1 = t'.1 := by
        rcases hbest' o ho hat.1 with h1 | h1
        · exact hat.2.symm.trans h1
        · rcases hbest o' ho' hat'.1 with h2 | h2
          · exact h2.symm.trans hat'.2
          · rw [hat.2] at h1
            rw [hat'.2] at h2
            rw [addAfter_asymm hs h1] at h2
            cases h2
      exact Prod.ext hprice (by rw [hqty, hqty', hprice])

/-- **An update that does not reach the best level leaves it the best one.** -/
theorem IsTop.congr (h : IsTop l side t) {uside : Side} {uprice : Int}
    (hoff : ∀ price, (side = uside → price ≠ uprice) →
      restingAt l' side price = restingAt l side price)
    (hbehind : side = uside → (∃ o ∈ l, o.side = side) ∧ addAfter side uprice t.1 = true) :
    IsTop l' side t := by
  have hmem : ∀ o, o ∈ l' → o.side = side → (side = uside → o.price ≠ uprice) → o ∈ l :=
    fun o ho hside hne => (mem_restingAt.mp
      (hoff o.price hne ▸ mem_restingAt.mpr ⟨ho, hside, rfl⟩ : o ∈ restingAt l side o.price)).1
  rcases h with ⟨rfl, hempty⟩ | ⟨⟨o, ho, hat⟩, hbest, hqty⟩
  · have hne : side ≠ uside := fun heq => by
      obtain ⟨⟨o, ho, hside⟩, -⟩ := hbehind heq
      exact hempty o ho hside
    exact .inl ⟨rfl, fun o ho hside => hempty o (hmem o ho hside fun h => absurd h hne) hside⟩
  · have htop : side = uside → t.1 ≠ uprice := fun heq hprice => by
      have := (hbehind heq).2
      rw [hprice, addAfter_irrefl] at this
      cases this
    refine .inr ⟨⟨o, ?_, hat⟩, fun o' ho' hside => ?_, by rw [hoff _ htop, hqty]⟩
    · exact (mem_restingAt.mp
        (hoff t.1 htop ▸ mem_restingAt.mpr ⟨ho, hat⟩ : o ∈ restingAt l' side t.1)).1
    · by_cases hreach : side = uside ∧ o'.price = uprice
      · exact .inr (hreach.2 ▸ (hbehind hreach.1).2)
      · exact hbest o' (hmem o' ho' hside fun h1 h2 => hreach ⟨h1, h2⟩) hside

end Top

/-- **The best bid and offer are those of the live orders.** -/
def Shows (m : MarketOrderBook) (l : List LiveOrder) : Prop :=
  ∀ side, side.Directional → IsTop l side (m.bbo.side side)

theorem shows_init : init.Shows [] := fun side _ => .inl ⟨by simp [BBO.side, init], by simp⟩

/-! ## 2. Refreshing the best level -/

section Refresh

variable {m : MarketOrderBook} {addr : Nat → Nat} {ladder : Side → List Rung}
  {l : List LiveOrder} {side : Side}

/-- **Adding up a queue.** -/
theorem sumQty_spec {p : MemPool MarketOrder} {f : Nat} {s : List LiveOrder} :
    ∀ (qty : Nat) {fuel : Nat} {prev : Option Nat},
      (∀ o ∈ s, ∃ n, p.object? (addr o.orderId) = some n ∧ Holds n o) →
      Links.Seg (orderLinks.nx p) (orderLinks.pv p) prev (s.map fun o => addr o.orderId) (some f) →
      f ∉ s.map (fun o => addr o.orderId) → s.length < fuel →
      sumQty p (some f) fuel ((s.map fun o => addr o.orderId).head?.or (some f)) qty =
        .ok (s.foldl (fun qty o => (qty + o.quantity) % kWord32) qty) := by
  induction s with
  | nil =>
    intro qty fuel prev _ _ _ hfuel
    obtain ⟨k, rfl⟩ := Nat.exists_eq_add_of_lt hfuel
    simp [sumQty]
  | cons o s ih =>
    intro qty fuel prev hnode hseg hf hfuel
    obtain ⟨k, rfl⟩ : ∃ k, fuel = k + 1 := ⟨fuel - 1, by omega⟩
    rw [List.map_cons] at hseg hf
    obtain ⟨-, hnext, hrest⟩ := hseg
    obtain ⟨n, hn, hholds⟩ := hnode o List.mem_cons_self
    have hne : ¬ some (addr o.orderId) = some f := fun heq =>
      hf (Option.some.inj heq ▸ List.mem_cons_self)
    have hnext' : n.nextOrder = (s.map fun o => addr o.orderId).head?.or (some f) :=
      (LinkFields.nx_of_object (L := orderLinks) hn).symm.trans hnext
    rw [List.map_cons, List.head?_cons, Option.some_or, sumQty, if_neg hne, MemPool.deref_some hn,
      ok_bind, hnext', hholds.qty, List.foldl_cons]
    exact ih _ (fun o' ho' => hnode o' (List.mem_cons_of_mem _ ho')) hrest
      (fun hmem => hf (List.mem_cons_of_mem _ hmem)) (by rw [List.length_cons] at hfuel; omega)

/-- The top of a side as its ladder has it. -/
theorem Mirrors.isTop (h : m.Mirrors addr ladder l) (hs : side.Directional) :
    ∃ t, m.topOfSide (m.bestOrdersByPrice side) = .ok t ∧ IsTop l side t ∧
      ∀ r rest, ladder side = r :: rest → t.1 = r.price := by
  have hlad := h.levels.sides side hs
  have hbest := hlad.best
  cases hc : ladder side with
  | nil =>
    rw [hc] at hbest
    refine ⟨(0, 0), by rw [hbest]; rfl, .inl ⟨rfl, fun o ho hside => ?_⟩, by simp⟩
    obtain ⟨r, hr, -⟩ := h.exists_rung ho
    rw [hside, hc] at hr
    cases hr
  | cons r rest =>
    have hr : r ∈ ladder side := by rw [hc]; exact List.mem_cons_self
    rw [hc, List.map_cons, List.head?_cons] at hbest
    obtain ⟨v, hv, hfirst, hring⟩ := h.queue side hs r hr
    obtain ⟨w, hw, -, hprice⟩ := hlad.entry r hr
    obtain rfl := Option.some.inj (hv.symm.trans hw)
    obtain ⟨o, ho, hat⟩ := h.exists_order hs hr
    refine ⟨(r.price, totalQty (restingAt l side r.price)), ?_,
      .inr ⟨⟨o, ho, hat⟩, fun o' ho' hside => ?_, rfl⟩, fun r' rest' heq => ?_⟩
    · cases hq : restingAt l side r.price with
      | nil => exact absurd hq ((h.rung side hs r.price).mp ⟨r, hr, rfl⟩)
      | cons f s =>
        have hnd := h.orders.slotsAt_nodup side r.price
        rw [slotsAt, hq, List.map_cons] at hfirst hring hnd
        obtain ⟨-, hnext, hrest⟩ := hring
        have hnode : ∀ o ∈ f :: s, ∃ n, m.orderPool.object? (addr o.orderId) = some n ∧
            Holds n o := fun o ho => h.orders.node o (mem_restingAt.mp (hq ▸ ho)).1
        obtain ⟨n, hn, hholds⟩ := hnode f List.mem_cons_self
        have hlen : s.length < kMaxOrderIds + 1 := by
          have hle := h.orders.pool.length_le
          rw [h.orders.capacity, List.length_map] at hle
          have hsub := (List.filter_sublist (p := fun o => decide (o.At side r.price))
            (l := l)).length_le
          have heq : (l.filter fun o => decide (o.At side r.price)).length = s.length + 1 :=
            congrArg List.length hq
          omega
        have hnext' : n.nextOrder =
            (s.map fun o => addr o.orderId).head?.or (some (addr f.orderId)) :=
          (LinkFields.nx_of_object (L := orderLinks) hn).symm.trans hnext
        have hfirst' : v.firstMktOrder = some (addr f.orderId) := hfirst
        have hsum := sumQty_spec f.quantity
          (fun o ho => hnode o (List.mem_cons_of_mem _ ho)) hrest (List.nodup_cons.mp hnd).1 hlen
        simp only [topOfSide, hbest, reduceCtorEq, if_false, MemPool.deref_some hv, ok_bind,
          hfirst', MemPool.deref_some hn, hnext', hholds.qty, hsum, hprice, totalQty]
    · obtain ⟨r', hr', hprice'⟩ := h.exists_rung ho'
      rw [hside, hc] at hr'
      rcases List.mem_cons.mp hr' with rfl | hr'
      · exact .inl hprice'.symm
      · have hsorted := hlad.sorted
        rw [hc, List.pairwise_cons] at hsorted
        exact .inr (hprice' ▸ hsorted.1 r' hr')
    · rw [← (List.cons.inj heq).1]

/-- An update that does not refresh a side is behind its best level, or on the other side. -/
theorem Mirrors.sideUpdated_spec (h : m.Mirrors addr ladder l) (hs : side.Directional)
    {u : MatchingEngineMarketUpdate} (hclear : u.type ≠ .clear) (atLeast : Int → Bool)
    (hatLeast : ∀ best, atLeast best = false → addAfter side u.price best = true)
    {t : Int × Nat} (ht : IsTop l side t) :
    ∃ b, m.sideUpdated u side atLeast = .ok b ∧ (b = false → side = u.side →
      (∃ o ∈ l, o.side = side) ∧ addAfter side u.price t.1 = true) := by
  rw [sideUpdated, if_neg hclear]
  split
  · have hlad := h.levels.sides side hs
    have hbest := hlad.best
    obtain ⟨t', -, ht', hhead⟩ := h.isTop hs
    rw [reachesBest]
    cases hc : ladder side with
    | nil =>
      rw [hc] at hbest
      exact ⟨true, by rw [hbest]; rfl, fun hb => Bool.noConfusion hb⟩
    | cons r rest =>
      rw [hc, List.map_cons, List.head?_cons] at hbest
      have hr : r ∈ ladder side := by rw [hc]; exact List.mem_cons_self
      obtain ⟨v, hv, -, hprice⟩ := hlad.entry r hr
      refine ⟨atLeast r.price, ?_, fun hb _ => ⟨?_, ?_⟩⟩
      · simp [hbest, MemPool.read, MemPool.deref_some hv, hprice]
      · obtain ⟨o, ho, hat⟩ := h.exists_order hs hr
        exact ⟨o, ho, hat.1⟩
      · rw [ht.unique hs ht', hhead r rest hc]
        exact hatLeast _ hb
  · next hne => exact ⟨false, rfl, fun _ heq => absurd heq.symm hne⟩

/-- **The refresh**: a side that is not refreshed was right already. -/
theorem Mirrors.updateBBO_spec (h : m.Mirrors addr ladder l) (bid ask : Bool)
    (hbid : bid = false → IsTop l .buy (m.bbo.side .buy))
    (hask : ask = false → IsTop l .sell (m.bbo.side .sell)) :
    ∃ m', m.updateBBO bid ask = .ok m' ∧ m'.Mirrors addr ladder l ∧ m'.Shows l := by
  obtain ⟨⟨bp, bq⟩, hb, hbt, -⟩ := h.isTop (.inl rfl : Side.buy.Directional)
  obtain ⟨⟨ap, aq⟩, ha, hat, -⟩ := h.isTop (.inr rfl : Side.sell.Directional)
  have hmir : ∀ bbo, Mirrors { m with bbo := bbo } addr ladder l := fun bbo =>
    ⟨h.orders, ⟨h.levels.pool, h.levels.capacity, h.levels.sides, h.levels.table⟩, h.rung, h.queue⟩
  have hb' : ∀ bbo, topOfSide { m with bbo := bbo } m.bidsByPrice = .ok (bp, bq) := fun _ => hb
  have ha' : ∀ bbo, topOfSide { m with bbo := bbo } m.asksByPrice = .ok (ap, aq) := fun _ => ha
  have key : ∀ bbo, IsTop l .buy (BBO.side bbo .buy) → IsTop l .sell (BBO.side bbo .sell) →
      Shows { m with bbo := bbo } l := fun bbo h1 h2 side hs => by
    rcases hs with rfl | rfl
    · exact h1
    · exact h2
  cases bid <;> cases ask
  · exact ⟨m, rfl, h, key m.bbo (hbid rfl) (hask rfl)⟩
  · exact ⟨{ m with bbo := { m.bbo with askPrice := ap, askQty := aq } },
      by simp [updateBBO, updateAsk, show m.topOfSide m.asksByPrice = _ from ha], hmir _,
      key _ (hbid rfl) hat⟩
  · exact ⟨{ m with bbo := { m.bbo with bidPrice := bp, bidQty := bq } },
      by simp [updateBBO, updateBid, show m.topOfSide m.bidsByPrice = _ from hb], hmir _,
      key _ hbt (hask rfl)⟩
  · exact ⟨{ m with bbo := ⟨bp, ap, bq, aq⟩ },
      by simp [updateBBO, updateBid, updateAsk, show m.topOfSide m.bidsByPrice = _ from hb, ha'],
      hmir _, key _ hbt hat⟩

end Refresh

/-! ## 3. One update -/

/-- What an update needs of the live orders it meets. -/
def Applicable (l : List LiveOrder) (u : MatchingEngineMarketUpdate) : Prop :=
  match u.type with
  | .add => u.orderId < kMaxOrderIds ∧ (∀ o ∈ l, o.orderId ≠ u.orderId) ∧ u.side.Directional ∧
      ∀ o ∈ l, priceToIndex o.price = priceToIndex u.price → o.side = u.side ∧ o.price = u.price
  | .modify | .cancel => ∃ o ∈ l, o.orderId = u.orderId ∧ o.side = u.side ∧ o.price = u.price
  | .clear | .trade | .invalid | .snapshotStart | .snapshotEnd | .other _ => True

/-- An update changes no queue but the one it names. -/
theorem restingAt_replay {l : List LiveOrder} {u : MatchingEngineMarketUpdate}
    (hids : (l.map LiveOrder.orderId).Nodup) (happ : Applicable l u) (hclear : u.type ≠ .clear)
    {side : Side} {price : Int} (hoff : ¬ (side = u.side ∧ price = u.price)) :
    restingAt (replay l u) side price = restingAt l side price := by
  unfold Applicable at happ
  unfold replay
  cases htype : u.type with
  | add =>
    exact restingAt_snoc_of_ne fun hat => hoff ⟨hat.1.symm, hat.2.symm⟩
  | modify =>
    simp only [htype] at happ
    obtain ⟨o, ho, hid, hside, hprice⟩ := happ
    simp only [restingAt_modify]
    conv_rhs => rw [← List.map_id (restingAt l side price)]
    refine List.map_congr_left fun o' ho' => if_neg fun heq => hoff ?_
    obtain ⟨hl, hat⟩ := mem_restingAt.mp ho'
    obtain rfl := List.inj_on_of_nodup_map hids hl ho (heq.trans hid.symm)
    exact ⟨hat.1.symm.trans hside, hat.2.symm.trans hprice⟩
  | cancel =>
    simp only [htype] at happ
    obtain ⟨o, ho, hid, hside, hprice⟩ := happ
    simp only [← hid]
    exact restingAt_cancel_of_ne hids ho fun hat =>
      hoff ⟨hat.1.symm.trans hside, hat.2.symm.trans hprice⟩
  | clear => exact absurd htype hclear
  | invalid | trade | snapshotStart | snapshotEnd | other => rfl

section Update

variable {m : MarketOrderBook} {addr : Nat → Nat} {ladder : Side → List Rung}
  {l : List LiveOrder} {u : MatchingEngineMarketUpdate}

/-- **The update itself.** -/
theorem Mirrors.applyUpdate (h : m.Mirrors addr ladder l) (happ : Applicable l u) :
    ∃ m' addr' ladder', m.applyUpdate u = .ok m' ∧ m'.Mirrors addr' ladder' (replay l u) ∧
      m'.bbo = m.bbo := by
  have hfind : ∀ o ∈ l, m.orderOf o.orderId = .ok (some (addr o.orderId)) := fun o ho => by
    rw [orderOf, if_pos (h.orders.small o ho), h.orders.table, if_pos ⟨o, ho, rfl⟩]
  unfold Applicable at happ
  unfold MarketOrderBook.applyUpdate replay
  cases htype : u.type with
  | add =>
    simp only [htype] at happ
    obtain ⟨hsmall, hfresh, hside, hcell⟩ := happ
    obtain ⟨a, p, m', ladder', halloc, hadd, hm', hbbo⟩ := h.add
      (o := ⟨u.orderId, u.side, u.price, u.quantity, u.priority⟩) hsmall hside hfresh hcell
    have halloc' : m.orderPool.allocate
        ⟨u.orderId, u.side, u.price, u.quantity, u.priority, none, none⟩ = .ok (a, p) := halloc
    exact ⟨m', _, ladder', by simp only [halloc', ok_bind, hadd], hm', hbbo⟩
  | modify =>
    simp only [htype] at happ
    obtain ⟨o, ho, hid, -, -⟩ := happ
    obtain ⟨p', hp', hm'⟩ := h.modify ho u.quantity
    simp only [← hid, hfind o ho, ok_bind, hp']
    exact ⟨_, addr, ladder, rfl, hm', rfl⟩
  | cancel =>
    simp only [htype] at happ
    obtain ⟨o, ho, hid, -, -⟩ := happ
    obtain ⟨m', ladder', hremove, hm', hbbo⟩ := h.cancel ho
    simp only [← hid, hfind o ho, ok_bind, hremove]
    exact ⟨m', addr, ladder', rfl, hm', hbbo⟩
  | clear =>
    obtain ⟨m', hclear, hm', hbbo⟩ := h.clear
    exact ⟨m', addr, _, hclear, hm', hbbo⟩
  | invalid | trade | snapshotStart | snapshotEnd | other => exact ⟨m, addr, ladder, rfl, h, rfl⟩

/-- **An applicable update**: no fault, and the book mirrors the live orders after it. -/
theorem Mirrors.onMarketUpdate (h : m.Mirrors addr ladder l) (hshow : m.Shows l)
    (happ : Applicable l u) : ∃ m' addr' ladder', m.onMarketUpdate u = .ok m' ∧
      m'.Mirrors addr' ladder' (replay l u) ∧ m'.Shows (replay l u) := by
  obtain ⟨m₁, addr', ladder', happly, hm₁, hbbo⟩ := h.applyUpdate happ
  by_cases hclear : u.type = .clear
  · obtain ⟨m', hupdate, hm', hshow'⟩ := hm₁.updateBBO_spec true true
      (fun hb => Bool.noConfusion hb) fun hb => Bool.noConfusion hb
    exact ⟨m', addr', ladder', by simp [MarketOrderBook.onMarketUpdate, sideUpdated, hclear, happly,
      hupdate], hm', hshow'⟩
  · obtain ⟨bid, hbid, hbidOff⟩ := h.sideUpdated_spec (.inl rfl : Side.buy.Directional) hclear
      (fun best => decide (u.price ≥ best))
      (fun best hb => by simpa [addAfter] using hb) (hshow _ (.inl rfl))
    obtain ⟨ask, hask, haskOff⟩ := h.sideUpdated_spec (.inr rfl : Side.sell.Directional) hclear
      (fun best => decide (u.price ≤ best))
      (fun best hb => by simpa [addAfter] using hb) (hshow _ (.inr rfl))
    have hkeep : ∀ side t, IsTop l side t → (side = u.side → (∃ o ∈ l, o.side = side) ∧
        addAfter side u.price t.1 = true) → IsTop (replay l u) side t := fun side t ht hoff =>
      ht.congr (fun price hne => restingAt_replay h.orders.ids happ hclear
        fun heq => hne heq.1 heq.2) hoff
    obtain ⟨m', hupdate, hm', hshow'⟩ := hm₁.updateBBO_spec bid ask
      (fun hb => hbbo ▸ hkeep _ _ (hshow _ (.inl rfl)) (hbidOff hb))
      (fun hb => hbbo ▸ hkeep _ _ (hshow _ (.inr rfl)) (haskOff hb))
    cases htype : u.type with
    | add | modify | cancel | other =>
      exact ⟨m', addr', ladder', by simp only [MarketOrderBook.onMarketUpdate, hbid, hask, happly,
        ok_bind, htype, hupdate], hm', hshow'⟩
    | clear => exact absurd htype hclear
    | invalid | trade | snapshotStart | snapshotEnd =>
      -- the update leaves the live orders alone
      have hsame : replay l u = l := by simp [replay, htype]
      refine ⟨m₁, addr', ladder', by simp only [MarketOrderBook.onMarketUpdate, hbid, hask, happly,
        ok_bind, htype], hm₁, fun side hs => ?_⟩
      rw [hsame, hbbo]
      exact hshow side hs

/-- **A list of applicable updates.** -/
theorem Mirrors.foldlM {us : List MatchingEngineMarketUpdate} :
    ∀ {m : MarketOrderBook} {addr : Nat → Nat} {ladder : Side → List Rung} {l : List LiveOrder},
      m.Mirrors addr ladder l → m.Shows l → Run.AlongRun replay Applicable l us →
      ∃ m' addr' ladder', us.foldlM MarketOrderBook.onMarketUpdate m = .ok m' ∧
        m'.Mirrors addr' ladder' (us.foldl replay l) ∧ m'.Shows (us.foldl replay l) := by
  induction us with
  | nil => exact fun h hshow _ => ⟨_, _, _, rfl, h, hshow⟩
  | cons u us ih =>
    intro m addr ladder l h hshow ha
    obtain ⟨m₁, addr₁, ladder₁, hm₁, h₁, hshow₁⟩ := h.onMarketUpdate hshow ha.1
    obtain ⟨m', addr', ladder', hrun, h', hshow'⟩ := ih h₁ hshow₁ ha.2
    exact ⟨m', addr', ladder', Run.foldlM_cons_ok.mpr ⟨m₁, hm₁, hrun⟩, h', hshow'⟩

end Update

end MarketOrderBook

/-! ## 4. What an exchange's book publishes -/

/-- The band is no wider than the level table: two of its prices never share a cell. -/
theorem priceToIndex_inj {price price' : Int} (h : kDefaultPriceBand.InBand price)
    (h' : kDefaultPriceBand.InBand price')
    (heq : MarketOrderBook.priceToIndex price = MarketOrderBook.priceToIndex price') :
    price = price' := by
  obtain ⟨h0, h1, -⟩ := h
  obtain ⟨h0', h1', -⟩ := h'
  simp only [kDefaultPriceBand, kTickCount, kMaxPriceLevels] at h0 h1 h0' h1'
  simp only [MarketOrderBook.priceToIndex, kMaxPriceLevels] at heq
  omega

/-- **What a book publishes is applicable**: ids are fresh because they grow, and no order ever
rests at the price of an opposite order. -/
theorem Published.applicable {l : List LiveOrder} {u : MatchingEngineMarketUpdate}
    (hl : Consistent kDefaultPriceBand l) (h : Published kDefaultPriceBand l u) :
    MarketOrderBook.Applicable l u := by
  have hpub := h
  unfold Published at h
  unfold MarketOrderBook.Applicable
  cases htype : u.type with
  | add =>
    have hapart := hpub.apart hl htype
    simp only [htype] at h ⊢
    obtain ⟨hsmall, hids, hside, hband, -, -⟩ := h
    refine ⟨hsmall, fun o ho => Nat.ne_of_lt (hids o ho), hside, fun o ho hcell => ?_⟩
    have hprice := priceToIndex_inj (hl.prices o ho) hband hcell
    exact ⟨hapart o ho hprice, hprice⟩
  | modify =>
    simp only [htype] at h ⊢
    obtain ⟨o, ho, hid, hside, hprice, -⟩ := h
    exact ⟨o, ho, hid, hside, hprice⟩
  | cancel =>
    simp only [htype] at h ⊢
    exact h
  | clear | invalid | trade | snapshotStart | snapshotEnd | other => trivial

/-- A run of published updates is a run of applicable ones. -/
theorem applicable_of_published {l : List LiveOrder} {us : List MatchingEngineMarketUpdate}
    (hl : Consistent kDefaultPriceBand l)
    (h : Run.AlongRun replay (Published kDefaultPriceBand) l us) :
    Run.AlongRun replay MarketOrderBook.Applicable l us :=
  h.mono_inv (fun _ _ hl h => Published.consistent hl h)
    (fun _ _ hl h => Published.applicable hl h) hl

namespace BookCore

/-- The orders queued at a tick, first to last, read off the links. -/
def ordersAt (b : BookCore) (side : Side) (tick : Nat) : List LiveOrder :=
  (b.queue side tick).filterMap fun a => (b.orderPool.object? a).map fun n =>
    ⟨n.marketOrderId, side, b.band.toPrice tick, n.remainingQuantity, n.priority⟩

theorem Rep.ordersAt_eq {b : BookCore} {addr : Nat → Nat} {x : IndexedBook} (h : b.Rep addr x)
    {side : Side} (hs : side.Directional) (t : Nat) :
    b.ordersAt side t = restingAt x.live side (b.band.toPrice t) := by
  rw [ordersAt, h.queue_eq hs, queueAt, slots, List.filterMap_map, restingAt, IndexedBook.live,
    List.filter_map, ← List.filterMap_eq_map]
  refine List.filterMap_congr fun o ho => ?_
  obtain ⟨ho, hat⟩ := List.mem_filter.mp ho
  obtain ⟨n, hn, hst⟩ := h.node o ho
  obtain ⟨hside, hprice⟩ : o.At side (b.band.toPrice t) := by simpa using hat
  simp only [Function.comp_apply, hn, Option.map_some, Resting.live, hst.marketOrderId,
    hst.remainingQuantity, hst.priority, hside, hprice]

end BookCore

/-- **A client's book that is fed a prefix of what an exchange's book publishes** never faults, and
mirrors the orders that the prefix leaves; what the exchange's book has queued is what its whole
output leaves.  Each update is applicable where it arrives (`Published.applicable`), and what an
applicable update does to a mirrored book is the step (`Mirrors.onMarketUpdate`).  With
`kMaxOrderIds` new orders the id table of the client would be too short (`Lifetime.lean`). -/
theorem MarketOrderBook.follows_prefix (symbolId : Nat) (calls : List BookCall)
    (hdoc : ∀ call ∈ calls, call.Documented kDefaultPriceBand)
    (hfew : IndexedBook.adds calls < kMaxOrderIds) :
    ∃ b, BookCore.run symbolId kDefaultPriceBand calls = .ok b ∧
      (∀ side t, side.Directional → b.ordersAt side t =
        restingAt (b.outgoingMarketUpdates.foldl replay []) side (kDefaultPriceBand.toPrice t)) ∧
      ∀ us, us <+: b.outgoingMarketUpdates → ∃ m addr ladder,
        us.foldlM onMarketUpdate init = .ok m ∧ m.Mirrors addr ladder (us.foldl replay []) ∧
        m.Shows (us.foldl replay []) ∧ m.orderPool.inUse = (us.foldl replay []).length ∧
        m.ordersAtPricePool.inUse = (allRungs ladder).length := by
  obtain ⟨b, x, hrun, hsim, hpub, hfold⟩ :=
    BookCore.run_published symbolId (by decide) hdoc hfew
  obtain ⟨addr, hrep⟩ := hsim.rep
  refine ⟨b, hrun, fun side t hs => ?_, fun us hus => ?_⟩
  · rw [hrep.ordersAt_eq hs, hfold, hsim.band]
  · obtain ⟨rest, hrest⟩ := hus
    rw [← hrest, Run.alongRun_append] at hpub
    obtain ⟨m, addr', ladder, hm, hmir, hshow⟩ := (mirrors_init id).foldlM shows_init
      (applicable_of_published (Consistent.nil _) hpub.1)
    refine ⟨m, addr', ladder, hm, hmir, hshow, ?_, ?_⟩
    · rw [hmir.orders.pool.inUse, List.length_map]
    · rw [hmir.levels.pool.inUse, List.length_map]

/-- Two sells at different prices, a buy that takes the better one and rests, and a cancel. -/
theorem MarketOrderBook.follows_prefix_sweep :
    ∃ b, BookCore.run 0 kDefaultPriceBand [.add 1 1 .sell 105 10, .add 2 1 .sell 103 4,
        .add 3 1 .buy 104 9, .cancel 1 1] = .ok b ∧
      (∀ side t, side.Directional → b.ordersAt side t =
        restingAt (b.outgoingMarketUpdates.foldl replay []) side (kDefaultPriceBand.toPrice t)) ∧
      ∀ us, us <+: b.outgoingMarketUpdates → ∃ m addr ladder,
        us.foldlM onMarketUpdate init = .ok m ∧ m.Mirrors addr ladder (us.foldl replay []) ∧
        m.Shows (us.foldl replay []) ∧ m.orderPool.inUse = (us.foldl replay []).length ∧
        m.ordersAtPricePool.inUse = (allRungs ladder).length :=
  follows_prefix 0 _ (by decide) (by decide)

end YQuant
