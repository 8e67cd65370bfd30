/-
# What an update does to a mirrored book

A new order joins the queue of its price (`Mirrors.join`) or opens a level (`Mirrors.open`), a
modified one keeps its place (`Mirrors.modify`), one that leaves is unlinked (`Mirrors.leaveQueue`)
or takes its level with it (`Mirrors.close`), and a clear gives every slot back (`Mirrors.clear`).
None of them meets a null or dangling pointer.

Each proof has the same two halves.  The links of one queue, or of one side, come out as a `Ring`
with one cell more or less; and everything that is not linked there keeps what it had
(`Mirrors.of_add`, `Mirrors.of_cancel`).  The level of a queue points to its first order, so it has
to follow when that order leaves (`Levels.moveFirst`).

What is not asked of the updates is that they make sense as a market.  They may cross, a modified
order may grow, and the ids may come in any order; an update has only to name what is there.
-/
import YQuant.Trading.Mirror

namespace YQuant
namespace MarketOrderBook

/-! ## 1. A new order -/

section Add

variable {m : MarketOrderBook} {addr : Nat → Nat} {ladder : Side → List Rung}
  {l : List LiveOrder} {o : LiveOrder} {r : Rung} {a : Nat} {p : MemPool MarketOrder}

/-- The node of a new order. -/
def newOrder (o : LiveOrder) : MarketOrder :=
  ⟨o.orderId, o.side, o.price, o.quantity, o.priority, none, none⟩

theorem newOrder_holds (o : LiveOrder) : Holds (newOrder o) o := ⟨rfl, rfl, rfl, rfl, rfl⟩

/-- A slot of the order pool that has just been filled with a new order. -/
structure Allocated (m : MarketOrderBook) (addr : Nat → Nat) (l : List LiveOrder) (o : LiveOrder)
    (a : Nat) (p : MemPool MarketOrder) : Prop where
  fresh : a ∉ l.map fun o => addr o.orderId
  inv : p.Inv ((l.map fun o => addr o.orderId) ++ [a])
  capacity : p.capacity = kMaxOrderIds
  object : ∀ b, p.object? b = if b = a then some (newOrder o) else m.orderPool.object? b

theorem Allocated.of_live (h : Allocated m addr l o a p) {b : Nat}
    (hb : b ∈ l.map fun o => addr o.orderId) : p.object? b = m.orderPool.object? b := by
  rw [h.object, if_neg]
  rintro rfl
  exact h.fresh hb

/-- The book with a new order, given how the links of its queue came out. -/
theorem Mirrors.of_add {m' : MarketOrderBook} {ladder' : Side → List Rung}
    (h : m.Mirrors addr ladder l) (hpl : Allocated m addr l o a p)
    (hsmall : o.orderId < kMaxOrderIds) (hside : o.side.Directional)
    (hfresh : ∀ o' ∈ l, o'.orderId ≠ o.orderId)
    (hoid : m'.oidToOrder = Function.update m.oidToOrder o.orderId (some a))
    (hrel : orderLinks.Relinked p m'.orderPool ((l.map fun o => addr o.orderId) ++ [a])
      (orderLinks.nx m'.orderPool) (orderLinks.pv m'.orderPool))
    (hframe : ∀ side, side.Directional → ∀ r ∈ ladder side, ¬ o.At side r.price →
      ∀ x ∈ slotsAt addr l side r.price, orderLinks.nx m'.orderPool x = orderLinks.nx p x ∧
        orderLinks.pv m'.orderPool x = orderLinks.pv p x)
    (hlevels : m'.Levels ladder')
    (hrungs : ∀ side, side.Directional → ∀ r ∈ ladder' side, ¬ o.At side r.price →
      r ∈ ladder side ∧ Levels.SameEntry m m' r.slot)
    (hprices : ∀ side, side.Directional → ∀ price, (∃ r ∈ ladder' side, r.price = price) ↔
      (∃ r ∈ ladder side, r.price = price) ∨ o.At side price)
    (hqueue : ∀ r ∈ ladder' o.side, r.price = o.price →
      m'.QueueOf r.slot (slotsAt addr l o.side o.price ++ [a])) :
    m'.Mirrors (Function.update addr o.orderId a) ladder' (l ++ [o]) where
  orders := by
    rw [hoid]
    refine h.orders.enter hsmall hside hfresh hrel.inv (hrel.capacity.trans hpl.capacity)
      (fun b hb => (hrel.core_eq b).trans ?_) ?_
    · rw [LinkFields.core, LinkFields.core, hpl.of_live hb]
    · obtain ⟨n', hn', hbare⟩ := hrel.object (a := a) (x := newOrder o)
        (by rw [hpl.object, if_pos rfl])
      exact ⟨n', hn', (newOrder_holds o).of_bare hbare⟩
  levels := hlevels
  rung := by
    intro side hs price
    rw [hprices side hs price, h.rung side hs price]
    by_cases hat : o.At side price
    · simp [restingAt_snoc_self hat, hat]
    · simp [restingAt_snoc_of_ne hat, hat]
  queue := by
    intro side hs r hr
    have hmove := Orders.slotsAt_update (a := a) addr hfresh side r.price
    rw [slotsAt] at hmove
    by_cases hat : o.At side r.price
    · obtain ⟨rfl, hprice⟩ := hat
      rw [slotsAt, restingAt_snoc_self ⟨rfl, hprice⟩, List.map_append, hmove, List.map_singleton,
        Function.update_self, ← hprice]
      exact hqueue r hr hprice.symm
    · obtain ⟨hold, hsame⟩ := hrungs side hs r hr hat
      rw [slotsAt, restingAt_snoc_of_ne hat, hmove]
      refine (h.queue side hs r hold).congr hsame fun x hx => ?_
      have hlive := hpl.of_live (Orders.slotsAt_sub side r.price x hx)
      obtain ⟨hn, hp⟩ := hframe side hs r hold hat x hx
      exact ⟨hn.trans (LinkFields.nx_congr hlive), hp.trans (LinkFields.pv_congr hlive)⟩

/-- **A new order behind the ones of its price.** -/
theorem Mirrors.join (h : m.Mirrors addr ladder l) (hpl : Allocated m addr l o a p)
    (hsmall : o.orderId < kMaxOrderIds) (hside : o.side.Directional)
    (hfresh : ∀ o' ∈ l, o'.orderId ≠ o.orderId) (hr : r ∈ ladder o.side)
    (hprice : r.price = o.price) :
    ∃ m', addOrder { m with orderPool := p } (some a) = .ok m' ∧
      m'.Mirrors (Function.update addr o.orderId a) ladder (l ++ [o]) ∧ m'.bbo = m.bbo := by
  obtain ⟨v, hv, hfirst, hring⟩ := h.queue o.side hside r hr
  rw [hprice] at hfirst hring
  have hne : slotsAt addr l o.side o.price ≠ [] := hprice ▸ h.slotsAt_ne_nil hside hr
  obtain ⟨t, ht⟩ : ∃ t, (slotsAt addr l o.side o.price).head? = some t :=
    Option.ne_none_iff_exists'.mp (by simpa using hne)
  have hlive := fun x (hx : x ∈ slotsAt addr l o.side o.price) =>
    hpl.of_live (Orders.slotsAt_sub _ _ x hx)
  obtain ⟨p', n, w, happend, hrel, hring', hframe⟩ :=
    LinkFields.append_spec (L := orderLinks) (e := a) hpl.inv
      (fun x hx => List.mem_append_left _ (Orders.slotsAt_sub o.side o.price x hx)) (by simp)
      (fun hmem => hpl.fresh (Orders.slotsAt_sub o.side o.price a hmem))
      (h.orders.slotsAt_nodup o.side o.price) ht
      (hring.congr fun x hx => ⟨LinkFields.nx_congr (hlive x hx), LinkFields.pv_congr (hlive x hx)⟩)
  have hget : m.getOrdersAtPrice o.price = some r.slot := hprice ▸ h.levels.get_eq_some hside hr
  rw [← hrel.nx_eq, ← hrel.pv_eq] at hring' hframe
  refine ⟨{ m with
    orderPool := p'
    oidToOrder := Function.update m.oidToOrder o.orderId (some a) }, ?_, ?_, rfl⟩
  · have hderef : p.deref (some a) = .ok (newOrder o) :=
      MemPool.deref_some (by rw [hpl.object, if_pos rfl])
    have hread : m.ordersAtPricePool.read (some r.slot) (·.firstMktOrder) = .ok (some t) := by
      simp [MemPool.read, MemPool.deref_some hv, hfirst, ht]
    have hget' : getOrdersAtPrice { m with orderPool := p } (newOrder o).price = some r.slot := hget
    simp only [addOrder, hderef, ok_bind, hget', joinQueue, hread, happend]
    exact if_pos hsmall
  · refine h.of_add hpl hsmall hside hfresh rfl ⟨hrel.inv, hrel.capacity, rfl, rfl, hrel.core_eq⟩
      (fun side _ r' _ hat x hx => hframe x (fun heq => hpl.fresh (heq ▸
        Orders.slotsAt_sub side r'.price x hx)) fun hmem => hat ?_)
      ⟨h.levels.pool, h.levels.capacity, h.levels.sides, h.levels.table⟩
      (fun side _ r' hr' _ => ⟨hr', fun w hw => ⟨w, hw, rfl⟩⟩) (fun side hs price => ?_)
      (fun r' hr' hprice' => ?_)
    · obtain ⟨h1, h2⟩ := h.orders.slotsAt_disjoint hmem hx
      exact ⟨h1, h2⟩
    · refine ⟨.inl, ?_⟩
      rintro (hex | ⟨rfl, rfl⟩)
      · exact hex
      · exact ⟨r, hr, hprice⟩
    · obtain rfl := h.rung_unique hside hr hr' (hprice.trans hprice'.symm)
      refine ⟨v, hv, hfirst.trans ?_, hring'⟩
      rw [List.head?_append, ht]
      rfl

/-- **A new order with a level of its own.** -/
theorem Mirrors.open (h : m.Mirrors addr ladder l) (hpl : Allocated m addr l o a p)
    (hsmall : o.orderId < kMaxOrderIds) (hside : o.side.Directional)
    (hfresh : ∀ o' ∈ l, o'.orderId ≠ o.orderId) (hfree : m.getOrdersAtPrice o.price = none) :
    ∃ m' ladder', addOrder { m with orderPool := p } (some a) = .ok m' ∧
      m'.Mirrors (Function.update addr o.orderId a) ladder' (l ++ [o]) ∧ m'.bbo = m.bbo := by
  obtain ⟨p', n, w, hself, hrel, hring, hframe⟩ :=
    LinkFields.linkToSelf_spec (L := orderLinks) (e := a) hpl.inv (by simp)
  rw [← hrel.nx_eq, ← hrel.pv_eq] at hring hframe
  have hlevels : Levels { m with orderPool := p' } ladder :=
    ⟨h.levels.pool, h.levels.capacity, h.levels.sides, h.levels.table⟩
  obtain ⟨e, levels, m₂, halloc, hadd, hlev, ⟨v, hv, hvfirst⟩, hsame, hoid, hpool, hbbo⟩ :=
    hlevels.enter_spec hside hfree (some a)
  have hempty : restingAt l o.side o.price = [] := by
    by_contra hne
    obtain ⟨r, hr, hprice⟩ := (h.rung o.side hside o.price).mpr hne
    have := h.levels.get_eq_some hside hr
    rw [hprice, hfree] at this
    cases this
  refine ⟨{ m₂ with oidToOrder := Function.update m.oidToOrder o.orderId (some a) },
    Function.update ladder o.side (enter o.side ⟨o.price, e⟩ (ladder o.side)), ?_, ?_, hbbo⟩
  · have hderef : p.deref (some a) = .ok (newOrder o) :=
      MemPool.deref_some (by rw [hpl.object, if_pos rfl])
    have hget' : getOrdersAtPrice { m with orderPool := p } (newOrder o).price = none := hfree
    have halloc' : m.ordersAtPricePool.allocate
        ⟨(newOrder o).side, (newOrder o).price, some a, none, none⟩ = .ok (e, levels) := halloc
    simp only [addOrder, hderef, ok_bind, hget', openQueue, hself, halloc', hadd]
    rw [setOrderOf, hoid]
    exact if_pos hsmall
  · have hrungs : ∀ side, side.Directional →
        ∀ r, r ∈ Function.update ladder o.side (enter o.side ⟨o.price, e⟩ (ladder o.side)) side ↔
          r ∈ ladder side ∨ (side = o.side ∧ r = ⟨o.price, e⟩) := by
      intro side _ r
      rcases eq_or_ne side o.side with rfl | hne
      · rw [Function.update_self, mem_enter, or_comm]
        simp
      · rw [Function.update_of_ne hne]
        simp [hne]
    have hslot : ∀ r ∈ ladder o.side, r.price ≠ o.price := fun r hr hprice =>
      (h.rung o.side hside o.price).mp ⟨r, hr, hprice⟩ hempty
    refine h.of_add hpl hsmall hside hfresh rfl ?_ ?_
      ⟨hlev.pool, hlev.capacity, hlev.sides, hlev.table⟩ ?_ ?_ ?_
    · rw [hpool]
      exact ⟨hrel.inv, hrel.capacity, rfl, rfl, hrel.core_eq⟩
    · intro side _ r' _ _ x hx
      rw [hpool]
      exact hframe x fun heq => hpl.fresh (heq ▸ Orders.slotsAt_sub side r'.price x hx)
    · intro side hs r hr hat
      rcases (hrungs side hs r).mp hr with hr | ⟨rfl, rfl⟩
      · exact ⟨hr, (hsame r (mem_allRungs.mpr ⟨side, hs, hr⟩)).2⟩
      · exact absurd ⟨rfl, rfl⟩ hat
    · intro side hs price
      constructor
      · rintro ⟨r, hr, rfl⟩
        rcases (hrungs side hs r).mp hr with hr | ⟨rfl, rfl⟩
        · exact .inl ⟨r, hr, rfl⟩
        · exact .inr ⟨rfl, rfl⟩
      · rintro (⟨r, hr, rfl⟩ | ⟨rfl, rfl⟩)
        · exact ⟨r, (hrungs side hs r).mpr (.inl hr), rfl⟩
        · exact ⟨⟨o.price, e⟩, (hrungs o.side hs _).mpr (.inr ⟨rfl, rfl⟩), rfl⟩
    · intro r hr hprice
      rcases (hrungs o.side hside r).mp hr with hr | ⟨-, rfl⟩
      · exact absurd hprice (hslot r hr)
      · rw [slotsAt, hempty]
        refine ⟨v, hv, hvfirst, ?_⟩
        rw [hpool]
        exact hring

/-- **A new order.** -/
theorem Mirrors.add (h : m.Mirrors addr ladder l) (hsmall : o.orderId < kMaxOrderIds)
    (hside : o.side.Directional) (hfresh : ∀ o' ∈ l, o'.orderId ≠ o.orderId)
    (hcell : ∀ o' ∈ l, priceToIndex o'.price = priceToIndex o.price →
      o'.side = o.side ∧ o'.price = o.price) :
    ∃ a p m' ladder', m.orderPool.allocate (newOrder o) = .ok (a, p) ∧
      addOrder { m with orderPool := p } (some a) = .ok m' ∧
      m'.Mirrors (Function.update addr o.orderId a) ladder' (l ++ [o]) ∧ m'.bbo = m.bbo := by
  obtain ⟨a, p, halloc, hnot, hinv, hcap, hobj⟩ := h.orders.pool.allocate_spec
    (by rw [List.length_map, h.orders.capacity]; exact h.orders.length_lt hsmall hfresh)
    (newOrder o)
  have hpl : Allocated m addr l o a p := ⟨hnot, hinv, hcap.trans h.orders.capacity, hobj⟩
  cases hget : m.getOrdersAtPrice o.price with
  | none =>
    obtain ⟨m', ladder', hadd, hm', hbbo⟩ := h.open hpl hsmall hside hfresh hget
    exact ⟨a, p, m', ladder', halloc, hadd, hm', hbbo⟩
  | some b =>
    -- the level found holds an order, so it is the level of this side and price
    obtain ⟨r, hr, -, hindex⟩ := (h.levels.table _ _).mp hget
    obtain ⟨side, hs, hr⟩ := mem_allRungs.mp hr
    obtain ⟨o', ho', hat⟩ := h.exists_order hs hr
    obtain ⟨rfl, hprice⟩ := hat
    obtain ⟨hso, hpo⟩ := hcell o' ho' (hprice ▸ hindex)
    rw [hso] at hr
    obtain ⟨m', hadd, hm', hbbo⟩ := h.join hpl hsmall hside hfresh hr (hprice.symm.trans hpo)
    exact ⟨a, p, m', ladder, halloc, hadd, hm', hbbo⟩

end Add

/-! ## 2. A new quantity, and an order that leaves -/

section Cancel

variable {m m' : MarketOrderBook} {addr : Nat → Nat} {ladder ladder' : Side → List Rung}
  {l : List LiveOrder} {o : LiveOrder} {r : Rung} {p' : MemPool MarketOrder}

/-- **An order changes its quantity.** -/
theorem Mirrors.modify (h : m.Mirrors addr ladder l) (ho : o ∈ l) (qty : Nat) :
    ∃ p', m.orderPool.modify (some (addr o.orderId)) ({ · with qty := qty }) = .ok p' ∧
      Mirrors { m with orderPool := p' } addr ladder
        (l.map fun o' => if o'.orderId = o.orderId then { o' with quantity := qty } else o') := by
  obtain ⟨n, hn, hholds⟩ := h.orders.node o ho
  have hid : ∀ o' : LiveOrder, (if o'.orderId = o.orderId then
      { o' with quantity := qty } else o').orderId = o'.orderId := fun o' => by split <;> rfl
  have hobj : ∀ b, (m.orderPool.put (addr o.orderId) { n with qty := qty }).object? b =
      if b = addr o.orderId then some { n with qty := qty } else m.orderPool.object? b :=
    fun b => MemPool.object?_put
  have hmap : ((l.map fun o' =>
      if o'.orderId = o.orderId then { o' with quantity := qty } else o').map
      fun o => addr o.orderId) = l.map fun o => addr o.orderId := by
    rw [List.map_map]
    exact List.map_congr_left fun o' _ => congrArg addr (hid o')
  have hslots : ∀ side price, slotsAt addr
      (l.map fun o' => if o'.orderId = o.orderId then { o' with quantity := qty } else o') side
        price =
        slotsAt addr l side price := fun side price => by
    rw [slotsAt, restingAt_modify, List.map_map]
    exact List.map_congr_left fun o' _ => congrArg addr (hid o')
  refine ⟨_, MemPool.modify_some hn, ⟨⟨?_, ?_, ?_, fun id => ?_, ?_, h.orders.capacity, ?_⟩,
    ⟨h.levels.pool, h.levels.capacity, h.levels.sides, h.levels.table⟩, fun side hs price => ?_,
    fun side hs r hr => ?_⟩⟩
  · rw [List.map_map]
    exact (List.map_congr_left fun o' _ => hid o') ▸ h.orders.ids
  · intro o' ho'
    obtain ⟨o₂, ho₂, rfl⟩ := List.mem_map.mp ho'
    rw [hid]
    exact h.orders.small o₂ ho₂
  · intro o' ho'
    obtain ⟨o₂, ho₂, rfl⟩ := List.mem_map.mp ho'
    have := h.orders.sides o₂ ho₂
    split <;> exact this
  · rw [h.orders.table]
    refine if_congr ⟨?_, ?_⟩ rfl rfl
    · rintro ⟨o', ho', rfl⟩
      exact ⟨_, List.mem_map_of_mem ho', hid o'⟩
    · rintro ⟨o', ho', rfl⟩
      obtain ⟨o₂, ho₂, rfl⟩ := List.mem_map.mp ho'
      exact ⟨o₂, ho₂, (hid o₂).symm⟩
  · rw [hmap]
    exact h.orders.pool.put (Orders.mem_live ho)
  · intro o' ho'
    obtain ⟨o₂, ho₂, rfl⟩ := List.mem_map.mp ho'
    rw [hid, hobj]
    rcases eq_or_ne o₂.orderId o.orderId with heq | hne
    · obtain rfl := List.inj_on_of_nodup_map h.orders.ids ho₂ ho heq
      rw [if_pos rfl, if_pos rfl]
      exact ⟨_, rfl, hholds.orderId, hholds.side, hholds.price, rfl, hholds.priority⟩
    · rw [if_neg hne, if_neg fun heq => hne (by rw [h.orders.eq_of_addr ho₂ ho heq])]
      exact h.orders.node o₂ ho₂
  · rw [h.rung side hs price, restingAt_modify]
    simp
  · rw [hslots]
    refine (h.queue side hs r hr).congr (fun w hw => ⟨w, hw, rfl⟩) fun x _ => ?_
    rw [LinkFields.nx, LinkFields.nx, LinkFields.pv, LinkFields.pv, hobj]
    split
    · next heq => rw [heq, hn]; exact ⟨rfl, rfl⟩
    · exact ⟨rfl, rfl⟩

/-- The book without an order, given how the links of its queue came out. -/
theorem Mirrors.of_cancel (h : m.Mirrors addr ladder l) (ho : o ∈ l)
    (hoid : m'.oidToOrder = Function.update m.oidToOrder o.orderId none)
    (hpool : m'.orderPool = p'.deallocate (addr o.orderId))
    (hrel : orderLinks.Relinked m.orderPool p' (l.map fun o => addr o.orderId)
      (orderLinks.nx p') (orderLinks.pv p'))
    (hframe : ∀ x, x ∉ slotsAt addr l o.side o.price →
      orderLinks.nx p' x = orderLinks.nx m.orderPool x ∧
        orderLinks.pv p' x = orderLinks.pv m.orderPool x)
    (hlevels : m'.Levels ladder')
    (hrungs : ∀ side, side.Directional → ∀ r, ¬ o.At side r.price →
      (r ∈ ladder' side ↔ r ∈ ladder side))
    (hsame : ∀ side, side.Directional → ∀ r ∈ ladder' side, ¬ o.At side r.price →
      Levels.SameEntry m m' r.slot)
    (hleft : (∃ r ∈ ladder' o.side, r.price = o.price) ↔
      slotsAt addr (l.filter fun o' => o'.orderId ≠ o.orderId) o.side o.price ≠ [])
    (hqueue : ∀ r ∈ ladder' o.side, r.price = o.price →
      m'.QueueOf r.slot (slotsAt addr (l.filter fun o' => o'.orderId ≠ o.orderId) o.side o.price)) :
    m'.Mirrors addr ladder' (l.filter fun o' => o'.orderId ≠ o.orderId) where
  orders := by
    rw [hoid, hpool]
    exact h.orders.leave ho hrel.inv (hrel.capacity.trans h.orders.capacity) hrel.core_eq
  levels := hlevels
  rung := by
    intro side hs price
    by_cases hat : o.At side price
    · obtain ⟨rfl, rfl⟩ := hat
      rw [hleft, slotsAt, ne_eq, List.map_eq_nil_iff]
    · rw [restingAt_cancel_of_ne h.orders.ids ho hat, ← h.rung side hs price]
      constructor
      · rintro ⟨r, hr, rfl⟩
        exact ⟨r, (hrungs side hs r hat).mp hr, rfl⟩
      · rintro ⟨r, hr, rfl⟩
        exact ⟨r, (hrungs side hs r hat).mpr hr, rfl⟩
  queue := by
    intro side hs r hr
    by_cases hat : o.At side r.price
    · obtain ⟨rfl, hprice⟩ := hat
      rw [← hprice]
      exact hqueue r hr hprice.symm
    · rw [slotsAt, restingAt_cancel_of_ne h.orders.ids ho hat]
      refine (h.queue side hs r ((hrungs side hs r hat).mp hr)).congr (hsame side hs r hr hat)
        fun x hx => ?_
      have hx' : x ∉ slotsAt addr l o.side o.price := fun hmem => by
        obtain ⟨h1, h2⟩ := h.orders.slotsAt_disjoint hmem hx
        exact hat ⟨h1, h2⟩
      have hxo : x ≠ addr o.orderId := fun heq =>
        hx' (mem_slotsAt.mpr ⟨o, ho, ⟨rfl, rfl⟩, heq.symm⟩)
      obtain ⟨hn, hp⟩ := hframe x hx'
      rw [hpool]
      exact ⟨(LinkFields.nx_congr (MemPool.object?_deallocate_of_ne hxo)).trans hn,
        (LinkFields.pv_congr (MemPool.object?_deallocate_of_ne hxo)).trans hp⟩

/-- **The last order of a price** takes its level with it. -/
theorem Mirrors.close (h : m.Mirrors addr ladder l) (ho : o ∈ l)
    (hsingle : slotsAt addr l o.side o.price = [addr o.orderId])
    (hempty : slotsAt addr (l.filter fun o' => o'.orderId ≠ o.orderId) o.side o.price = []) :
    ∃ m' ladder', m.removeOrder (some (addr o.orderId)) = .ok m' ∧
      m'.Mirrors addr ladder' (l.filter fun o' => o'.orderId ≠ o.orderId) ∧ m'.bbo = m.bbo := by
  have hside := h.orders.sides o ho
  obtain ⟨n, hn, hholds⟩ := h.orders.node o ho
  obtain ⟨r, hr, hprice⟩ := h.exists_rung ho
  obtain ⟨v, hv, hfirst, hring⟩ := h.queue o.side hside r hr
  rw [hprice, hsingle] at hring
  have hprev : n.prevOrder = some (addr o.orderId) := by
    have := (Links.Ring.singleton_iff.mp hring).1
    rwa [LinkFields.pv_of_object hn] at this
  obtain ⟨q₁, q₂, hq⟩ := List.append_of_mem hr
  obtain ⟨m₂, hremove, hlev, hsame, hoid, hpool, hbbo⟩ := h.levels.leave_spec hside hq
  rw [hprice] at hremove
  refine ⟨{ m₂ with
    oidToOrder := Function.update m.oidToOrder o.orderId none
    orderPool := m.orderPool.deallocate (addr o.orderId) },
    Function.update ladder o.side (q₁ ++ q₂), ?_, ?_, hbbo⟩
  · simp only [removeOrder, MemPool.deref_some hn, ok_bind, hprev, if_true, hholds.side,
      hholds.price, hremove, setOrderOf, hholds.orderId, if_pos (h.orders.small o ho), hpool, hoid,
      MemPool.release_some hn]
  · have hnd : ((ladder o.side).map Rung.slot).Nodup := h.levels.nodup_side hside
    have hmem : ∀ side, side.Directional → ∀ s,
        s ∈ Function.update ladder o.side (q₁ ++ q₂) side ↔
          s ∈ ladder side ∧ ¬ (side = o.side ∧ s = r) := by
      intro side _ s
      rcases eq_or_ne side o.side with rfl | hne
      · rw [Function.update_self, hq]
        have hnd' := hnd.of_map
        rw [hq, List.nodup_middle, List.nodup_cons] at hnd'
        constructor
        · intro hs
          refine ⟨?_, fun heq => hnd'.1 (heq.2 ▸ hs)⟩
          rcases List.mem_append.mp hs with hs | hs <;> simp [hs]
        · rintro ⟨hs, hne⟩
          simp only [List.mem_append, List.mem_cons] at hs ⊢
          tauto
      · rw [Function.update_of_ne hne]
        simp [hne]
    refine h.of_cancel ho rfl rfl (.refl h.orders.pool) (fun _ _ => ⟨rfl, rfl⟩)
      ⟨hlev.pool, hlev.capacity, hlev.sides, hlev.table⟩ (fun side hs s hat => ?_)
      (fun side hs s hs' _ => hsame s (mem_allRungs.mpr ⟨side, hs, hs'⟩)) ?_ fun s hs hsp => ?_
    · rw [hmem side hs]
      refine and_iff_left ?_
      rintro ⟨rfl, rfl⟩
      exact hat ⟨rfl, hprice.symm⟩
    · rw [hempty]
      refine iff_of_false ?_ (fun hne => hne rfl)
      rintro ⟨s, hs, hsp⟩
      obtain ⟨hs, hne⟩ := (hmem o.side hside s).mp hs
      exact hne ⟨rfl, h.rung_unique hside hs hr (hsp.trans hprice.symm)⟩
    · obtain ⟨hs, hne⟩ := (hmem o.side hside s).mp hs
      exact absurd ⟨rfl, h.rung_unique hside hs hr (hsp.trans hprice.symm)⟩ hne

/-- The level of a queue whose first order may have left. -/
theorem Levels.setFirst (h : m.Levels ladder) {entry : Nat} {v : MarketOrdersAtPrice}
    (hentry : entry ∈ (allRungs ladder).map Rung.slot)
    (hv : m.ordersAtPricePool.object? entry = some v) (first : Option Nat)
    (p : MemPool MarketOrder) :
    Levels { m with
      orderPool := p
      ordersAtPricePool := m.ordersAtPricePool.put entry { v with firstMktOrder := first } }
      ladder where
  pool := h.pool.put hentry
  capacity := h.capacity
  sides := by
    intro side hs
    have hobj : ∀ b, (m.ordersAtPricePool.put entry { v with firstMktOrder := first }).object? b =
        if b = entry then some { v with firstMktOrder := first }
        else m.ordersAtPricePool.object? b :=
      fun b => MemPool.object?_put
    refine ⟨(h.sides side hs).best, (h.sides side hs).ring.congr fun x _ => ?_,
      (h.sides side hs).sorted, fun r hr => ?_⟩
    · rw [LinkFields.nx, LinkFields.nx, LinkFields.pv, LinkFields.pv]
      simp only [hobj]
      split
      · next heq => rw [heq, hv]; exact ⟨rfl, rfl⟩
      · exact ⟨rfl, rfl⟩
    · obtain ⟨w, hw, hws, hwp⟩ := (h.sides side hs).entry r hr
      simp only [hobj]
      split
      · next heq =>
        rw [heq, hv] at hw
        obtain rfl := Option.some.inj hw
        exact ⟨_, rfl, hws, hwp⟩
      · exact ⟨w, hw, hws, hwp⟩
  table := h.table

/-- The level of a queue that an order leaves: it points to the next order if it pointed to that
one. -/
theorem Levels.moveFirst (h : m.Levels ladder) (hslot : r.slot ∈ (allRungs ladder).map Rung.slot)
    {v : MarketOrdersAtPrice} (hv : m.ordersAtPricePool.object? r.slot = some v) {a t : Nat}
    {q₁ q₂ : List Nat} (hfirst : v.firstMktOrder = (q₁ ++ a :: q₂).head?) (ha : a ∉ q₁)
    (ht : (q₂ ++ q₁).head? = some t) (oid : Nat → Option Nat) (p : MemPool MarketOrder) :
    ∃ levels,
      (if v.firstMktOrder = some a then
          m.ordersAtPricePool.modify (some r.slot) ({ · with firstMktOrder := some t })
        else .ok m.ordersAtPricePool) = .ok levels ∧
      Levels { m with oidToOrder := oid, orderPool := p, ordersAtPricePool := levels } ladder ∧
      (∃ w, levels.object? r.slot = some w ∧ w.firstMktOrder = (q₁ ++ q₂).head?) ∧
      ∀ b, b ≠ r.slot → levels.object? b = m.ordersAtPricePool.object? b := by
  cases q₁ with
  | nil =>
    have hhead : v.firstMktOrder = some a := hfirst
    refine ⟨_, (if_pos hhead).trans (MemPool.modify_some hv), ?_, ⟨_, MemPool.object?_put_self, ?_⟩,
      fun b hb => MemPool.object?_put_of_ne hb⟩
    · have := h.setFirst hslot hv (some t) p
      exact ⟨this.pool, this.capacity, this.sides, this.table⟩
    · rw [List.append_nil] at ht
      exact ht.symm
  | cons c s =>
    have hhead : v.firstMktOrder = some c := hfirst
    have hc : ¬ v.firstMktOrder = some a := by
      rw [hhead]
      intro heq
      exact ha (by rw [← Option.some.inj heq]; simp)
    exact ⟨_, if_neg hc, ⟨h.pool, h.capacity, h.sides, h.table⟩, ⟨v, hv, hhead⟩, fun _ _ => rfl⟩

/-- **An order that is not alone in its queue.** -/
theorem Mirrors.leaveQueue (h : m.Mirrors addr ladder l) (ho : o ∈ l) {q₁ q₂ : List Nat}
    (hq : slotsAt addr l o.side o.price = q₁ ++ addr o.orderId :: q₂)
    (hq' : slotsAt addr (l.filter fun o' => o'.orderId ≠ o.orderId) o.side o.price = q₁ ++ q₂)
    (hne : q₁ ++ q₂ ≠ []) :
    ∃ m', m.removeOrder (some (addr o.orderId)) = .ok m' ∧
      m'.Mirrors addr ladder (l.filter fun o' => o'.orderId ≠ o.orderId) ∧ m'.bbo = m.bbo := by
  have hside := h.orders.sides o ho
  obtain ⟨n, hn, hholds⟩ := h.orders.node o ho
  obtain ⟨r, hr, hprice⟩ := h.exists_rung ho
  obtain ⟨v, hv, hfirst, hring⟩ := h.queue o.side hside r hr
  rw [hprice, hq] at hring hfirst
  have hrot := hring.rotate
  rw [List.cons_append] at hrot
  have hnd := h.orders.slotsAt_nodup o.side o.price
  rw [hq] at hnd
  have hperm : (addr o.orderId :: (q₂ ++ q₁)).Perm (q₁ ++ addr o.orderId :: q₂) :=
    @List.perm_append_comm _ (addr o.orderId :: q₂) q₁
  have hne' : q₂ ++ q₁ ≠ [] := by simpa [and_comm] using hne
  have hsub : ∀ x ∈ addr o.orderId :: (q₂ ++ q₁), x ∈ l.map fun o => addr o.orderId :=
    fun x hx => Orders.slotsAt_sub o.side o.price x (hq ▸ hperm.mem_iff.mp hx)
  obtain ⟨p₁, p', nx, pv, -, hbypass, hclear, -, hrel, hring', hframe⟩ :=
    LinkFields.unlink_spec (L := orderLinks) h.orders.pool hsub (hperm.nodup_iff.mpr hnd) hne' hrot
  have hnot := (List.nodup_cons.mp (hperm.nodup_iff.mpr hnd)).1
  obtain ⟨t, ht⟩ : ∃ t, (q₂ ++ q₁).head? = some t :=
    Option.ne_none_iff_exists'.mp (by simpa using hne')
  have hnext : orderLinks.nx m.orderPool (addr o.orderId) = some t :=
    (hrot.links_head hne').2.trans ht
  -- the order is not alone, so its backward link leads elsewhere
  have hprev : ¬ n.prevOrder = some (addr o.orderId) := by
    have hself := (hrot.links_ne_self hne' (hperm.nodup_iff.mpr hnd)).1
    rwa [LinkFields.pv_of_object (L := orderLinks) hn] at hself
  have hrungSlot : r.slot ∈ (allRungs ladder).map Rung.slot := Levels.mem_live hside hr
  obtain ⟨n', hn', -⟩ := hrel.object hn
  -- what the level stores afterwards
  obtain ⟨levels, hlevels, hlev, hentry, hothers⟩ := h.levels.moveFirst hrungSlot hv hfirst
    (fun hmem => hnot (List.mem_append_right _ hmem)) ht
    (Function.update m.oidToOrder o.orderId none) (p'.deallocate (addr o.orderId))
  refine ⟨{ m with
    oidToOrder := Function.update m.oidToOrder o.orderId none
    orderPool := p'.deallocate (addr o.orderId)
    ordersAtPricePool := levels }, ?_, ?_, rfl⟩
  · have hreadP : m.orderPool.read (some (addr o.orderId)) (·.prevOrder) =
        .ok (orderLinks.pv m.orderPool (addr o.orderId)) :=
      LinkFields.read_prev (L := orderLinks) h.orders.pool (hsub _ List.mem_cons_self)
    have hreadN : m.orderPool.read (some (addr o.orderId)) (·.nextOrder) = .ok (some t) := by
      rw [← hnext]
      exact LinkFields.read_next (L := orderLinks) h.orders.pool (hsub _ List.mem_cons_self)
    have hreadF : m.ordersAtPricePool.read (some r.slot) (·.firstMktOrder) =
        .ok v.firstMktOrder := by simp [MemPool.read, MemPool.deref_some hv]
    rw [hnext] at hbypass
    have hget : m.getOrdersAtPrice n.price = some r.slot := by
      rw [hholds.price, ← hprice]
      exact h.levels.get_eq_some hside hr
    simp only [removeOrder, MemPool.deref_some hn, ok_bind, if_neg hprev, hget, unlinkOrder, hreadP,
      hreadN, hbypass, hreadF, hlevels, hclear, setOrderOf, hholds.orderId,
      if_pos (h.orders.small o ho), MemPool.release_some hn']
  · have hrel' := hrel
    rw [← hrel.nx_eq, ← hrel.pv_eq] at hrel'
    have hkeep : ∀ x, x ∉ slotsAt addr l o.side o.price →
        orderLinks.nx p' x = orderLinks.nx m.orderPool x ∧
          orderLinks.pv p' x = orderLinks.pv m.orderPool x := fun x hx => by
      rw [hq] at hx
      have hxo : x ≠ addr o.orderId := fun heq => hx (by simp [heq])
      rw [hrel.nx_eq, hrel.pv_eq, Function.update_of_ne hxo, Function.update_of_ne hxo]
      exact hframe x fun hmem => hx (hperm.mem_iff.mp (List.mem_cons_of_mem _ hmem))
    refine h.of_cancel ho rfl rfl hrel' hkeep hlev (fun _ _ _ _ => Iff.rfl)
      (fun side hs s hs' hat w hw => ?_) ?_ fun s hs hsp => ?_
    · refine ⟨w, (hothers s.slot fun heq => ?_).trans hw, rfl⟩
      obtain ⟨rfl, rfl⟩ := h.levels.side_unique hs hside hs' hr heq
      exact hat ⟨rfl, hprice.symm⟩
    · rw [hq']
      exact iff_of_true ⟨r, hr, hprice⟩ hne
    · obtain rfl := h.rung_unique hside hr hs (hprice.trans hsp.symm)
      obtain ⟨w, hw, hwfirst⟩ := hentry
      rw [hq']
      refine ⟨w, hw, hwfirst, hring'.rotate.congr fun x hx => ?_⟩
      have hxo : x ≠ addr o.orderId := fun heq => hnot (by
        rw [← heq]
        exact List.mem_append.mpr (List.mem_append.mp hx).symm)
      have hobj : (p'.deallocate (addr o.orderId)).object? x = p'.object? x :=
        MemPool.object?_deallocate_of_ne hxo
      rw [LinkFields.nx_congr hobj, LinkFields.pv_congr hobj, hrel.nx_eq, hrel.pv_eq,
        Function.update_of_ne hxo, Function.update_of_ne hxo]
      exact ⟨rfl, rfl⟩

/-- **An order leaves.** -/
theorem Mirrors.cancel (h : m.Mirrors addr ladder l) (ho : o ∈ l) :
    ∃ m' ladder', m.removeOrder (some (addr o.orderId)) = .ok m' ∧
      m'.Mirrors addr ladder' (l.filter fun o' => o'.orderId ≠ o.orderId) ∧ m'.bbo = m.bbo := by
  obtain ⟨q₁, q₂, hq, hq'⟩ := slotsAt_split addr h.orders.ids ho ⟨rfl, rfl⟩
  by_cases hne : q₁ ++ q₂ = []
  · obtain ⟨rfl, rfl⟩ := List.append_eq_nil_iff.mp hne
    exact h.close ho hq hq'
  · obtain ⟨m', hremove, hm', hbbo⟩ := h.leaveQueue ho hq hq' hne
    exact ⟨m', ladder, hremove, hm', hbbo⟩

end Cancel

/-! ## 3. A clear -/

section Clear

variable {m : MarketOrderBook} {addr : Nat → Nat} {ladder : Side → List Rung} {l : List LiveOrder}

/-- **The loop over all ids** releases every order. -/
theorem releaseOrders_spec (table : Nat → Option Nat) (ids : List Nat) :
    ∀ {oid : Nat → Option Nat} {p : MemPool MarketOrder} {l : List LiveOrder}, ids.Nodup →
      Orders oid p addr l → (∀ id ∈ ids, table id = oid id) → (∀ o ∈ l, o.orderId ∈ ids) →
      ∃ p', ids.foldlM (fun p orderId => if table orderId = none then .ok p
          else p.release (table orderId)) p = (.ok p' : Except Fault _) ∧
        p'.Inv [] ∧ p'.capacity = kMaxOrderIds := by
  induction ids with
  | nil =>
    intro oid p l _ h _ hids
    obtain rfl : l = [] := List.eq_nil_iff_forall_not_mem.mpr fun o ho => by simpa using hids o ho
    exact ⟨p, rfl, h.pool, h.capacity⟩
  | cons id ids ih =>
    intro oid p l hnd h htable hids
    obtain ⟨hnot, hnd'⟩ := List.nodup_cons.mp hnd
    have hid := htable id List.mem_cons_self
    have hrest := fun j hj => htable j (List.mem_cons_of_mem id hj)
    rw [List.foldlM_cons, hid]
    by_cases hex : ∃ o ∈ l, o.orderId = id
    · obtain ⟨o, ho, rfl⟩ := hex
      obtain ⟨n, hn, -⟩ := h.node o ho
      have hsome : oid o.orderId = some (addr o.orderId) :=
        (h.table _).trans (if_pos ⟨o, ho, rfl⟩)
      rw [hsome, if_neg (by simp), MemPool.release_some hn, ok_bind]
      refine ih hnd' (h.leave ho h.pool h.capacity fun _ => rfl) (fun j hj => ?_) fun o' ho' => ?_
      · have hne : j ≠ o.orderId := fun heq => hnot (heq ▸ hj)
        rw [hrest j hj, Function.update_of_ne hne]
      · obtain ⟨hl, hne⟩ := List.mem_filter.mp ho'
        exact (List.mem_cons.mp (hids o' hl)).resolve_left (by simpa using hne)
    · rw [(h.table id).trans (if_neg hex), if_pos rfl, ok_bind]
      refine ih hnd' h hrest fun o ho => ?_
      exact (List.mem_cons.mp (hids o ho)).resolve_left fun heq => hex ⟨o, ho, heq⟩

/-- **The loop over the levels behind the best one** releases them. -/
theorem releaseEntries_spec {b : Nat} {s : List Nat} :
    ∀ {others : List Nat} {fuel : Nat} {p : MemPool MarketOrdersAtPrice} {prev : Option Nat},
      p.Inv (s ++ others) → Links.Seg (entryLinks.nx p) (entryLinks.pv p) prev s (some b) →
      s.Nodup → b ∉ s → s.length < fuel →
      ∃ p', releaseEntries (some b) fuel (s.head?.or (some b)) p = .ok p' ∧ p'.Inv others ∧
        p'.capacity = p.capacity ∧ ∀ x, x ∉ s → p'.object? x = p.object? x := by
  induction s with
  | nil =>
    intro others fuel p prev hinv _ _ _ hfuel
    obtain ⟨k, rfl⟩ := Nat.exists_eq_add_of_lt hfuel
    exact ⟨p, by simp [releaseEntries], hinv, rfl, fun _ _ => rfl⟩
  | cons a s ih =>
    intro others fuel p prev hinv hseg hnd hb hfuel
    obtain ⟨k, rfl⟩ : ∃ k, fuel = k + 1 := ⟨fuel - 1, by omega⟩
    obtain ⟨hnot, hnd⟩ := List.nodup_cons.mp hnd
    obtain ⟨-, hnext, hrest⟩ := hseg
    obtain ⟨v, hv⟩ := hinv.objects a (by simp)
    have hread : p.read (some a) (·.nextEntry) = .ok (s.head?.or (some b)) := by
      rw [← hnext]
      exact LinkFields.read_next (L := entryLinks) hinv (by simp)
    have hinv' := hinv.deallocate (a := a) (by simp)
    rw [List.cons_append, List.erase_cons_head] at hinv'
    have hobj : ∀ x, x ≠ a → (p.deallocate a).object? x = p.object? x := fun x hx =>
      MemPool.object?_deallocate_of_ne hx
    have hfuel' : s.length < k := by
      rw [List.length_cons] at hfuel
      omega
    obtain ⟨p', hp', hinv'', hcap, hframe⟩ := ih hinv'
      (hrest.congr fun x hx => by
        have hxa : x ≠ a := fun heq => hnot (heq ▸ hx)
        exact ⟨LinkFields.nx_congr (hobj x hxa), LinkFields.pv_congr (hobj x hxa)⟩)
      hnd (fun hmem => hb (List.mem_cons_of_mem _ hmem)) hfuel'
    refine ⟨p', ?_, hinv'', hcap, fun x hx => ?_⟩
    · have hne : ¬ some a = some b := fun heq => hb (Option.some.inj heq ▸ List.mem_cons_self)
      rw [List.head?_cons, Option.some_or, releaseEntries, if_neg hne, hread, ok_bind,
        MemPool.release_some hv, ok_bind, hp']
    · rw [hframe x fun hmem => hx (List.mem_cons_of_mem _ hmem), hobj x fun heq =>
        hx (by simp [heq])]

/-- All levels of a side are released. -/
theorem releaseSide_spec {p : MemPool MarketOrdersAtPrice} {side : Side} {best : Option Nat}
    {rungs : List Rung} {others : List Nat} (h : Ladder p side best rungs)
    (hinv : p.Inv (rungs.map Rung.slot ++ others)) (hlen : rungs.length ≤ kMaxPriceLevels) :
    ∃ p', releaseSide best p = .ok p' ∧ p'.Inv others ∧ p'.capacity = p.capacity ∧
      ∀ x, x ∉ rungs.map Rung.slot → p'.object? x = p.object? x := by
  have hnd := (List.nodup_append.mp hinv.nodup).1
  have hbest := h.best
  have hring := h.ring
  cases rungs with
  | nil => exact ⟨p, by simp [releaseSide, hbest], hinv, rfl, fun _ _ => rfl⟩
  | cons b rungs =>
    rw [List.map_cons, List.head?_cons] at hbest
    subst hbest
    rw [List.map_cons] at hring hnd
    obtain ⟨-, hnext, hrest⟩ := hring
    obtain ⟨hnot, hnd⟩ := List.nodup_cons.mp hnd
    have hinv₁ : p.Inv (rungs.map Rung.slot ++ b.slot :: others) :=
      hinv.perm (by simpa using List.perm_middle.symm)
    have hfuel : (rungs.map Rung.slot).length < kMaxPriceLevels + 1 := by
      rw [List.length_map]
      rw [List.length_cons] at hlen
      omega
    obtain ⟨p', hp', hinv', hcap, hframe⟩ := releaseEntries_spec hinv₁ hrest hnd hnot hfuel
    have hread : p.read (some b.slot) (·.nextEntry) =
        .ok ((rungs.map Rung.slot).head?.or (some b.slot)) := by
      have := LinkFields.read_next (L := entryLinks) hinv₁ (a := b.slot) (by simp)
      rw [hnext] at this
      exact this
    obtain ⟨v, hv⟩ := hinv'.objects b.slot (by simp)
    have hinv'' := hinv'.deallocate (a := b.slot) (by simp)
    rw [List.erase_cons_head] at hinv''
    refine ⟨p'.deallocate b.slot, ?_, hinv'', hcap, fun x hx => ?_⟩
    · rw [releaseSide, if_neg (by simp), hread, ok_bind, hp', ok_bind, MemPool.release_some hv]
    · rw [List.map_cons, List.mem_cons, not_or] at hx
      rw [MemPool.object?_deallocate_of_ne hx.1, hframe x hx.2]

/-- **A clear** leaves an empty book, with all slots free. -/
theorem Mirrors.clear (h : m.Mirrors addr ladder l) :
    ∃ m', m.clear = .ok m' ∧ m'.Mirrors addr (fun _ => []) [] ∧ m'.bbo = m.bbo := by
  obtain ⟨p, hp, hpinv, hpcap⟩ := releaseOrders_spec m.oidToOrder (List.range kMaxOrderIds)
    List.nodup_range h.orders (fun _ _ => rfl) fun o ho => List.mem_range.mpr (h.orders.small o ho)
  have hbuy := h.levels.sides .buy (.inl rfl)
  have hsell := h.levels.sides .sell (.inr rfl)
  have hinv := h.levels.pool
  rw [allRungs, List.map_append] at hinv
  obtain ⟨p₁, hp₁, hinv₁, hcap₁, hframe⟩ := releaseSide_spec hbuy hinv
    (h.levels.length_le (.inl rfl))
  have hsell₁ : Ladder p₁ .sell (m.bestOrdersByPrice .sell) (ladder .sell) := by
    have hobj : ∀ r ∈ ladder .sell, p₁.object? r.slot = m.ordersAtPricePool.object? r.slot :=
      fun r hr => hframe _ fun hmem =>
        (List.nodup_append.mp hinv.nodup).2.2 _ hmem _ (List.mem_map_of_mem hr) rfl
    exact hsell.congr
      (fun r hr => ⟨LinkFields.nx_congr (hobj r hr), LinkFields.pv_congr (hobj r hr)⟩)
      fun r hr => by rw [LinkFields.core, LinkFields.core, hobj r hr]
  rw [← List.append_nil ((ladder .sell).map Rung.slot)] at hinv₁
  obtain ⟨p₂, hp₂, hinv₂, hcap₂, -⟩ := releaseSide_spec hsell₁ hinv₁ (h.levels.length_le (.inr rfl))
  have hp₁' : releaseSide m.bidsByPrice m.ordersAtPricePool = .ok p₁ := hp₁
  have hp₂' : releaseSide m.asksByPrice p₁ = .ok p₂ := hp₂
  refine ⟨{ m with
    oidToOrder := fun _ => none
    orderPool := p
    ordersAtPricePool := p₂
    bidsByPrice := none
    asksByPrice := none
    priceOrdersAtPrice := fun _ => none }, ?_, ?_, rfl⟩
  · simp only [MarketOrderBook.clear, releaseOrders, hp, ok_bind, hp₁', hp₂']
  refine ⟨⟨List.nodup_nil, by simp, by simp, fun id => by simp, hpinv, hpcap, by simp⟩,
    ⟨hinv₂, hcap₂.trans (hcap₁.trans h.levels.capacity), fun side _ => ?_, fun i a => ?_⟩,
    by simp [restingAt], by simp⟩
  · exact ⟨by simp [bestOrdersByPrice], trivial, List.Pairwise.nil, by simp⟩
  · simp [allRungs]

end Clear

end MarketOrderBook

end YQuant
