/-
# The book mirrors a list of live orders

`m.Mirrors addr ladder l` says that the two pools, the two tables and the two layers of circular
lists of a client's book stand for the live orders `l`: `addr` places each order id in a slot,
`ladder` lists the price levels of a side from best to worst, and the queue of each level holds the
orders of `l` at its price, in the order of `l`.

The parts are `Orders`, the table and pool of the orders, `Levels` for the price levels, and a
`QueueOf` each level.

What a mirrored book may not do is written in the same place: a null or dangling pointer would have
to come from a table or a link, and each of these is tied to a live order or a level with an order
in it.  `exists_rung` and `exists_order` are the two directions of that, between the orders and the
levels.

`addr` and `ladder` are determined by the book up to the choice of free slots, and are carried
along explicitly.  A book may mirror any list, also one that is crossed or not sorted by ids.
-/
import YQuant.MarketData.Stream
import YQuant.Trading.Ladders

namespace YQuant

/-! ## 1. Live orders at a price -/

/-- The order rests at this side and price. -/
def LiveOrder.At (o : LiveOrder) (side : Side) (price : Int) : Prop :=
  o.side = side ∧ o.price = price

instance (o : LiveOrder) (side : Side) (price : Int) : Decidable (o.At side price) :=
  inferInstanceAs (Decidable (_ ∧ _))

/-- The queue of a price. -/
def restingAt (l : List LiveOrder) (side : Side) (price : Int) : List LiveOrder :=
  l.filter fun o => o.At side price

/-- The slots of the orders of a price. -/
def slotsAt (addr : Nat → Nat) (l : List LiveOrder) (side : Side) (price : Int) : List Nat :=
  (restingAt l side price).map fun o => addr o.orderId

section Queues

variable {addr : Nat → Nat} {l : List LiveOrder} {o : LiveOrder} {side : Side} {price : Int}
  {x : Nat}

theorem mem_restingAt : o ∈ restingAt l side price ↔ o ∈ l ∧ o.At side price := by
  simp [restingAt]

theorem mem_slotsAt : x ∈ slotsAt addr l side price ↔
    ∃ o ∈ l, o.At side price ∧ addr o.orderId = x := by
  simp [slotsAt, mem_restingAt, and_assoc]

theorem restingAt_snoc_self (h : o.At side price) :
    restingAt (l ++ [o]) side price = restingAt l side price ++ [o] := by
  simp [restingAt, h]

theorem restingAt_snoc_of_ne (h : ¬ o.At side price) :
    restingAt (l ++ [o]) side price = restingAt l side price := by
  simp [restingAt, h]

theorem restingAt_cancel (id : Nat) : restingAt (l.filter fun o => o.orderId ≠ id) side price =
    (restingAt l side price).filter fun o => o.orderId ≠ id :=
  List.filter_comm ..

/-- The other queues do not lose an order. -/
theorem restingAt_cancel_of_ne (hnd : (l.map LiveOrder.orderId).Nodup) (ho : o ∈ l)
    (h : ¬ o.At side price) : restingAt (l.filter fun o' => o'.orderId ≠ o.orderId) side price =
      restingAt l side price := by
  rw [restingAt_cancel, List.filter_eq_self]
  intro o' ho'
  obtain ⟨hl, hat⟩ := mem_restingAt.mp ho'
  rw [decide_eq_true_eq]
  intro heq
  exact h (List.inj_on_of_nodup_map hnd hl ho heq ▸ hat)

theorem restingAt_modify (id qty : Nat) :
    restingAt (l.map fun o => if o.orderId = id then { o with quantity := qty } else o) side price =
      (restingAt l side price).map fun o =>
        if o.orderId = id then { o with quantity := qty } else o := by
  rw [restingAt, List.filter_map, restingAt]
  congr 1
  refine List.filter_congr fun o _ => ?_
  simp only [Function.comp_apply]
  split <;> rfl

/-- The queue of a cancelled order, split around it. -/
theorem slotsAt_split (addr : Nat → Nat) (hnd : (l.map LiveOrder.orderId).Nodup) (ho : o ∈ l)
    (hat : o.At side price) : ∃ q₁ q₂, slotsAt addr l side price = q₁ ++ addr o.orderId :: q₂ ∧
      slotsAt addr (l.filter fun o' => o'.orderId ≠ o.orderId) side price = q₁ ++ q₂ := by
  obtain ⟨l₁, l₂, hl⟩ := List.append_of_mem (mem_restingAt.mpr ⟨ho, hat⟩)
  have hnd' : ((restingAt l side price).map LiveOrder.orderId).Nodup :=
    hnd.sublist (List.filter_sublist.map _)
  rw [hl] at hnd'
  refine ⟨l₁.map fun o => addr o.orderId, l₂.map fun o => addr o.orderId, by simp [slotsAt, hl], ?_⟩
  rw [slotsAt, restingAt_cancel, hl, filter_middle hnd', List.map_append]

end Queues

namespace MarketOrderBook

/-! ## 2. The orders -/

/-- A node stores an order; its links are a matter of the queues. -/
structure Holds (n : MarketOrder) (o : LiveOrder) : Prop where
  orderId : n.orderId = o.orderId
  side : n.side = o.side
  price : n.price = o.price
  qty : n.qty = o.quantity
  priority : n.priority = o.priority

theorem Holds.of_bare {n n' : MarketOrder} {o : LiveOrder} (h : Holds n o)
    (hbare : orderLinks.bare n' = orderLinks.bare n) : Holds n' o := by
  have hfields := MarketOrder.mk.injEq .. ▸ hbare
  exact ⟨hfields.1.trans h.orderId, hfields.2.1.trans h.side, hfields.2.2.1.trans h.price,
    hfields.2.2.2.1.trans h.qty, hfields.2.2.2.2.1.trans h.priority⟩

/-- **The orders of the book**: their table and their pool. -/
structure Orders (oidToOrder : Nat → Option Nat) (p : MemPool MarketOrder) (addr : Nat → Nat)
    (l : List LiveOrder) : Prop where
  ids : (l.map LiveOrder.orderId).Nodup
  small : ∀ o ∈ l, o.orderId < kMaxOrderIds
  sides : ∀ o ∈ l, o.side.Directional
  table : ∀ id, oidToOrder id = if ∃ o ∈ l, o.orderId = id then some (addr id) else none
  pool : p.Inv (l.map fun o => addr o.orderId)
  capacity : p.capacity = kMaxOrderIds
  node : ∀ o ∈ l, ∃ n, p.object? (addr o.orderId) = some n ∧ Holds n o

namespace Orders

variable {oid : Nat → Option Nat} {p p' : MemPool MarketOrder} {addr : Nat → Nat}
  {l : List LiveOrder} {o o' : LiveOrder} {a : Nat}

theorem mem_live (ho : o ∈ l) : addr o.orderId ∈ l.map fun o => addr o.orderId :=
  List.mem_map_of_mem (f := fun o => addr o.orderId) ho

/-- Different orders are in different slots. -/
theorem eq_of_addr (h : Orders oid p addr l) (ho : o ∈ l) (ho' : o' ∈ l)
    (heq : addr o.orderId = addr o'.orderId) : o = o' :=
  List.inj_on_of_nodup_map h.pool.nodup ho ho' heq

/-- No slot is queued at two prices. -/
theorem slotsAt_disjoint (h : Orders oid p addr l) {side side' : Side} {price price' : Int}
    (ha : a ∈ slotsAt addr l side price) (ha' : a ∈ slotsAt addr l side' price') :
    side = side' ∧ price = price' := by
  obtain ⟨o, ho, hat, heq⟩ := mem_slotsAt.mp ha
  obtain ⟨o', ho', hat', heq'⟩ := mem_slotsAt.mp ha'
  obtain rfl := h.eq_of_addr ho ho' (heq.trans heq'.symm)
  exact ⟨hat.1.symm.trans hat'.1, hat.2.symm.trans hat'.2⟩

theorem slotsAt_nodup (h : Orders oid p addr l) (side : Side) (price : Int) :
    (slotsAt addr l side price).Nodup :=
  h.pool.nodup.sublist (List.filter_sublist.map _)

theorem slotsAt_sub (side : Side) (price : Int) :
    ∀ x ∈ slotsAt addr l side price, x ∈ l.map fun o => addr o.orderId := fun x hx => by
  obtain ⟨o, ho, -, rfl⟩ := mem_slotsAt.mp hx
  exact mem_live ho

theorem length_lt (h : Orders oid p addr l) {id : Nat} (hid : id < kMaxOrderIds)
    (hfresh : ∀ o ∈ l, o.orderId ≠ id) : l.length < kMaxOrderIds := by
  have hnd : (id :: l.map LiveOrder.orderId).Nodup := List.nodup_cons.mpr ⟨fun hmem => by
    obtain ⟨o, ho, heq⟩ := List.mem_map.mp hmem
    exact hfresh o ho heq, h.ids⟩
  have hsub : (id :: l.map LiveOrder.orderId) ⊆ List.range kMaxOrderIds := by
    intro i hi
    rcases List.mem_cons.mp hi with rfl | hi
    · exact List.mem_range.mpr hid
    · obtain ⟨o, ho, rfl⟩ := List.mem_map.mp hi
      exact List.mem_range.mpr (h.small o ho)
  have hlen := (hnd.subperm hsub).length_le
  rw [List.length_cons, List.length_map, List.length_range] at hlen
  exact hlen

/-- Slots of the other orders do not move when a new one is placed. -/
theorem slotsAt_update (addr : Nat → Nat) (hfresh : ∀ o' ∈ l, o'.orderId ≠ o.orderId)
    (side : Side) (price : Int) :
    slotsAt (Function.update addr o.orderId a) l side price = slotsAt addr l side price :=
  List.map_congr_left fun o' ho' =>
    Function.update_of_ne (hfresh o' (mem_restingAt.mp ho').1) _ _

/-- **A new order** in a fresh slot. -/
theorem enter (h : Orders oid p addr l) (hsmall : o.orderId < kMaxOrderIds)
    (hside : o.side.Directional) (hfresh : ∀ o' ∈ l, o'.orderId ≠ o.orderId)
    (hinv : p'.Inv ((l.map fun o => addr o.orderId) ++ [a])) (hcap : p'.capacity = kMaxOrderIds)
    (hcore : ∀ b ∈ l.map fun o => addr o.orderId,
      orderLinks.core p' b = orderLinks.core p b)
    (hnode : ∃ n, p'.object? a = some n ∧ Holds n o) :
    Orders (Function.update oid o.orderId (some a)) p' (Function.update addr o.orderId a)
      (l ++ [o]) where
  ids := by
    rw [List.map_append, List.map_singleton, List.nodup_append]
    refine ⟨h.ids, List.nodup_singleton _, fun id hid id' hid' heq => ?_⟩
    obtain ⟨o', ho', rfl⟩ := List.mem_map.mp hid
    exact hfresh o' ho' (heq.trans (List.mem_singleton.mp hid'))
  small := by
    intro o' ho'
    rcases List.mem_append.mp ho' with ho' | ho'
    · exact h.small o' ho'
    · rw [List.mem_singleton.mp ho']
      exact hsmall
  sides := by
    intro o' ho'
    rcases List.mem_append.mp ho' with ho' | ho'
    · exact h.sides o' ho'
    · rw [List.mem_singleton.mp ho']
      exact hside
  table := by
    intro id
    rw [Function.update_apply, Function.update_apply]
    split
    · next heq =>
      rw [if_pos ⟨o, by simp, heq.symm⟩]
    · next hne =>
      rw [h.table]
      refine if_congr ?_ rfl rfl
      simp [or_and_right, exists_or, Ne.symm hne]
  pool := by
    have hmap : ((l ++ [o]).map fun o' => Function.update addr o.orderId a o'.orderId) =
        (l.map fun o => addr o.orderId) ++ [a] := by
      rw [List.map_append]
      congr 1
      · exact List.map_congr_left fun o' ho' => Function.update_of_ne (hfresh o' ho') _ _
      · simp
    rw [hmap]
    exact hinv
  capacity := hcap
  node := by
    intro o' ho'
    rcases List.mem_append.mp ho' with ho' | ho'
    · rw [Function.update_of_ne (hfresh o' ho')]
      obtain ⟨n, hn, hholds⟩ := h.node o' ho'
      obtain ⟨n', hn', hbare⟩ := LinkFields.object_of_core (hcore _ (mem_live ho')) hn
      exact ⟨n', hn', hholds.of_bare hbare⟩
    · rw [List.mem_singleton.mp ho', Function.update_self]
      exact hnode

/-- **An order leaves** and its slot is released. -/
theorem leave (h : Orders oid p addr l) (ho : o ∈ l)
    (hinv : p'.Inv (l.map fun o => addr o.orderId)) (hcap : p'.capacity = kMaxOrderIds)
    (hcore : ∀ b, orderLinks.core p' b = orderLinks.core p b) :
    Orders (Function.update oid o.orderId none) (p'.deallocate (addr o.orderId)) addr
      (l.filter fun o' => o'.orderId ≠ o.orderId) where
  ids := h.ids.sublist (List.filter_sublist.map _)
  small := fun o' ho' => h.small o' (List.mem_filter.mp ho').1
  sides := fun o' ho' => h.sides o' (List.mem_filter.mp ho').1
  table := by
    intro id
    rw [Function.update_apply]
    split
    · next heq =>
      rw [if_neg]
      rintro ⟨o', ho', hid⟩
      simp [hid, heq] at ho'
    · next hne =>
      rw [h.table]
      refine if_congr ⟨?_, ?_⟩ rfl rfl
      · rintro ⟨o', ho', rfl⟩
        exact ⟨o', by simp [ho', hne], rfl⟩
      · rintro ⟨o', ho', hid⟩
        exact ⟨o', (List.mem_filter.mp ho').1, hid⟩
  pool := by
    refine (hinv.deallocate (mem_live ho)).perm (List.Perm.of_eq ?_)
    rw [h.pool.nodup.erase_eq_filter, List.filter_map]
    congr 1
    refine List.filter_congr fun o' ho' => ?_
    simp only [Function.comp_apply, ne_eq, decide_not, bne]
    congr 1
    rw [beq_eq_decide, decide_eq_decide]
    exact ⟨fun heq => by rw [h.eq_of_addr ho' ho heq], fun heq => by rw [heq]⟩
  capacity := hcap
  node := by
    intro o' ho'
    obtain ⟨hl, hne⟩ := List.mem_filter.mp ho'
    obtain ⟨n, hn, hholds⟩ := h.node o' hl
    obtain ⟨n', hn', hbare⟩ := LinkFields.object_of_core (hcore _) hn
    refine ⟨n', ?_, hholds.of_bare hbare⟩
    rw [MemPool.object?_deallocate_of_ne fun heq => ?_]
    · exact hn'
    · rw [h.eq_of_addr hl ho heq] at hne
      simp at hne

end Orders

/-! ## 3. The book -/

/-- The orders of a level are linked in this order. -/
def QueueOf (m : MarketOrderBook) (entry : Nat) (q : List Nat) : Prop :=
  ∃ v, m.ordersAtPricePool.object? entry = some v ∧ v.firstMktOrder = q.head? ∧
    Links.Ring (orderLinks.nx m.orderPool) (orderLinks.pv m.orderPool) q

theorem QueueOf.congr {m m' : MarketOrderBook} {entry : Nat} {q : List Nat}
    (h : m.QueueOf entry q) (hsame : Levels.SameEntry m m' entry)
    (hlinks : ∀ x ∈ q, orderLinks.nx m'.orderPool x = orderLinks.nx m.orderPool x ∧
      orderLinks.pv m'.orderPool x = orderLinks.pv m.orderPool x) : m'.QueueOf entry q := by
  obtain ⟨v, hv, hfirst, hring⟩ := h
  obtain ⟨v', hv', hfirst'⟩ := hsame v hv
  exact ⟨v', hv', hfirst'.trans hfirst, hring.congr hlinks⟩

/-- **The book mirrors the live orders `l`.** -/
structure Mirrors (m : MarketOrderBook) (addr : Nat → Nat) (ladder : Side → List Rung)
    (l : List LiveOrder) : Prop where
  orders : Orders m.oidToOrder m.orderPool addr l
  levels : m.Levels ladder
  /-- A level for each price with an order, and no other. -/
  rung : ∀ side, side.Directional → ∀ price,
    (∃ r ∈ ladder side, r.price = price) ↔ restingAt l side price ≠ []
  queue : ∀ side, side.Directional → ∀ r ∈ ladder side,
    m.QueueOf r.slot (slotsAt addr l side r.price)

theorem mirrors_init (addr : Nat → Nat) : init.Mirrors addr (fun _ => []) [] where
  orders := ⟨List.nodup_nil, by simp, by simp, fun id => by simp [init], MemPool.init_inv _, rfl,
    by simp⟩
  levels := levels_init
  rung := by simp [restingAt]
  queue := by simp

namespace Mirrors

variable {m : MarketOrderBook} {addr : Nat → Nat} {ladder : Side → List Rung}
  {l : List LiveOrder} {o : LiveOrder} {side : Side} {r : Rung}

/-- The level of a live order. -/
theorem exists_rung (h : m.Mirrors addr ladder l) (ho : o ∈ l) :
    ∃ r ∈ ladder o.side, r.price = o.price :=
  (h.rung o.side (h.orders.sides o ho) o.price).mpr
    (List.ne_nil_of_mem (mem_restingAt.mpr ⟨ho, rfl, rfl⟩))

/-- A level has an order. -/
theorem exists_order (h : m.Mirrors addr ladder l) (hs : side.Directional) (hr : r ∈ ladder side) :
    ∃ o ∈ l, o.At side r.price := by
  obtain ⟨o, ho⟩ := List.exists_mem_of_ne_nil _ ((h.rung side hs r.price).mp ⟨r, hr, rfl⟩)
  exact ⟨o, mem_restingAt.mp ho⟩

theorem slotsAt_ne_nil (h : m.Mirrors addr ladder l) (hs : side.Directional)
    (hr : r ∈ ladder side) : slotsAt addr l side r.price ≠ [] := by
  obtain ⟨o, ho, hat⟩ := h.exists_order hs hr
  exact List.ne_nil_of_mem (mem_slotsAt.mpr ⟨o, ho, hat, rfl⟩)

/-- Two levels of a side have different prices. -/
theorem rung_unique (h : m.Mirrors addr ladder l) (hs : side.Directional) {r' : Rung}
    (hr : r ∈ ladder side) (hr' : r' ∈ ladder side) (heq : r.price = r'.price) : r = r' :=
  h.levels.eq_of_index (mem_allRungs.mpr ⟨side, hs, hr⟩) (mem_allRungs.mpr ⟨side, hs, hr'⟩)
    (by rw [heq])

end Mirrors

end MarketOrderBook

end YQuant
