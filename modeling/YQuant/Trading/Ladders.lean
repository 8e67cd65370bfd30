/-
# The price levels of a book

Both sides keep their levels in one pool and find them through one table.  `Levels` says so of two
ladders, `enter_spec` and `leave_spec` that a new level and the removal of one keep it.  There is
always room for a new level, because two levels never share a cell of the table.

A cell is the price modulo the size of the table.  Two prices of the band are never that far apart,
so the cell of a price is free exactly if no level has the price, on either side; and one table can
serve both sides because the exchange's book is never locked.  What is kept here is only that two
levels never share a cell (`eq_of_index`).

The pool has as many slots as the table has cells, so a free cell is room for a level (`room`), and
no condition on the number of levels is left to the callers.  What a level stores besides its
links, the price and its first order, is framed by both specifications (`SameEntry`).
-/
import Mathlib.Data.List.Perm.Subperm
import YQuant.Trading.PriceLadder

namespace YQuant
namespace MarketOrderBook

/-! ## 1. The rungs of both sides -/

/-- The levels of both sides. -/
def allRungs (ladder : Side → List Rung) : List Rung := ladder .buy ++ ladder .sell

section Rungs

variable {ladder : Side → List Rung} {side side' : Side} {r new : Rung} {rungs : List Rung}

theorem mem_allRungs : r ∈ allRungs ladder ↔ ∃ side, side.Directional ∧ r ∈ ladder side := by
  simp [allRungs, Side.Directional, or_and_right, exists_or]

theorem allRungs_update (ladder : Side → List Rung) (hs : side.Directional)
    (h : rungs.Perm (new :: ladder side)) :
    (allRungs (Function.update ladder side rungs)).Perm (new :: allRungs ladder) := by
  rcases hs with rfl | rfl
  · simpa [allRungs] using h.append_right (ladder .sell)
  · simp only [allRungs, Function.update_self, Function.update_of_ne (Side.noConfusion :
      ¬ Side.buy = Side.sell)]
    exact (h.append_left _).trans List.perm_middle

@[simp] theorem oidToOrder_setBest (m : MarketOrderBook) (side : Side) (best : Option Nat) :
    (m.setBestOrdersByPrice side best).oidToOrder = m.oidToOrder := by
  unfold setBestOrdersByPrice
  split <;> rfl

@[simp] theorem orderPool_setBest (m : MarketOrderBook) (side : Side) (best : Option Nat) :
    (m.setBestOrdersByPrice side best).orderPool = m.orderPool := by
  unfold setBestOrdersByPrice
  split <;> rfl

@[simp] theorem bbo_setBest (m : MarketOrderBook) (side : Side) (best : Option Nat) :
    (m.setBestOrdersByPrice side best).bbo = m.bbo := by
  unfold setBestOrdersByPrice
  split <;> rfl

end Rungs

/-! ## 2. The invariant -/

/-- **The levels of both sides**: their pool, the lists of the two sides and the table. -/
structure Levels (m : MarketOrderBook) (ladder : Side → List Rung) : Prop where
  pool : m.ordersAtPricePool.Inv ((allRungs ladder).map Rung.slot)
  capacity : m.ordersAtPricePool.capacity = kMaxPriceLevels
  sides : ∀ side, side.Directional →
    Ladder m.ordersAtPricePool side (m.bestOrdersByPrice side) (ladder side)
  table : ∀ i a, m.priceOrdersAtPrice i = some a ↔
    ∃ r ∈ allRungs ladder, r.slot = a ∧ priceToIndex r.price = i

theorem levels_init : init.Levels fun _ => [] where
  pool := MemPool.init_inv _
  capacity := rfl
  sides := fun side _ => ⟨by simp [bestOrdersByPrice, init], trivial, List.Pairwise.nil, by simp⟩
  table := fun i a => by simp [init, allRungs]

namespace Levels

variable {m : MarketOrderBook} {ladder : Side → List Rung} {side : Side} {r s : Rung} {price : Int}

theorem nodup (h : m.Levels ladder) : ((allRungs ladder).map Rung.slot).Nodup := h.pool.nodup

theorem mem_live (hs : side.Directional) (hr : r ∈ ladder side) :
    r.slot ∈ (allRungs ladder).map Rung.slot :=
  List.mem_map_of_mem (mem_allRungs.mpr ⟨side, hs, hr⟩)

theorem nodup_side (h : m.Levels ladder) (hs : side.Directional) :
    ((ladder side).map Rung.slot).Nodup := by
  have hnd := h.nodup
  rw [allRungs, List.map_append] at hnd
  rcases hs with rfl | rfl
  · exact (List.nodup_append.mp hnd).1
  · exact (List.nodup_append.mp hnd).2.1

/-- No level is on two sides. -/
theorem side_unique (h : m.Levels ladder) {side' : Side} (hs : side.Directional)
    (hs' : side'.Directional) (hr : r ∈ ladder side) (hs₂ : s ∈ ladder side')
    (heq : r.slot = s.slot) : side = side' ∧ r = s := by
  obtain ⟨v, hv, hvs, hvp⟩ := (h.sides side hs).entry r hr
  obtain ⟨w, hw, hws, hwp⟩ := (h.sides side' hs').entry s hs₂
  rw [heq, hw] at hv
  obtain rfl := Option.some.inj hv
  refine ⟨hvs.symm.trans hws, ?_⟩
  cases r
  cases s
  simp_all

/-- The list of one side has no level of the other. -/
theorem slot_not_mem_of_ne (h : m.Levels ladder) {side' : Side} (hs : side.Directional)
    (hs' : side'.Directional) (hne : side' ≠ side) (hr : r ∈ ladder side') :
    r.slot ∉ (ladder side).map Rung.slot := by
  intro hmem
  obtain ⟨s, hs₂, heq⟩ := List.mem_map.mp hmem
  exact hne (h.side_unique hs' hs hr hs₂ heq.symm).1

/-- Two levels never share a cell of the table. -/
theorem eq_of_index (h : m.Levels ladder) (hr : r ∈ allRungs ladder) (hs : s ∈ allRungs ladder)
    (heq : priceToIndex r.price = priceToIndex s.price) : r = s := by
  have h1 := (h.table _ _).mpr ⟨r, hr, rfl, heq⟩
  have h2 := (h.table _ _).mpr ⟨s, hs, rfl, rfl⟩
  exact List.inj_on_of_nodup_map h.nodup hr hs (Option.some.inj (h1.symm.trans h2))

theorem priceToIndex_lt (price : Int) : priceToIndex price < kMaxPriceLevels := by
  unfold priceToIndex
  have h1 := Int.emod_lt_of_pos price (b := (kMaxPriceLevels : Int)) (by decide)
  have h2 := Int.emod_nonneg price (b := (kMaxPriceLevels : Int)) (by decide)
  omega

theorem indices_nodup (h : m.Levels ladder) :
    ((allRungs ladder).map fun r => priceToIndex r.price).Nodup :=
  List.Nodup.map_on (fun _ hr _ hs heq => h.eq_of_index hr hs heq) h.nodup.of_map

/-- No level is in a free cell of the table. -/
theorem index_ne_of_free (h : m.Levels ladder) (hfree : m.getOrdersAtPrice price = none) :
    ∀ r ∈ allRungs ladder, priceToIndex r.price ≠ priceToIndex price := by
  intro r hr heq
  have := (h.table _ _).mpr ⟨r, hr, rfl, heq⟩
  rw [getOrdersAtPrice, this] at hfree
  cases hfree

/-- **A free cell of the table is room for a level.** -/
theorem room (h : m.Levels ladder) (hfree : m.getOrdersAtPrice price = none) :
    (allRungs ladder).length < kMaxPriceLevels := by
  have hnot : priceToIndex price ∉ (allRungs ladder).map fun r => priceToIndex r.price := by
    intro hmem
    obtain ⟨r, hr, heq⟩ := List.mem_map.mp hmem
    exact h.index_ne_of_free hfree r hr heq
  have hnd := List.nodup_cons.mpr ⟨hnot, h.indices_nodup⟩
  have hsub : (priceToIndex price :: (allRungs ladder).map fun r => priceToIndex r.price) ⊆
      List.range kMaxPriceLevels := by
    intro i hi
    rcases List.mem_cons.mp hi with rfl | hi
    · exact List.mem_range.mpr (priceToIndex_lt _)
    · obtain ⟨r, -, rfl⟩ := List.mem_map.mp hi
      exact List.mem_range.mpr (priceToIndex_lt _)
  have hlen := (hnd.subperm hsub).length_le
  rw [List.length_cons, List.length_map, List.length_range] at hlen
  exact hlen

theorem length_le (h : m.Levels ladder) (hs : side.Directional) :
    (ladder side).length ≤ kMaxPriceLevels := by
  have hle := h.pool.length_le
  rw [h.capacity, allRungs, List.map_append, List.length_append, List.length_map,
    List.length_map] at hle
  rcases hs with rfl | rfl <;> omega

/-- A level found in the table. -/
theorem get_eq_some (h : m.Levels ladder) (hs : side.Directional) (hr : r ∈ ladder side) :
    m.getOrdersAtPrice r.price = some r.slot :=
  (h.table _ _).mpr ⟨r, mem_allRungs.mpr ⟨side, hs, hr⟩, rfl, rfl⟩

/-- Writing one cell of the table, when only the levels of that cell have changed. -/
theorem table_update {table : Nat → Option Nat} {old new : List Rung} {k : Nat}
    {cell : Option Nat}
    (htable : ∀ i a, table i = some a ↔ ∃ r ∈ old, r.slot = a ∧ priceToIndex r.price = i)
    (hsame : ∀ r, priceToIndex r.price ≠ k → (r ∈ new ↔ r ∈ old))
    (hcell : ∀ a, cell = some a ↔ ∃ r ∈ new, r.slot = a ∧ priceToIndex r.price = k) (i a : Nat) :
    Function.update table k cell i = some a ↔
      ∃ r ∈ new, r.slot = a ∧ priceToIndex r.price = i := by
  rcases eq_or_ne i k with rfl | hi
  · rw [Function.update_self]
    exact hcell a
  · rw [Function.update_of_ne hi, htable]
    refine exists_congr fun r => and_congr_left fun ⟨_, hr⟩ => ?_
    exact (hsame r (hr ▸ hi)).symm

/-! ## 3. A new level, and one that leaves -/

/-- What a level stores besides its links is the same in both books. -/
def SameEntry (m m' : MarketOrderBook) (a : Nat) : Prop :=
  ∀ v, m.ordersAtPricePool.object? a = some v →
    ∃ v', m'.ordersAtPricePool.object? a = some v' ∧ v'.firstMktOrder = v.firstMktOrder

theorem sameEntry_of_core {m' : MarketOrderBook} {a : Nat}
    (hcore : entryLinks.core m'.ordersAtPricePool a = entryLinks.core m.ordersAtPricePool a) :
    SameEntry m m' a := fun _ hv => by
  obtain ⟨v', hv', -, -, hfirst⟩ := entry_of_core hcore hv
  exact ⟨v', hv', hfirst⟩

/-- **Opening a level** at a price whose cell is free. -/
theorem enter_spec (h : m.Levels ladder) (hs : side.Directional)
    (hfree : m.getOrdersAtPrice price = none) (first : Option Nat) :
    ∃ e levels m', m.ordersAtPricePool.allocate ⟨side, price, first, none, none⟩ =
        .ok (e, levels) ∧
      addOrdersAtPrice { m with ordersAtPricePool := levels } (some e) = .ok m' ∧
      m'.Levels (Function.update ladder side (enter side ⟨price, e⟩ (ladder side))) ∧
      (∃ v, m'.ordersAtPricePool.object? e = some v ∧ v.firstMktOrder = first) ∧
      (∀ r ∈ allRungs ladder, r.slot ≠ e ∧ SameEntry m m' r.slot) ∧
      m'.oidToOrder = m.oidToOrder ∧ m'.orderPool = m.orderPool ∧ m'.bbo = m.bbo := by
  have hcells := h.index_ne_of_free hfree
  obtain ⟨e, levels, halloc, hfresh, hinv, hcap, hobj⟩ := h.pool.allocate_spec
    (by rw [List.length_map, h.capacity]; exact h.room hfree)
    (⟨side, price, first, none, none⟩ : MarketOrdersAtPrice)
  have hne : ∀ r ∈ allRungs ladder, r.slot ≠ e := fun r hr heq =>
    hfresh (heq ▸ List.mem_map_of_mem hr)
  have hsame : ∀ r ∈ allRungs ladder, levels.object? r.slot = m.ordersAtPricePool.object? r.slot :=
    fun r hr => by rw [hobj, if_neg (hne r hr)]
  have hladder : ∀ side', side'.Directional →
      Ladder levels side' (m.bestOrdersByPrice side') (ladder side') := fun side' hs' =>
    (h.sides side' hs').congr
      (fun r hr => ⟨LinkFields.nx_congr (hsame r (mem_allRungs.mpr ⟨_, hs', hr⟩)),
        LinkFields.pv_congr (hsame r (mem_allRungs.mpr ⟨_, hs', hr⟩))⟩)
      (fun r hr => by
        rw [LinkFields.core, LinkFields.core, hsame r (mem_allRungs.mpr ⟨_, hs', hr⟩)])
  have hprice : ∀ r ∈ ladder side, r.price ≠ price := fun r hr heq =>
    hcells r (mem_allRungs.mpr ⟨side, hs, hr⟩) (heq ▸ rfl)
  have hentry : levels.object? e = some ⟨side, price, first, none, none⟩ := by rw [hobj, if_pos rfl]
  obtain ⟨p', hadd, hplaced⟩ := addOrdersAtPrice_spec ⟨price, e⟩
    (m := { m with ordersAtPricePool := levels }) hs hinv
    (fun r hr => List.mem_append_left _ (mem_live hs hr)) (by simp)
    (fun hmem => hfresh (by
      obtain ⟨r, hr, heq⟩ := List.mem_map.mp hmem
      exact List.mem_map.mpr ⟨r, mem_allRungs.mpr ⟨side, hs, hr⟩, heq⟩))
    hprice (h.nodup_side hs) (h.length_le hs) hentry rfl rfl (hladder side hs)
  refine ⟨e, levels, _, halloc, hadd, ⟨?_, ?_, ?_, ?_⟩, ?_, fun r hr => ⟨hne r hr, ?_⟩, ?_, ?_, ?_⟩
  · rw [ordersAtPricePool_setBest]
    refine hplaced.inv.perm ?_
    have hperm := (allRungs_update ladder hs (enter_perm side ⟨price, e⟩ (ladder side))).map
      Rung.slot
    exact (List.perm_append_singleton _ _).trans hperm.symm
  · rw [ordersAtPricePool_setBest]
    exact hplaced.capacity.trans (hcap.trans h.capacity)
  · intro side' hs'
    rw [ordersAtPricePool_setBest, best_setBest _ hs hs']
    split
    · next heq =>
      subst heq
      rw [Function.update_self]
      exact (hladder side' hs').of_placed hs' hplaced hentry rfl rfl hprice
    · next hne' =>
      rw [Function.update_of_ne hne']
      exact (hladder side' hs').congr (fun r hr => hplaced.frame _
        (hne r (mem_allRungs.mpr ⟨side', hs', hr⟩)) (h.slot_not_mem_of_ne hs hs' hne' hr))
        fun r _ => hplaced.core _
  · rw [priceOrdersAtPrice_setBest]
    have hmem : ∀ r, r ∈ allRungs (Function.update ladder side
        (enter side ⟨price, e⟩ (ladder side))) ↔ r = ⟨price, e⟩ ∨ r ∈ allRungs ladder := fun r =>
      (allRungs_update ladder hs (enter_perm _ _ _)).mem_iff.trans List.mem_cons
    refine table_update h.table (fun r hr => ?_) fun a => ⟨fun ha => ?_, ?_⟩
    · rw [hmem, or_iff_right]
      rintro rfl
      exact hr rfl
    · exact ⟨⟨price, e⟩, (hmem _).mpr (.inl rfl), Option.some.inj ha, rfl⟩
    · rintro ⟨r, hr, rfl, heq⟩
      rcases (hmem r).mp hr with rfl | hr
      · rfl
      · exact absurd heq (hcells r hr)
  · obtain ⟨v', hv', -, -, hfirst⟩ := entry_of_core (hplaced.core e) hentry
    exact ⟨v', by rw [ordersAtPricePool_setBest]; exact hv', hfirst⟩
  · refine sameEntry_of_core ?_
    rw [ordersAtPricePool_setBest]
    exact (hplaced.core _).trans (by
      rw [LinkFields.core, LinkFields.core]
      exact congrArg (Option.map _) (hsame r hr))
  · exact oidToOrder_setBest _ _ _
  · exact orderPool_setBest _ _ _
  · exact bbo_setBest _ _ _

/-- **Closing a level.** -/
theorem leave_spec (h : m.Levels ladder) (hs : side.Directional) {l l' : List Rung}
    (hl : ladder side = l ++ r :: l') :
    ∃ m', m.removeOrdersAtPrice side r.price = .ok m' ∧
      m'.Levels (Function.update ladder side (l ++ l')) ∧
      (∀ s ∈ allRungs (Function.update ladder side (l ++ l')), SameEntry m m' s.slot) ∧
      m'.oidToOrder = m.oidToOrder ∧ m'.orderPool = m.orderPool ∧ m'.bbo = m.bbo := by
  have hr : r ∈ ladder side := by rw [hl]; simp
  have hrest := h.sides side hs
  rw [hl] at hrest
  obtain ⟨p', hremove, hinv, hcap, hladder, hcore, hframe⟩ := removeOrdersAtPrice_spec h.pool
    (fun x hx => mem_live hs (by rw [hl]; exact hx)) (hl ▸ h.nodup_side hs)
    (h.get_eq_some hs hr) hrest
  have hperm : (allRungs ladder).Perm (r :: allRungs (Function.update ladder side (l ++ l'))) := by
    have hmid : (ladder side).Perm (r :: Function.update ladder side (l ++ l') side) := by
      rw [Function.update_self, hl]
      exact List.perm_middle
    have := allRungs_update _ hs hmid
    rwa [Function.update_idem, Function.update_eq_self] at this
  have hnd := (hperm.map Rung.slot).nodup_iff.mp h.nodup
  rw [List.map_cons, List.nodup_cons] at hnd
  have hne : ∀ s ∈ allRungs (Function.update ladder side (l ++ l')), s.slot ≠ r.slot :=
    fun s hs₂ heq => hnd.1 (heq ▸ List.mem_map_of_mem hs₂)
  refine ⟨_, hremove, ⟨?_, ?_, ?_, ?_⟩, fun s hs₂ => ?_, ?_, ?_, ?_⟩
  · rw [ordersAtPricePool_setBest]
    refine hinv.perm ?_
    have := ((hperm.map Rung.slot).erase r.slot)
    rwa [List.map_cons, List.erase_cons_head] at this
  · rw [ordersAtPricePool_setBest]
    exact hcap.trans h.capacity
  · intro side' hs'
    rw [ordersAtPricePool_setBest, best_setBest _ hs hs']
    split
    · next heq =>
      subst heq
      rw [Function.update_self]
      exact hladder
    · next hne' =>
      rw [Function.update_of_ne hne']
      exact (h.sides side' hs').congr
        (fun s hs₂ => hframe _ (hl ▸ h.slot_not_mem_of_ne hs hs' hne' hs₂)) fun s hs₂ =>
          hcore _ fun heq => hne' (h.side_unique hs' hs hs₂ hr heq).1
  · rw [priceOrdersAtPrice_setBest]
    refine table_update h.table (fun s hi => ?_) fun a => ⟨fun ha => (by cases ha), ?_⟩
    · rw [hperm.mem_iff, List.mem_cons, or_iff_right]
      rintro rfl
      exact hi rfl
    · rintro ⟨s, hs₂, -, heq⟩
      have hsr := h.eq_of_index (hperm.mem_iff.mpr (List.mem_cons_of_mem _ hs₂))
        (mem_allRungs.mpr ⟨side, hs, hr⟩) heq
      exact absurd (congrArg Rung.slot hsr) (hne s hs₂)
  · refine sameEntry_of_core ?_
    rw [ordersAtPricePool_setBest]
    exact hcore _ (hne s hs₂)
  · exact oidToOrder_setBest _ _ _
  · exact orderPool_setBest _ _ _
  · exact bbo_setBest _ _ _

end Levels

end MarketOrderBook

end YQuant
