/-
# The snapshot mirrors the live orders

`s.Mirrors addr M n` says that the synthesizer has seen `n` updates and that its table and pool
hold exactly the live orders `M` of all symbols; `addr` places each order in a slot.  The
assertions of `AddtoSnapshot` are the side conditions of the step lemma
(`Mirrors.addToSnapshot`): they hold of every update a book publishes.

`follows_market` is the result for whole runs of the matching engine, `publishSnapshot_eq` says
what a snapshot cycle sends.

Each case of the step is a statement about one slot: an `ADD` takes a free one for an id that has
none, a `MODIFY` writes to the one of its order, a `CANCEL` gives it back.  Everything else is
framed, across all symbols, because an order is known by symbol and id and the slots of different
orders are different (`eq_of_addr`).

The pool has as many slots as there are order ids of one symbol, and serves all symbols; that the
live orders fit is a condition of the results (`Lifetime.lean` says how a run can keep it).  A
cycle reads the table by ascending id, and writes no queue positions; a client has to know that ids
ascend along the queues (`SnapshotRebuild.lean`).
-/
import Mathlib.Data.List.Sort
import YQuant.MarketData.MarketStream
import YQuant.MarketData.SnapshotSynthesizer
import YQuant.Trading.BookMirror

namespace YQuant

/-- The copy the synthesizer keeps of a live order. -/
def LiveOrder.snapshot (o : LiveOrder) (symbolId : Nat) : MatchingEngineMarketUpdate :=
  ⟨.add, symbolId, o.orderId, o.side, o.price, o.quantity, o.priority⟩

/-! ## 1. Slots of all symbols -/

/-- The slots of the live orders of all symbols. -/
def liveSlots (addr : Nat → Nat → Nat) (M : Market) : List Nat :=
  (List.range kMaxSymbols).flatMap fun s => (M s).map fun o => addr s o.orderId

/-- One more element in one of the pieces is one more element. -/
theorem flatMap_perm_cons {l : List Nat} {s a : Nat} (f f' : Nat → List Nat) (hnd : l.Nodup)
    (hs : s ∈ l) (hoff : ∀ i, i ≠ s → f' i = f i) (hat : (f' s).Perm (a :: f s)) :
    (l.flatMap f').Perm (a :: l.flatMap f) := by
  induction l with
  | nil => cases hs
  | cons i l ih =>
    obtain ⟨hnot, hnd⟩ := List.nodup_cons.mp hnd
    rw [List.flatMap_cons, List.flatMap_cons]
    rcases List.mem_cons.mp hs with rfl | hs
    · have hrest : l.flatMap f' = l.flatMap f := List.flatMap_congr fun j hj =>
        hoff j fun heq => hnot (heq ▸ hj)
      rw [hrest]
      exact hat.append_right _
    · have hne : i ≠ s := fun heq => hnot (heq ▸ hs)
      rw [hoff i hne]
      exact ((ih hnd hs).append_left _).trans List.perm_middle

theorem length_liveSlots (addr : Nat → Nat → Nat) (M : Market) :
    (liveSlots addr M).length = M.total := by
  simp [liveSlots, Market.total, List.length_flatMap]

namespace SnapshotSynthesizer

/-- **The synthesizer mirrors the live orders of all symbols.** -/
structure Mirrors (s : SnapshotSynthesizer) (addr : Nat → Nat → Nat) (M : Market) (n : Nat) :
    Prop where
  lastIncSeqNum : s.lastIncSeqNum = n
  ids : ∀ symbol, symbol < kMaxSymbols → ((M symbol).map LiveOrder.orderId).Nodup
  small : ∀ symbol, symbol < kMaxSymbols → ∀ o ∈ M symbol, o.orderId < kMaxOrderIds
  table : ∀ symbol, symbol < kMaxSymbols → ∀ id, s.symbolOrders symbol id =
    if ∃ o ∈ M symbol, o.orderId = id then some (addr symbol id) else none
  node : ∀ symbol, symbol < kMaxSymbols → ∀ o ∈ M symbol,
    s.orderPool.object? (addr symbol o.orderId) = some (o.snapshot symbol)
  pool : s.orderPool.Inv (liveSlots addr M)
  capacity : s.orderPool.capacity = kMaxOrderIds

theorem mirrors_init (addr : Nat → Nat → Nat) : init.Mirrors addr .empty 0 where
  lastIncSeqNum := rfl
  ids := fun _ _ => List.nodup_nil
  small := by simp [Market.empty]
  table := fun symbol _ id => by simp [init, Market.empty]
  node := by simp [Market.empty]
  pool := MemPool.init_inv _
  capacity := rfl

namespace Mirrors

variable {s : SnapshotSynthesizer} {addr : Nat → Nat → Nat} {M : Market} {n symbol symbol' : Nat}
  {o o' : LiveOrder}

theorem mem_liveSlots (hsym : symbol < kMaxSymbols) (ho : o ∈ M symbol) :
    addr symbol o.orderId ∈ liveSlots addr M :=
  List.mem_flatMap.mpr ⟨symbol, List.mem_range.mpr hsym,
    List.mem_map_of_mem (f := fun o => addr symbol o.orderId) ho⟩

/-- Different orders are in different slots, across all symbols. -/
theorem eq_of_addr (h : s.Mirrors addr M n) (hsym : symbol < kMaxSymbols)
    (hsym' : symbol' < kMaxSymbols) (ho : o ∈ M symbol) (ho' : o' ∈ M symbol')
    (heq : addr symbol o.orderId = addr symbol' o'.orderId) : symbol = symbol' ∧ o = o' := by
  obtain ⟨hin, hdis⟩ := List.nodup_flatMap.mp h.pool.nodup
  rcases eq_or_ne symbol symbol' with rfl | hne
  · exact ⟨rfl, List.inj_on_of_nodup_map (hin symbol (List.mem_range.mpr hsym)) ho ho' heq⟩
  · have h1 : addr symbol o.orderId ∈ (M symbol).map fun o => addr symbol o.orderId :=
      List.mem_map_of_mem (f := fun o => addr symbol o.orderId) ho
    have h2 : addr symbol o.orderId ∈ (M symbol').map fun o => addr symbol' o.orderId :=
      heq ▸ List.mem_map_of_mem (f := fun o => addr symbol' o.orderId) ho'
    have hsymm : Std.Symm (Function.onFun List.Disjoint
        fun s => (M s).map fun o => addr s o.orderId) := ⟨fun _ _ hd => hd.symm⟩
    exact absurd h2 (hdis.forall (List.mem_range.mpr hsym) (List.mem_range.mpr hsym') hne h1)

theorem orderAt_eq (h : s.Mirrors addr M n) (hsym : symbol < kMaxSymbols) (ho : o ∈ M symbol) :
    s.orderAt symbol o.orderId = .ok (some (addr symbol o.orderId)) := by
  rw [orderAt, if_pos (h.small symbol hsym o ho), h.table symbol hsym, if_pos ⟨o, ho, rfl⟩]

/-! ## 2. One update -/

/-- What has to be shown of the symbol of an update. -/
theorem of_symbol (h : s.Mirrors addr M n) (symbol : Nat) (s' : SnapshotSynthesizer)
    (l : List LiveOrder) (f : Nat → Nat) (hlast : s'.lastIncSeqNum = s.lastIncSeqNum)
    (hids : (l.map LiveOrder.orderId).Nodup) (hsmall : ∀ o ∈ l, o.orderId < kMaxOrderIds)
    (htable : ∀ id, s'.symbolOrders symbol id =
      if ∃ o ∈ l, o.orderId = id then some (f id) else none)
    (hnode : ∀ o ∈ l, s'.orderPool.object? (f o.orderId) = some (o.snapshot symbol))
    (hothers : ∀ s₂, s₂ ≠ symbol → s'.symbolOrders s₂ = s.symbolOrders s₂)
    (hframe : ∀ s₂, s₂ < kMaxSymbols → s₂ ≠ symbol → ∀ o ∈ M s₂,
      s'.orderPool.object? (addr s₂ o.orderId) = s.orderPool.object? (addr s₂ o.orderId))
    (hpool : s'.orderPool.Inv
      (liveSlots (Function.update addr symbol f) (Function.update M symbol l)))
    (hcap : s'.orderPool.capacity = kMaxOrderIds) :
    s'.Mirrors (Function.update addr symbol f) (Function.update M symbol l) n where
  lastIncSeqNum := hlast.trans h.lastIncSeqNum
  ids := fun s₂ hs₂ => by
    rcases eq_or_ne s₂ symbol with rfl | hne
    · rwa [Function.update_self]
    · rw [Function.update_of_ne hne]
      exact h.ids s₂ hs₂
  small := fun s₂ hs₂ => by
    rcases eq_or_ne s₂ symbol with rfl | hne
    · rwa [Function.update_self]
    · rw [Function.update_of_ne hne]
      exact h.small s₂ hs₂
  table := fun s₂ hs₂ => by
    rcases eq_or_ne s₂ symbol with rfl | hne
    · rw [Function.update_self, Function.update_self]
      exact htable
    · rw [Function.update_of_ne hne, Function.update_of_ne hne, hothers s₂ hne]
      exact h.table s₂ hs₂
  node := fun s₂ hs₂ => by
    rcases eq_or_ne s₂ symbol with rfl | hne
    · rw [Function.update_self, Function.update_self]
      exact hnode
    · rw [Function.update_of_ne hne, Function.update_of_ne hne]
      exact fun o ho => (hframe s₂ hs₂ hne o ho).trans (h.node s₂ hs₂ o ho)
  pool := hpool
  capacity := hcap

/-- **`ADD`**: the slot of a fresh id is empty, and there is room for the copy. -/
theorem addOrder (h : s.Mirrors addr M n) {u : MatchingEngineMarketUpdate} (htype : u.type = .add)
    (hsym : u.symbolId < kMaxSymbols) (hsmall : u.orderId < kMaxOrderIds)
    (hfresh : ∀ o ∈ M u.symbolId, o.orderId ≠ u.orderId) (hroom : M.total < kMaxOrderIds) :
    ∃ s' addr', s.addOrder u = .ok s' ∧ s'.Mirrors addr' (replayMarket M u) n := by
  have hnone : s.symbolOrders u.symbolId u.orderId = none := by
    rw [h.table _ hsym, if_neg]
    rintro ⟨o, ho, heq⟩
    exact hfresh o ho heq
  obtain ⟨a, pool, halloc, hnot, hinv, hcap, hobj⟩ := h.pool.allocate_spec
    (by rw [length_liveSlots, h.capacity]; exact hroom) u
  have hlive : ∀ {s₂ : Nat} {o : LiveOrder}, s₂ < kMaxSymbols → o ∈ M s₂ →
      pool.object? (addr s₂ o.orderId) = s.orderPool.object? (addr s₂ o.orderId) :=
    fun hs₂ ho => by
      rw [hobj, if_neg]
      rintro rfl
      exact hnot (mem_liveSlots hs₂ ho)
  have hreplay : replay (M u.symbolId) u =
      M u.symbolId ++ [⟨u.orderId, u.side, u.price, u.quantity, u.priority⟩] := by
    simp [replay, htype]
  refine ⟨{ s with orderPool := pool }.setOrder u.symbolId u.orderId (some a), _, ?_,
    h.of_symbol u.symbolId _ _ (Function.update (addr u.symbolId) u.orderId a) rfl ?_ ?_
      (fun id => ?_) (fun o ho => ?_) (fun s₂ hne => ?_) (fun s₂ hs₂ _ o ho => hlive hs₂ ho) ?_
      (hcap.trans h.capacity)⟩
  · simp only [SnapshotSynthesizer.addOrder, orderAt, if_pos hsmall, ok_bind, hnone, describe,
      Option.isNone_none, assertThat_true, halloc]
  · rw [hreplay, List.map_append, List.map_singleton, List.nodup_append]
    refine ⟨h.ids _ hsym, List.nodup_singleton _, fun id hid id' hid' heq => ?_⟩
    obtain ⟨o, ho, rfl⟩ := List.mem_map.mp hid
    exact hfresh o ho (heq.trans (List.mem_singleton.mp hid'))
  · rw [hreplay]
    intro o ho
    rcases List.mem_append.mp ho with ho | ho
    · exact h.small _ hsym o ho
    · rw [List.mem_singleton.mp ho]
      exact hsmall
  · simp only [setOrder, Function.update_self, hreplay]
    rw [Function.update_apply, Function.update_apply]
    split
    · next heq => rw [if_pos ⟨_, List.mem_append_right _ (List.mem_singleton_self _), heq.symm⟩]
    · next hne =>
      rw [h.table _ hsym]
      refine if_congr ?_ rfl rfl
      simp [or_and_right, exists_or, Ne.symm hne]
  · rw [hreplay] at ho
    rcases List.mem_append.mp ho with ho | ho
    · rw [Function.update_of_ne (hfresh o ho)]
      exact (hlive hsym ho).trans (h.node _ hsym o ho)
    · rw [List.mem_singleton.mp ho, Function.update_self]
      refine (hobj a).trans ((if_pos rfl).trans ?_)
      rw [LiveOrder.snapshot, ← htype]
  · simp [setOrder, hne]
  · refine hinv.perm ((List.perm_append_singleton _ _).trans (List.Perm.symm ?_))
    refine flatMap_perm_cons (s := u.symbolId) _ _ List.nodup_range (List.mem_range.mpr hsym)
      (fun i hi => by rw [Function.update_of_ne hi, Function.update_of_ne hi]) ?_
    rw [Function.update_self, Function.update_self, hreplay, List.map_append]
    refine (List.perm_append_comm).trans ?_
    simp only [List.map_cons, List.map_nil, Function.update_self, List.singleton_append]
    refine List.Perm.cons _ (List.Perm.of_eq (List.map_congr_left fun o ho => ?_))
    rw [Function.update_of_ne (hfresh o ho)]

/-- The checks of `MODIFY` and `CANCEL` pass. -/
theorem checkOrder (h : s.Mirrors addr M n) (hsym : symbol < kMaxSymbols) (ho : o ∈ M symbol)
    {u : MatchingEngineMarketUpdate} (hid : o.orderId = u.orderId) (hside : o.side = u.side) :
    s.checkOrder u (some (addr symbol o.orderId)) = .ok () := by
  have hderef := MemPool.deref_some (h.node symbol hsym o ho)
  simp only [SnapshotSynthesizer.checkOrder, Option.isSome_some, assertThat_true, hderef, ok_bind]
  simp [LiveOrder.snapshot, hid, hside]

/-- **`MODIFY`** of a live order. -/
theorem modifyOrder (h : s.Mirrors addr M n) {u : MatchingEngineMarketUpdate}
    (htype : u.type = .modify) (hsym : u.symbolId < kMaxSymbols) (ho : o ∈ M u.symbolId)
    (hid : o.orderId = u.orderId) (hside : o.side = u.side) (hprice : o.price = u.price) :
    ∃ s', s.modifyOrder u = .ok s' ∧ s'.Mirrors addr (replayMarket M u) n := by
  have hnode := h.node _ hsym o ho
  have hreplay : replay (M u.symbolId) u = (M u.symbolId).map fun o' =>
      if o'.orderId = u.orderId then { o' with quantity := u.quantity } else o' := by
    simp [replay, htype]
  have hids : ∀ o' : LiveOrder, (if o'.orderId = u.orderId then
      { o' with quantity := u.quantity } else o').orderId = o'.orderId := fun o' => by
    split <;> rfl
  have hmap : ((M u.symbolId).map fun o' => if o'.orderId = u.orderId then
      { o' with quantity := u.quantity } else o').map LiveOrder.orderId =
        (M u.symbolId).map LiveOrder.orderId := by
    rw [List.map_map]
    exact List.map_congr_left fun o' _ => hids o'
  have hslot : ∀ {s₂ : Nat} {o' : LiveOrder}, s₂ < kMaxSymbols → o' ∈ M s₂ →
      ¬ (s₂ = u.symbolId ∧ o' = o) → addr s₂ o'.orderId ≠ addr u.symbolId o.orderId :=
    fun hs₂ ho' hne heq => hne (h.eq_of_addr hs₂ hsym ho' ho heq)
  have hgoal := h.of_symbol u.symbolId
    { s with
      orderPool := s.orderPool.put (addr u.symbolId o.orderId)
        { o.snapshot u.symbolId with quantity := u.quantity, price := u.price } }
    (replay (M u.symbolId) u) (addr u.symbolId) rfl
    (by rw [hreplay, hmap]; exact h.ids _ hsym)
    (by
      rw [hreplay]
      intro o' ho'
      obtain ⟨o₂, ho₂, rfl⟩ := List.mem_map.mp ho'
      rw [hids]
      exact h.small _ hsym o₂ ho₂)
    (fun id => by
      rw [h.table _ hsym, hreplay]
      refine if_congr ⟨?_, ?_⟩ rfl rfl
      · rintro ⟨o', ho', rfl⟩
        exact ⟨_, List.mem_map_of_mem ho', hids o'⟩
      · rintro ⟨o', ho', rfl⟩
        obtain ⟨o₂, ho₂, rfl⟩ := List.mem_map.mp ho'
        exact ⟨o₂, ho₂, (hids o₂).symm⟩)
    (fun o' ho' => by
      rw [hreplay] at ho'
      obtain ⟨o₂, ho₂, rfl⟩ := List.mem_map.mp ho'
      rw [hids]
      by_cases heq : o₂.orderId = u.orderId
      · obtain rfl := List.inj_on_of_nodup_map (h.ids _ hsym) ho₂ ho (heq.trans hid.symm)
        rw [MemPool.object?_put_self, if_pos heq, ← hprice]
        rfl
      · rw [if_neg heq, MemPool.object?_put_of_ne (hslot hsym ho₂ fun h' => heq (h'.2 ▸ hid))]
        exact h.node _ hsym o₂ ho₂)
    (fun _ _ => rfl)
    (fun s₂ hs₂ hne o' ho' => MemPool.object?_put_of_ne (hslot hs₂ ho' fun h' => hne h'.1))
    (by
      refine MemPool.Inv.put ?_ ?_
      · refine h.pool.perm (List.Perm.of_eq (List.flatMap_congr fun s₂ _ => ?_))
        rw [Function.update_eq_self]
        rcases eq_or_ne s₂ u.symbolId with rfl | hne
        · rw [Function.update_self, hreplay, List.map_map]
          exact List.map_congr_left fun o' _ => congrArg (addr u.symbolId) (hids o').symm
        · rw [Function.update_of_ne hne]
      · refine List.mem_flatMap.mpr ⟨u.symbolId, List.mem_range.mpr hsym, ?_⟩
        rw [Function.update_eq_self, Function.update_self, hreplay, List.map_map]
        exact List.mem_map.mpr ⟨o, ho, congrArg (addr u.symbolId) (hids o)⟩)
    h.capacity
  rw [Function.update_eq_self] at hgoal
  refine ⟨_, ?_, hgoal⟩
  have hat := h.orderAt_eq hsym ho
  have hcheck := h.checkOrder hsym ho hid hside
  rw [hid] at hat hcheck hnode
  simp only [SnapshotSynthesizer.modifyOrder, hat, hcheck, ok_bind, MemPool.modify_some hnode, hid]

/-- **`CANCEL`** of a live order. -/
theorem cancelOrder (h : s.Mirrors addr M n) {u : MatchingEngineMarketUpdate}
    (htype : u.type = .cancel) (hsym : u.symbolId < kMaxSymbols) (ho : o ∈ M u.symbolId)
    (hid : o.orderId = u.orderId) (hside : o.side = u.side) :
    ∃ s', s.cancelOrder u = .ok s' ∧ s'.Mirrors addr (replayMarket M u) n := by
  have hnode := h.node _ hsym o ho
  have hreplay : replay (M u.symbolId) u =
      (M u.symbolId).filter fun o' => o'.orderId ≠ u.orderId := by simp [replay, htype]
  have hslot : ∀ {s₂ : Nat} {o' : LiveOrder}, s₂ < kMaxSymbols → o' ∈ M s₂ →
      ¬ (s₂ = u.symbolId ∧ o' = o) → addr s₂ o'.orderId ≠ addr u.symbolId o.orderId :=
    fun hs₂ ho' hne heq => hne (h.eq_of_addr hs₂ hsym ho' ho heq)
  have hperm : (liveSlots addr M).Perm (addr u.symbolId o.orderId ::
      liveSlots addr (Function.update M u.symbolId (replay (M u.symbolId) u))) := by
    refine flatMap_perm_cons (s := u.symbolId) _ _ List.nodup_range (List.mem_range.mpr hsym)
      (fun i hi => by rw [Function.update_of_ne hi]) ?_
    rw [Function.update_self, hreplay]
    have horders : (M u.symbolId).Perm
        (o :: (M u.symbolId).filter fun o' => o'.orderId ≠ u.orderId) := by
      obtain ⟨l₁, l₂, hl⟩ := List.append_of_mem ho
      have hnd := h.ids _ hsym
      rw [hl] at hnd ⊢
      rw [← hid, filter_middle hnd]
      exact List.perm_middle
    exact horders.map fun o => addr u.symbolId o.orderId
  have hgoal := h.of_symbol u.symbolId
    ({ s with orderPool := s.orderPool.deallocate (addr u.symbolId o.orderId) }.setOrder
      u.symbolId u.orderId none) (replay (M u.symbolId) u) (addr u.symbolId) rfl
    (by rw [hreplay]; exact (h.ids _ hsym).sublist (List.filter_sublist.map _))
    (fun o' ho' => h.small _ hsym o' (List.mem_filter.mp (hreplay ▸ ho')).1)
    (fun id => by
      simp only [setOrder, Function.update_self, hreplay]
      rw [Function.update_apply]
      split
      · next heq =>
        rw [if_neg]
        rintro ⟨o', ho', rfl⟩
        simp [heq] at ho'
      · next hne =>
        rw [h.table _ hsym]
        refine if_congr ⟨?_, ?_⟩ rfl rfl
        · rintro ⟨o', ho', rfl⟩
          exact ⟨o', by simp [ho', hne], rfl⟩
        · rintro ⟨o', ho', hid'⟩
          exact ⟨o', (List.mem_filter.mp ho').1, hid'⟩)
    (fun o' ho' => by
      obtain ⟨hl, hne⟩ := List.mem_filter.mp (hreplay ▸ ho')
      refine (MemPool.object?_deallocate_of_ne (hslot hsym hl fun h' => ?_)).trans
        (h.node _ hsym o' hl)
      rw [h'.2] at hne
      simp [hid] at hne)
    (fun s₂ hne => by simp [setOrder, hne])
    (fun s₂ hs₂ hne o' ho' => MemPool.object?_deallocate_of_ne (hslot hs₂ ho' fun h' => hne h'.1))
    (by
      have hinv := (h.pool.perm hperm).deallocate
        (a := addr u.symbolId o.orderId) List.mem_cons_self
      rw [List.erase_cons_head] at hinv
      rw [Function.update_eq_self]
      exact hinv)
    h.capacity
  rw [Function.update_eq_self] at hgoal
  refine ⟨_, ?_, hgoal⟩
  have hat := h.orderAt_eq hsym ho
  have hcheck := h.checkOrder hsym ho hid hside
  rw [hid] at hat hcheck hnode
  simp only [SnapshotSynthesizer.cancelOrder, hat, hcheck, ok_bind, MemPool.release_some hnode, hid]

/-- **One published update** fires no assertion. -/
theorem addToSnapshot {band : PriceBand} (h : s.Mirrors addr M n) {u : MatchingEngineMarketUpdate}
    (hpub : PublishedMarket band M u) (hroom : (replayMarket M u).total ≤ kMaxOrderIds) :
    ∃ s' addr', s.addToSnapshot ⟨(n + 1 : Nat), u⟩ = .ok s' ∧
      s'.Mirrors addr' (replayMarket M u) (n + 1) := by
  obtain ⟨hsym, hpub⟩ := hpub
  obtain ⟨s', addr', happly, h'⟩ : ∃ s' addr', s.applyUpdate u = .ok s' ∧
      s'.Mirrors addr' (replayMarket M u) n := by
    unfold Published at hpub
    unfold SnapshotSynthesizer.applyUpdate
    cases htype : u.type with
    | add =>
      simp only [htype] at hpub
      refine h.addOrder htype hsym hpub.1 (fun o ho => Nat.ne_of_lt (hpub.2.1 o ho)) ?_
      -- the update adds an order, so there were fewer before it
      refine Nat.lt_of_lt_of_le ?_ hroom
      rw [← length_liveSlots addr, ← length_liveSlots addr]
      have hperm := flatMap_perm_cons (a := addr u.symbolId u.orderId) (s := u.symbolId)
        (fun s => (M s).map fun o => addr s o.orderId)
        (fun s => (replayMarket M u s).map fun o => addr s o.orderId) List.nodup_range
        (List.mem_range.mpr hsym) (fun i hi => by rw [replayMarket, Function.update_of_ne hi])
        (by
          simp only [replayMarket, Function.update_self, replay, htype, List.map_append,
            List.map_cons, List.map_nil]
          exact List.perm_append_singleton _ _)
      have hlen := hperm.length_eq
      rw [List.length_cons] at hlen
      exact Nat.lt_of_lt_of_eq (Nat.lt_succ_self _) hlen.symm
    | modify =>
      simp only [htype] at hpub
      obtain ⟨o, ho, hid, hside, hprice, -⟩ := hpub
      obtain ⟨s', hs', h'⟩ := h.modifyOrder htype hsym ho hid hside hprice
      exact ⟨s', addr, hs', h'⟩
    | cancel =>
      simp only [htype] at hpub
      obtain ⟨o, ho, hid, hside, -⟩ := hpub
      obtain ⟨s', hs', h'⟩ := h.cancelOrder htype hsym ho hid hside
      exact ⟨s', addr, hs', h'⟩
    | trade =>
      have hsame : replayMarket M u = M := by simp [replayMarket, replay, htype]
      exact ⟨s, addr, rfl, by rw [hsame]; exact h⟩
    | invalid | clear | snapshotStart | snapshotEnd | other => simp only [htype] at hpub
  refine ⟨{ s' with lastIncSeqNum := n + 1 }, addr', ?_,
    ⟨rfl, h'.ids, h'.small, h'.table, h'.node, h'.pool, h'.capacity⟩⟩
  have hlast := h'.lastIncSeqNum
  simp [SnapshotSynthesizer.addToSnapshot, if_pos hsym, happly, hlast]

/-- **A list of published updates**, as long as the orders of all symbols fit into the pool. -/
theorem foldlM {band : PriceBand} {us : List MatchingEngineMarketUpdate} :
    ∀ {s : SnapshotSynthesizer} {addr : Nat → Nat → Nat} {M : Market} {n : Nat},
      s.Mirrors addr M n → Run.AlongRun replayMarket (PublishedMarket band) M us →
      (∀ vs, vs <+: us → (vs.foldl replayMarket M).total ≤ kMaxOrderIds) →
      ∃ s' addr', (numbered (n + 1) us).foldlM SnapshotSynthesizer.addToSnapshot s = .ok s' ∧
        s'.Mirrors addr' (us.foldl replayMarket M) (n + us.length) := by
  induction us with
  | nil => exact fun h _ _ => ⟨_, _, rfl, h⟩
  | cons u us ih =>
    intro s addr M n h hpub hroom
    obtain ⟨s₁, addr₁, hs₁, h₁⟩ := h.addToSnapshot hpub.1 (hroom [u] ⟨us, rfl⟩)
    obtain ⟨s', addr', hrun, h'⟩ := ih h₁ hpub.2 fun vs hvs =>
      hroom (u :: vs) (List.cons_prefix_cons.mpr ⟨rfl, hvs⟩)
    refine ⟨s', addr', Run.foldlM_cons_ok.mpr ⟨s₁, hs₁, hrun⟩, ?_⟩
    rw [List.length_cons, Nat.add_comm us.length, ← Nat.add_assoc]
    exact h'

/-! ## 3. A snapshot cycle -/

/-- The table of a symbol lists its orders by ascending id. -/
theorem filterMap_ascending {l : List LiveOrder} {k : Nat} (f : Nat → Nat)
    (hasc : l.Pairwise fun o o' => o.orderId < o'.orderId) (hsmall : ∀ o ∈ l, o.orderId < k) :
    ((List.range k).filterMap fun id => if ∃ o ∈ l, o.orderId = id then some (f id) else none) =
      l.map fun o => f o.orderId := by
  have hids : (List.range k).filter (fun id => ∃ o ∈ l, o.orderId = id) =
      l.map LiveOrder.orderId := by
    refine List.Pairwise.eq_of_mem_iff (r := fun a b : Nat => a < b)
      (List.pairwise_lt_range.filter _) (List.pairwise_map.mpr hasc) fun id => ?_
    simp only [List.mem_filter, List.mem_range, decide_eq_true_eq, List.mem_map]
    exact ⟨fun h => h.2, fun ⟨o, ho, heq⟩ => ⟨heq ▸ hsmall o ho, o, ho, heq⟩⟩
  have hif : (fun id => if ∃ o ∈ l, o.orderId = id then some (f id) else none) =
      fun id => (Option.guard (fun id => decide (∃ o ∈ l, o.orderId = id)) id).map f := by
    funext id
    by_cases h : ∃ o ∈ l, o.orderId = id <;> simp [Option.guard, h]
  rw [hif, ← List.map_filterMap, List.filterMap_eq_filter, hids, List.map_map]
  rfl

/-- The messages of a cycle. -/
def cycleMessages (M : Market) (n : Nat) : List MatchingEngineMarketUpdate :=
  ⟨.snapshotStart, 0, n, .unset, 0, 0, 0⟩ ::
    ((List.range kMaxSymbols).flatMap fun symbol =>
      ⟨.clear, symbol, 0, .unset, 0, 0, 0⟩ :: (M symbol).map (·.snapshot symbol)) ++
    [⟨.snapshotEnd, 0, n, .unset, 0, 0, 0⟩]

/-- **A snapshot cycle** sends the live orders of every symbol by ascending id. -/
theorem publishSnapshot_eq (h : s.Mirrors addr M n) (hasc : ∀ symbol, symbol < kMaxSymbols →
      (M symbol).Pairwise fun o o' => o.orderId < o'.orderId) :
    s.publishSnapshot = .ok (numbered 0 (cycleMessages M n)) := by
  have hsymbol : ∀ symbol ∈ List.range kMaxSymbols, s.symbolMessages symbol =
      .ok (⟨.clear, symbol, 0, .unset, 0, 0, 0⟩ :: (M symbol).map (·.snapshot symbol)) := by
    intro symbol hmem
    have hsym := List.mem_range.mp hmem
    have htable : s.symbolOrders symbol = fun id =>
        if ∃ o ∈ M symbol, o.orderId = id then some (addr symbol id) else none :=
      funext (h.table symbol hsym)
    have hread : ((M symbol).map fun o => addr symbol o.orderId).mapM
        (fun a => s.orderPool.deref (some a)) = .ok ((M symbol).map (·.snapshot symbol)) := by
      rw [List.mapM_map]
      exact Run.mapM_ok fun o ho => MemPool.deref_some (h.node symbol hsym o ho)
    rw [symbolMessages, htable, filterMap_ascending _ (hasc symbol hsym) (h.small symbol hsym),
      hread, ok_bind]
  rw [publishSnapshot, Run.mapM_ok hsymbol, ok_bind, boundary, boundary, h.lastIncSeqNum,
    cycleMessages, List.flatMap_def]

end Mirrors

/-! ## 4. Runs of the engine -/

/-- **The snapshot follows the market**: after any prefix of what the engine publishes, no
assertion has fired and the table holds exactly the live orders, with their quantities and
priorities.  The assertions of `AddtoSnapshot` are what a published update can rely on
(`Published`), and the pool has room as long as no more orders live than it has slots; both are
conditions on the market and not on the synthesizer. -/
theorem follows_market (requests : List MatchingEngineClientRequest)
    (hdoc : ∀ r ∈ requests, r.Documented) (hfew : IndexedBooks.Few .empty requests) :
    ∃ m, MatchingEngine.run requests = .ok m ∧
      (∀ symbol, symbol < kMaxSymbols → ∃ b, m.symbolOrderBook symbol = some b ∧
        ∀ side t, side.Directional → b.ordersAt side t =
          restingAt (m.outgoingMarketUpdates.foldl replayMarket .empty symbol) side
            (kDefaultPriceBand.toPrice t)) ∧
      ∀ us, us <+: m.outgoingMarketUpdates →
        (∀ vs, vs <+: us → (vs.foldl replayMarket .empty).total ≤ kMaxOrderIds) →
        ∃ s, (MarketDataPublisher.run us).snapshotMdUpdates.foldlM addToSnapshot init = .ok s ∧
          s.lastIncSeqNum = us.length ∧
          s.orderPool.inUse = (us.foldl replayMarket .empty).total ∧
          ∀ symbol, symbol < kMaxSymbols → ∀ id,
            (s.symbolOrders symbol id ≠ none ↔
              ∃ o ∈ us.foldl replayMarket .empty symbol, o.orderId = id) ∧
            ∀ o ∈ us.foldl replayMarket .empty symbol, o.orderId = id →
              s.orderPool.deref (s.symbolOrders symbol id) = .ok (o.snapshot symbol) := by
  obtain ⟨m, xs, hrun, hsim, hpub, hfold⟩ := MatchingEngine.run_published hdoc hfew
  refine ⟨m, hrun, fun symbol hsym => ?_, fun us hus hroom => ?_⟩
  · obtain ⟨b, hb, hbsim⟩ := hsim symbol hsym
    obtain ⟨addr, hrep⟩ := hbsim.rep
    exact ⟨b, hb, fun side t hs => by rw [hrep.ordersAt_eq hs, hfold, hbsim.band]; rfl⟩
  · obtain ⟨rest, hrest⟩ := hus
    rw [← hrest, Run.alongRun_append] at hpub
    obtain ⟨s, addr, hs, h⟩ := (mirrors_init fun _ => id).foldlM hpub.1 hroom
    rw [Nat.zero_add] at h
    refine ⟨s, by rw [(run_publish us).2]; exact hs, h.lastIncSeqNum, ?_,
      fun symbol hsym id => ⟨?_, ?_⟩⟩
    · rw [h.pool.inUse, length_liveSlots]
    · rw [h.table symbol hsym]
      split
      · next hex => exact iff_of_true (by simp) hex
      · next hex => exact iff_of_false (fun hne => hne rfl) hex
    · rintro o ho rfl
      rw [h.table symbol hsym, if_pos ⟨o, ho, rfl⟩]
      exact MemPool.deref_some (h.node symbol hsym o ho)

/-- Two symbols, a trade and a cancel. -/
theorem follows_market_two_symbols :
    ∃ m, MatchingEngine.run [⟨.new, 1, 0, 1, .sell, 105, 10⟩, ⟨.new, 1, 3, 2, .buy, 7, 4⟩,
        ⟨.new, 2, 0, 1, .buy, 106, 3⟩, ⟨.canceled, 1, 3, 2, .unset, 0, 0⟩] = .ok m ∧
      ∀ us, us <+: m.outgoingMarketUpdates →
        (∀ vs, vs <+: us → (vs.foldl replayMarket .empty).total ≤ kMaxOrderIds) →
        ∃ s, (MarketDataPublisher.run us).snapshotMdUpdates.foldlM addToSnapshot init = .ok s ∧
          s.lastIncSeqNum = us.length ∧
          s.orderPool.inUse = (us.foldl replayMarket .empty).total := by
  obtain ⟨m, hm, -, hfollow⟩ := follows_market [⟨.new, 1, 0, 1, .sell, 105, 10⟩,
    ⟨.new, 1, 3, 2, .buy, 7, 4⟩, ⟨.new, 2, 0, 1, .buy, 106, 3⟩,
    ⟨.canceled, 1, 3, 2, .unset, 0, 0⟩] (by decide) (by decide)
  refine ⟨m, hm, fun us hus hroom => ?_⟩
  obtain ⟨s, hs, hlast, huse, -⟩ := hfollow us hus hroom
  exact ⟨s, hs, hlast, huse⟩

end SnapshotSynthesizer

end YQuant
