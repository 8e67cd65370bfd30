/-
# The order book represents the indexed book

`b.Rep addr x` says that the pool, the two sides, the index and the counter of `b` stand for the
indexed book `x`.  `addr` places each arrival in a slot of the pool; slots are recycled, so it
changes as orders come and go.

The operations of a side are lifted to the whole book here: a fill (`Rep.fill`), a removal
(`Rep.remove`) and a new resting order (`Rep.push`).  Each changes one side and frames the
other, because no node is queued on two sides.

Which queue an order stands in follows from its side and price, and its place there from its
arrival (`queueAt`); so the queues of the book are not part of the relation but computed from the
list.  What a node stores about its order is `Resting.Stored`, except for its links and its level,
which the queues determine.

The pool is shared by both sides: the live slots are those of the orders of either, each once, so a
node that one side gives back is in nobody's queue.  An order is at one tick of one side
(`Resting.At.tick_unique`), and that is all the framing needs.
-/
import YQuant.Matcher.IndexedBook
import YQuant.Matcher.LevelQueues

namespace YQuant

/-! ## 1. Slots and queues -/

/-- The slots of the resting orders. -/
def slots (addr : Nat → Nat) (l : List Resting) : List Nat := l.map fun o => addr o.arrival

/-- The slots of the orders that rest at a tick of a side, in arrival order. -/
def queueAt (band : PriceBand) (addr : Nat → Nat) (l : List Resting) (side : Side) (t : Nat) :
    List Nat :=
  slots addr (l.filter fun o => o.At side (band.toPrice t))

section Queues

variable {band : PriceBand} {addr addr' : Nat → Nat} {l : List Resting} {side : Side}
  {m : Resting} {t a : Nat}

theorem mem_queueAt : a ∈ queueAt band addr l side t ↔
    ∃ o ∈ l, o.At side (band.toPrice t) ∧ addr o.arrival = a := by
  simp [queueAt, slots, and_assoc]

theorem queueAt_congr (h : ∀ o ∈ l, addr' o.arrival = addr o.arrival) :
    queueAt band addr' l side t = queueAt band addr l side t :=
  List.map_congr_left fun o ho => h o (List.mem_filter.mp ho).1

theorem slots_reduce {e : Nat} : slots addr (reduce l m e) = slots addr l := by
  rw [slots, reduce, List.map_map]
  refine List.map_congr_left fun o _ => ?_
  simp only [Function.comp_apply]
  split <;> rfl

theorem reduce_filter {e : Nat} (price : Int) :
    (reduce l m e).filter (fun o => o.At side price) =
      reduce (l.filter fun o => o.At side price) m e := by
  rw [reduce, List.filter_map, reduce]
  congr 1
  refine List.filter_congr fun o _ => ?_
  simp only [Function.comp_apply]
  split <;> rfl

theorem queueAt_reduce {e : Nat} :
    queueAt band addr (reduce l m e) side t = queueAt band addr l side t := by
  rw [queueAt, reduce_filter, slots_reduce, queueAt]

theorem without_reduce {e : Nat} : without (reduce l m e) m = without l m := by
  rw [without, reduce, List.filter_map, without]
  have hcongr : ∀ o ∈ l, ((fun o' : Resting => decide (o'.arrival ≠ m.arrival)) ∘ fun o =>
      if o.arrival = m.arrival then { o with quantity := o.quantity - e } else o) o =
        decide (o.arrival ≠ m.arrival) := by
    intro o _
    simp only [Function.comp_apply]
    split <;> rfl
  rw [List.filter_congr hcongr]
  conv_rhs => rw [← List.map_id (l.filter _)]
  refine List.map_congr_left fun o ho => ?_
  rw [if_neg (by simpa using (List.mem_filter.mp ho).2)]
  rfl

/-- A list around one of its orders. -/
theorem without_append {l₁ l₂ : List Resting}
    (h : (l₁ ++ m :: l₂).Pairwise fun o o' => o.arrival < o'.arrival) :
    without (l₁ ++ m :: l₂) m = l₁ ++ l₂ := by
  obtain ⟨-, h₂, h₁₂⟩ := List.pairwise_append.mp h
  have h₁ : ∀ o ∈ l₁, o.arrival ≠ m.arrival := fun o ho => Nat.ne_of_lt (h₁₂ o ho m (by simp))
  have h₃ : ∀ o ∈ l₂, o.arrival ≠ m.arrival := fun o ho =>
    Nat.ne_of_gt ((List.pairwise_cons.mp h₂).1 o ho)
  rw [without, List.filter_append, List.filter_cons_of_neg (by simp),
    List.filter_eq_self.mpr (by simpa using h₁), List.filter_eq_self.mpr (by simpa using h₃)]

/-- The queue of a removed order, split around it. -/
theorem queueAt_split (addr : Nat → Nat) (h : l.Pairwise fun o o' => o.arrival < o'.arrival)
    (hm : m ∈ l) (hat : m.At side (band.toPrice t)) :
    ∃ q₁ q₂, queueAt band addr l side t = q₁ ++ addr m.arrival :: q₂ ∧
      queueAt band addr (without l m) side t = q₁ ++ q₂ := by
  obtain ⟨l₁, l₂, hl⟩ := List.append_of_mem
    (List.mem_filter.mpr ⟨hm, by simpa using hat⟩ :
      m ∈ l.filter fun o => o.At side (band.toPrice t))
  have hp := h.filter fun o => o.At side (band.toPrice t)
  refine ⟨slots addr l₁, slots addr l₂, by simp [queueAt, hl, slots], ?_⟩
  have hswap : (without l m).filter (fun o => o.At side (band.toPrice t)) =
      without (l.filter fun o => o.At side (band.toPrice t)) m := List.filter_comm ..
  rw [queueAt, hswap, hl, without_append (hl ▸ hp)]
  simp [slots]

/-- The orders at other prices, and those of the other side, do not change. -/
theorem filter_at_without_of_ne {price : Int} (h : l.Pairwise fun o o' => o.arrival < o'.arrival)
    (hm : m ∈ l) (hat : ¬ m.At side price) :
    (without l m).filter (fun o => o.At side price) = l.filter fun o => o.At side price := by
  have hswap : (without l m).filter (fun o => o.At side price) =
      without (l.filter fun o => o.At side price) m := List.filter_comm ..
  rw [hswap, without, List.filter_eq_self.mpr]
  intro o ho
  obtain ⟨ho, ho'⟩ := List.mem_filter.mp ho
  have hnd : (l.map Resting.arrival).Nodup :=
    List.pairwise_map.mpr (h.imp fun hlt => Nat.ne_of_lt hlt)
  simp only [decide_eq_true_eq]
  intro he
  obtain rfl := List.inj_on_of_nodup_map hnd ho hm he
  exact hat (by simpa using ho')

theorem exists_at_without_of_ne {price : Int} (h : l.Pairwise fun o o' => o.arrival < o'.arrival)
    (hm : m ∈ l) (hat : ¬ m.At side price) :
    (∃ o ∈ without l m, o.At side price) ↔ ∃ o ∈ l, o.At side price := by
  have hfilter := congrArg (· ≠ []) (filter_at_without_of_ne h hm hat)
  simpa using hfilter

/-- The other queues do not change. -/
theorem queueAt_without_of_ne (h : l.Pairwise fun o o' => o.arrival < o'.arrival) (hm : m ∈ l)
    (hat : ¬ m.At side (band.toPrice t)) :
    queueAt band addr (without l m) side t = queueAt band addr l side t := by
  rw [queueAt, filter_at_without_of_ne h hm hat, queueAt]

theorem queueAt_snoc_self (hat : m.At side (band.toPrice t)) :
    queueAt band addr (l ++ [m]) side t = queueAt band addr l side t ++ [addr m.arrival] := by
  simp [queueAt, slots, hat]

theorem queueAt_snoc_of_ne (hat : ¬ m.At side (band.toPrice t)) :
    queueAt band addr (l ++ [m]) side t = queueAt band addr l side t := by
  simp [queueAt, slots, hat]

/-- An order rests at one tick. -/
theorem Resting.At.tick_unique (hband : band.isValid = true) {t t' : Nat}
    (hat : m.At side (band.toPrice t)) (hat' : m.At side (band.toPrice t')) : t' = t := by
  have := (PriceBand.toPrice_inj hband).mp (hat'.2.symm.trans hat.2)
  exact_mod_cast this

/-- The slot of an order that leaves. -/
theorem slots_without (h : l.Pairwise fun o o' => o.arrival < o'.arrival)
    (hnd : (slots addr l).Nodup) (hm : m ∈ l) :
    (slots addr l).erase (addr m.arrival) = slots addr (without l m) := by
  obtain ⟨l₁, l₂, hl⟩ := List.append_of_mem hm
  rw [hl] at h hnd ⊢
  rw [without_append h]
  simp only [slots, List.map_append, List.map_cons] at hnd ⊢
  have hnot : addr m.arrival ∉ l₁.map fun o => addr o.arrival := fun hin =>
    (List.nodup_append.mp hnd).2.2 _ hin _ (by simp) rfl
  rw [List.erase_append_right _ hnot, List.erase_cons_head]

/-- The queues of a side that an order leaves. -/
theorem queueAt_without (hband : band.isValid = true)
    (h : l.Pairwise fun o o' => o.arrival < o'.arrival) (hm : m ∈ l)
    (hat : m.At side (band.toPrice t)) : queueAt band addr (without l m) side =
      Function.update (queueAt band addr l side) t (queueAt band addr (without l m) side t) := by
  funext t'
  rcases eq_or_ne t' t with rfl | hne
  · rw [Function.update_self]
  · rw [Function.update_of_ne hne]
    exact queueAt_without_of_ne h hm fun hat' => hne (hat.tick_unique hband hat')

/-- The queues of a side that an order joins. -/
theorem queueAt_snoc (hband : band.isValid = true) (hat : m.At side (band.toPrice t)) :
    queueAt band addr (l ++ [m]) side = Function.update (queueAt band addr l side) t
      (queueAt band addr l side t ++ [addr m.arrival]) := by
  funext t'
  rcases eq_or_ne t' t with rfl | hne
  · rw [Function.update_self, queueAt_snoc_self hat]
  · rw [Function.update_of_ne hne]
    exact queueAt_snoc_of_ne fun hat' => hne (hat.tick_unique hband hat')

end Queues

/-! ## 2. The representation -/

/-- What a node stores about its order; its level and links are a matter of the queues. -/
structure Resting.Stored (o : Resting) (n : OrderNode) : Prop where
  marketOrderId : n.marketOrderId = o.marketOrderId
  clientOrderId : n.clientOrderId = o.clientOrderId
  priority : n.priority = o.priority
  remainingQuantity : n.remainingQuantity = o.quantity
  clientId : n.clientId = o.clientId

/-- **The book represents the indexed book `x`.** -/
structure BookCore.Rep (b : BookCore) (addr : Nat → Nat) (x : IndexedBook) : Prop where
  valid : b.band.isValid = true
  pool : b.orderPool.Inv (slots addr x.book.resting)
  capacity : b.orderPool.capacity = kMaxOrderIds
  node : ∀ o ∈ x.book.resting, ∃ n, b.orderPool.object? (addr o.arrival) = some n ∧ o.Stored n
  side : ∀ s : Side, s.Directional → (b.levels s).side = s
  levels : ∀ s : Side, s.Directional →
    (b.levels s).Rep b.orderPool.object? (queueAt b.band addr x.book.resting s)
  nextPriority : ∀ s : Side, s.Directional → ∀ t : Nat, ((b.levels s).levels t).nextPriority =
    (x.book.queued s (b.band.toPrice t) + 1) % kWord64
  index : ∀ c o, c < kMaxNumClients → o < kMaxOrderIds →
    b.findOrder c o = .ok ((x.index c o).map addr)
  counter : b.nextMarketOrderId = (x.book.arrivals + 1) % kWord64

namespace BookCore

variable {b : BookCore} {addr addr' : Nat → Nat} {x x' : IndexedBook}

theorem empty_rep (symbolId : Nat) {band : PriceBand} (hband : band.isValid = true) :
    (empty symbolId band).Rep addr IndexedBook.empty where
  valid := hband
  pool := MemPool.init_inv _
  capacity := rfl
  node := by simp [IndexedBook.empty, ListBook.empty]
  side := by rintro s (rfl | rfl) <;> rfl
  levels := by rintro s (rfl | rfl) <;> exact PriceLevels.init_rep _ _
  nextPriority := by rintro s (rfl | rfl) t <;> rfl
  index := fun c o hc _ => by simp [findOrder, empty, hc, IndexedBook.empty]
  counter := rfl

section SetSide

variable {s s₂ : Side} {l : PriceLevels} {pool : MemPool OrderNode}

@[simp] theorem setSide_band : (b.setSide s l pool).band = b.band := by
  unfold setSide
  split <;> rfl
@[simp] theorem setSide_symbolId : (b.setSide s l pool).symbolId = b.symbolId := by
  unfold setSide; split <;> rfl
@[simp] theorem setSide_orderPool : (b.setSide s l pool).orderPool = pool := by
  unfold setSide; split <;> rfl
@[simp] theorem setSide_orders : (b.setSide s l pool).orders = b.orders := by
  unfold setSide; split <;> rfl
@[simp] theorem setSide_nextMarketOrderId :
    (b.setSide s l pool).nextMarketOrderId = b.nextMarketOrderId := by
  unfold setSide; split <;> rfl
@[simp] theorem setSide_responses :
    (b.setSide s l pool).outgoingClientResponses = b.outgoingClientResponses := by
  unfold setSide; split <;> rfl
@[simp] theorem setSide_updates :
    (b.setSide s l pool).outgoingMarketUpdates = b.outgoingMarketUpdates := by
  unfold setSide; split <;> rfl

@[simp] theorem setSide_levels : (b.setSide s l pool).levels s = l := by
  unfold setSide levels; split <;> rfl

theorem setSide_levels_of_ne (hs : s.Directional) (hs₂ : s₂.Directional) (hne : s₂ ≠ s) :
    (b.setSide s l pool).levels s₂ = b.levels s₂ := by
  rcases hs with rfl | rfl <;> rcases hs₂ with rfl | rfl
  all_goals first | exact absurd rfl hne | rfl

@[simp] theorem setSide_findOrder (c o : Nat) :
    (b.setSide s l pool).findOrder c o = b.findOrder c o := by simp [findOrder]

end SetSide

namespace Rep

/-- The slots of two resting orders are different. -/
theorem addr_inj (h : b.Rep addr x) {o o' : Resting} (ho : o ∈ x.book.resting)
    (ho' : o' ∈ x.book.resting) (he : addr o.arrival = addr o'.arrival) : o = o' :=
  List.inj_on_of_nodup_map h.pool.nodup ho ho' he

/-- Every queued slot belongs to a resting order. -/
theorem queueAt_subset {s : Side} {t a : Nat}
    (ha : a ∈ queueAt b.band addr x.book.resting s t) : a ∈ slots addr x.book.resting := by
  obtain ⟨o, ho, -, rfl⟩ := mem_queueAt.mp ha
  exact List.mem_map.mpr ⟨o, ho, rfl⟩

/-- No slot is queued on two sides. -/
theorem not_queued_twice (h : b.Rep addr x) {s s₂ : Side} (hs : s₂ ≠ s) {t t₂ a : Nat}
    (ha : a ∈ queueAt b.band addr x.book.resting s t) :
    a ∉ queueAt b.band addr x.book.resting s₂ t₂ := by
  intro ha₂
  obtain ⟨o, ho, hat, hoa⟩ := mem_queueAt.mp ha
  obtain ⟨o₂, ho₂, hat₂, hoa₂⟩ := mem_queueAt.mp ha₂
  obtain rfl := h.addr_inj ho ho₂ (hoa.trans hoa₂.symm)
  exact hs (hat₂.1.symm.trans hat.1)

/-- **Replacing one side.**  The other side is framed: its queues and its nodes stay. -/
theorem setSide (h : b.Rep addr x) {s : Side} (hs : s.Directional) {l : PriceLevels}
    {pool : MemPool OrderNode} (hpool : pool.Inv (slots addr' x'.book.resting))
    (hcap : pool.capacity = b.orderPool.capacity)
    (hnode : ∀ o ∈ x'.book.resting, ∃ n, pool.object? (addr' o.arrival) = some n ∧ o.Stored n)
    (hside : l.side = s)
    (hlevels : l.Rep pool.object? (queueAt b.band addr' x'.book.resting s))
    (hother : ∀ s₂, s₂.Directional → s₂ ≠ s → ∀ t,
      queueAt b.band addr' x'.book.resting s₂ t = queueAt b.band addr x.book.resting s₂ t)
    (hframe : ∀ s₂, s₂.Directional → s₂ ≠ s → ∀ t, ∀ a ∈ queueAt b.band addr x.book.resting s₂ t,
      pool.object? a = b.orderPool.object? a)
    (hprio : ∀ t : Nat, (l.levels t).nextPriority =
      (x'.book.queued s (b.band.toPrice t) + 1) % kWord64)
    (hqueued : ∀ s₂, s₂ ≠ s → ∀ p, x'.book.queued s₂ p = x.book.queued s₂ p)
    (hindex : ∀ c o, (x'.index c o).map addr' = (x.index c o).map addr)
    (harr : x'.book.arrivals = x.book.arrivals) :
    (b.setSide s l pool).Rep addr' x' where
  valid := by rw [setSide_band]; exact h.valid
  pool := by rw [setSide_orderPool]; exact hpool
  capacity := by rw [setSide_orderPool, hcap, h.capacity]
  node := by rw [setSide_orderPool]; exact hnode
  side := fun s₂ hs₂ => by
    by_cases he : s₂ = s
    · subst he; rw [setSide_levels, hside]
    · rw [setSide_levels_of_ne hs hs₂ he]; exact h.side s₂ hs₂
  levels := fun s₂ hs₂ => by
    rw [setSide_band, setSide_orderPool]
    by_cases he : s₂ = s
    · subst he; rw [setSide_levels]; exact hlevels
    · rw [setSide_levels_of_ne hs hs₂ he, funext (hother s₂ hs₂ he)]
      exact (h.levels s₂ hs₂).congr (hframe s₂ hs₂ he)
  nextPriority := fun s₂ hs₂ t => by
    rw [setSide_band]
    by_cases he : s₂ = s
    · subst he; rw [setSide_levels]; exact hprio t
    · rw [setSide_levels_of_ne hs hs₂ he, hqueued s₂ he]; exact h.nextPriority s₂ hs₂ t
  index := fun c o hc ho => by rw [setSide_findOrder, hindex]; exact h.index c o hc ho
  counter := by rw [setSide_nextMarketOrderId, harr]; exact h.counter

end Rep

end BookCore

/-! ## 3. Lists and queues of the abstract book -/

/-- Only the resting orders change. -/
def IndexedBook.withResting (x : IndexedBook) (l : List Resting) : IndexedBook :=
  { x with book := { x.book with resting := l } }

section Queued

variable {band : PriceBand} {addr : Nat → Nat} {x : ListBook} {side : Side} {price : Int}

/-- The counter of a price is read only while an order rests there. -/
theorem ListBook.queued_congr {x' : ListBook} (hj : x'.joined side price = x.joined side price)
    (h : (∃ o ∈ x'.resting, o.At side price) ↔ ∃ o ∈ x.resting, o.At side price) :
    x'.queued side price = x.queued side price := by
  simp only [queued, h, hj]

theorem exists_at_iff {l : List Resting} {t : Nat} :
    (∃ o ∈ l, o.At side (band.toPrice t)) ↔ queueAt band addr l side t ≠ [] := by
  rw [Ne, queueAt, slots, List.map_eq_nil_iff, List.filter_eq_nil_iff]
  simp

theorem exists_at_reduce {l : List Resting} {m : Resting} {e : Nat} :
    (∃ o ∈ reduce l m e, o.At side price) ↔ ∃ o ∈ l, o.At side price := by
  constructor
  · rintro ⟨o, ho, hat⟩
    obtain ⟨o', ho', rfl⟩ := List.mem_map.mp ho
    refine ⟨o', ho', ?_⟩
    split at hat <;> exact hat
  · rintro ⟨o, ho, hat⟩
    refine ⟨_, List.mem_map.mpr ⟨o, ho, rfl⟩, ?_⟩
    split <;> exact hat

end Queued

/-! ## 4. The operations of a side, on the book -/

namespace BookCore.Rep

variable {b : BookCore} {addr : Nat → Nat} {x : IndexedBook} {m : Resting} {t : Nat}

/-- **A fill** lowers the quantity of one resting order. -/
theorem fill (h : b.Rep addr x) (hm : m ∈ x.book.resting) (hs : m.side.Directional)
    (ht : m.price = b.band.toPrice t) {e : Nat} (he : e ≤ m.quantity) :
    ∃ l pool, (b.levels m.side).applyFill b.orderPool (some (addr m.arrival)) e =
        .ok (l, pool) ∧
      (b.setSide m.side l pool).Rep addr (x.withResting (reduce x.book.resting m e)) := by
  obtain ⟨n, hn, hstored⟩ := h.node m hm
  have hmem : addr m.arrival ∈ queueAt b.band addr x.book.resting m.side t :=
    mem_queueAt.mpr ⟨m, hm, ⟨rfl, ht⟩, rfl⟩
  obtain ⟨l, hfill, hside, -, hrep, hprio⟩ := PriceLevels.applyFill_spec (h.levels m.side hs) hmem
    hn (e := e) (by rw [hstored.remainingQuantity]; exact he)
  refine ⟨l, _, hfill, h.setSide hs ?_ rfl ?_ (hside.trans (h.side _ hs)) ?_ ?_ ?_ ?_ ?_ ?_ rfl⟩
  · change MemPool.Inv _ (slots addr (reduce x.book.resting m e))
    rw [slots_reduce]
    exact h.pool.put (List.mem_map.mpr ⟨m, hm, rfl⟩)
  · intro o ho
    obtain ⟨o', ho', rfl⟩ := List.mem_map.mp ho
    by_cases harr : o'.arrival = m.arrival
    · obtain rfl := h.addr_inj ho' hm (congrArg addr harr)
      rw [if_pos rfl]
      refine ⟨_, MemPool.object?_put_self, hstored.marketOrderId, hstored.clientOrderId,
        hstored.priority, ?_, hstored.clientId⟩
      exact congrArg (· - e) hstored.remainingQuantity
    · have hne : addr o'.arrival ≠ addr m.arrival := fun he =>
        harr (congrArg Resting.arrival (h.addr_inj ho' hm he))
      rw [if_neg harr, MemPool.object?_put_of_ne hne]
      exact h.node o' ho'
  · rw [show queueAt b.band addr (x.withResting (reduce x.book.resting m e)).book.resting m.side =
      queueAt b.band addr x.book.resting m.side from funext fun _ => queueAt_reduce]
    exact hrep
  · intro s₂ _ _ t₂
    exact queueAt_reduce
  · intro s₂ _ hne t₂ a ha
    refine MemPool.object?_put_of_ne fun he => ?_
    exact h.not_queued_twice hne hmem (he ▸ ha)
  · intro t'
    have hsame : (x.withResting (reduce x.book.resting m e)).book.queued m.side
        (b.band.toPrice t') = x.book.queued m.side (b.band.toPrice t') :=
      ListBook.queued_congr rfl exists_at_reduce
    rw [hprio, h.nextPriority m.side hs, hsame]
  · intro s₂ _ p
    exact ListBook.queued_congr rfl exists_at_reduce
  · intro c o
    rfl

/-- **A removal** takes one resting order out of its queue and frees its slot. -/
theorem remove (h : b.Rep addr x)
    (hp : x.book.resting.Pairwise fun o o' => o.arrival < o'.arrival)
    (hm : m ∈ x.book.resting) (hs : m.side.Directional) (ht : m.price = b.band.toPrice t) :
    ∃ l pool, (b.levels m.side).removeOrder b.orderPool (some (addr m.arrival)) =
        .ok (l, pool) ∧
      (b.setSide m.side l pool).Rep addr (x.withResting (without x.book.resting m)) := by
  have hat : m.At m.side (b.band.toPrice t) := ⟨rfl, ht⟩
  have hmem : addr m.arrival ∈ queueAt b.band addr x.book.resting m.side t :=
    mem_queueAt.mpr ⟨m, hm, hat, rfl⟩
  obtain ⟨q₁, q₂, hq, hq'⟩ := queueAt_split addr hp hm hat
  obtain ⟨l, pool, hremove, hpool, hcap, hside, hrep, hobj, hprio⟩ :=
    PriceLevels.removeOrder_spec h.pool (h.levels m.side hs) (fun _ _ ha => queueAt_subset ha) hq
  have hne : ∀ o ∈ without x.book.resting m, addr o.arrival ≠ addr m.arrival := by
    intro o ho he
    obtain ⟨ho, hne⟩ := List.mem_filter.mp ho
    obtain rfl := h.addr_inj ho hm he
    simp at hne
  have hqueue : queueAt b.band addr (without x.book.resting m) m.side =
      Function.update (queueAt b.band addr x.book.resting m.side) t (q₁ ++ q₂) :=
    hq' ▸ queueAt_without h.valid hp hm hat
  refine ⟨l, pool, hremove, h.setSide hs ?_ hcap ?_ (hside.trans (h.side _ hs)) ?_ ?_ ?_ ?_ ?_ ?_
    rfl⟩
  · rw [slots_without hp h.pool.nodup hm] at hpool
    exact hpool
  · intro o ho
    obtain ⟨n, hn, hstored⟩ := h.node o (List.mem_filter.mp ho).1
    refine ⟨_, by rw [hobj _ (hne o ho), hn, Option.map_some], ?_⟩
    exact ⟨hstored.marketOrderId, hstored.clientOrderId, hstored.priority,
      hstored.remainingQuantity, hstored.clientId⟩
  · exact hqueue ▸ hrep
  · intro s₂ _ hs₂ t₂
    exact queueAt_without_of_ne hp hm fun hat' => hs₂ hat'.1.symm
  · intro s₂ _ hs₂ t₂ a ha
    have hnot : ∀ y ∈ q₁ ++ addr m.arrival :: q₂, a ≠ y := by
      rintro y hy rfl
      exact h.not_queued_twice hs₂ (hq ▸ hy) ha
    have h₁ : ¬ q₁.getLast? = some a := fun he =>
      hnot a (List.mem_append_left _ (List.mem_of_getLast? he)) rfl
    have h₂ : ¬ q₂.head? = some a := fun he =>
      hnot a (List.mem_append_right _ (List.mem_cons_of_mem _ (List.mem_of_head? he))) rfl
    rw [hobj a (hnot _ (by simp))]
    cases b.orderPool.object? a <;> simp [h₁, h₂]
  · intro t'
    rw [hprio, h.nextPriority m.side hs]
    have hsame : ((∃ o ∈ without x.book.resting m, o.At m.side (b.band.toPrice t')) ↔
        ∃ o ∈ x.book.resting, o.At m.side (b.band.toPrice t')) →
        (x.withResting (without x.book.resting m)).book.queued m.side (b.band.toPrice t') =
          x.book.queued m.side (b.band.toPrice t') := fun hex =>
      ListBook.queued_congr (show (x.withResting (without x.book.resting m)).book.joined m.side
        (b.band.toPrice t') = x.book.joined m.side (b.band.toPrice t') from rfl) hex
    by_cases he : t' = t
    · subst he
      -- the counter starts again when no order is left at the tick
      have hiff : (∃ o ∈ without x.book.resting m, o.At m.side (b.band.toPrice t')) ↔
          q₁ ++ q₂ ≠ [] := by
        have hex : (∃ o ∈ without x.book.resting m, o.At m.side (b.band.toPrice t')) ↔
            queueAt b.band addr (without x.book.resting m) m.side t' ≠ [] := exists_at_iff
        rwa [hqueue, Function.update_self] at hex
      by_cases hnil : q₁ ++ q₂ = []
      · rw [if_pos ⟨rfl, hnil⟩, ListBook.queued]
        rw [if_neg (by exact fun hex => hiff.mp hex hnil)]
        rfl
      · rw [if_neg fun hc => hnil hc.2, hsame (iff_of_true (hiff.mpr hnil) ⟨m, hm, hat⟩)]
    · have hnot : ¬ m.At m.side (b.band.toPrice t') := by
        rintro ⟨-, hprice⟩
        exact he (by exact_mod_cast (PriceBand.toPrice_inj h.valid).mp (hprice.symm.trans ht))
      rw [if_neg fun hc => he hc.1, hsame (exists_at_without_of_ne hp hm hnot)]
  · intro s₂ hs₂ p
    exact ListBook.queued_congr rfl
      (exists_at_without_of_ne hp hm fun hat' => hs₂ hat'.1.symm)
  · intro c o
    rfl

/-- **A new resting order** goes to the end of the queue of its tick. -/
theorem push (h : b.Rep addr x) (clientId clientOrderId quantity : Nat) {side : Side}
    {price : Int} (hs : side.Directional) (ht : t < kTickCount) (hprice : price = b.band.toPrice t)
    (hroom : x.book.resting.length < kMaxOrderIds)
    (hlast : ∀ o ∈ x.book.resting, o.arrival < x.book.arrivals)
    (hindex : ∀ c o a, x.index c o = some a → a ≠ x.book.arrivals) :
    ∃ a l pool n, (b.levels side).addOrder b.orderPool t clientId clientOrderId
        (x.book.arrivals % kWord64) quantity = .ok (a, l, pool) ∧
      pool.object? a = some n ∧ n.priority = (x.book.queued side price + 1) % kWord64 ∧
      (b.setSide side l pool).Rep (Function.update addr x.book.arrivals a)
        { x with book := x.book.rest clientId clientOrderId side price quantity } := by
  have hlen : (slots addr x.book.resting).length < b.orderPool.capacity := by
    rw [h.capacity, slots, List.length_map]
    exact hroom
  obtain ⟨a, l, pool, hadd, hfresh, hpool, hcap, hside, hrep, hnew, hobj, hlevels⟩ :=
    PriceLevels.addOrder_spec clientId clientOrderId (x.book.arrivals % kWord64) quantity h.pool
      (h.levels side hs) (fun _ _ ha => queueAt_subset ha) ht hlen
  have haddr : ∀ o ∈ x.book.resting,
      Function.update addr x.book.arrivals a o.arrival = addr o.arrival := fun o ho =>
    Function.update_of_ne (Nat.ne_of_lt (hlast o ho)) _ _
  have hself : Function.update addr x.book.arrivals a x.book.arrivals = a := Function.update_self ..
  refine ⟨a, l, pool, _, hadd, hnew, ?_,
    h.setSide hs ?_ hcap ?_ (hside.trans (h.side _ hs)) ?_ ?_ ?_
    ?_ ?_ ?_ rfl⟩
  · rw [hprice]
    exact h.nextPriority side hs t
  · have hslots : slots (Function.update addr x.book.arrivals a)
        (x.book.rest clientId clientOrderId side price quantity).resting =
          slots addr x.book.resting ++ [a] := by
      simp only [ListBook.rest, slots, List.map_append, List.map_cons, List.map_nil, hself]
      rw [List.map_congr_left haddr]
    rw [hslots]
    exact hpool
  · intro o ho
    rcases List.mem_append.mp ho with ho | ho
    · obtain ⟨n, hn, hstored⟩ := h.node o ho
      rw [haddr o ho, hobj _ (List.mem_map.mpr ⟨o, ho, rfl⟩), hn, Option.map_some]
      refine ⟨_, rfl, ?_⟩
      split
      · exact ⟨hstored.marketOrderId, hstored.clientOrderId, hstored.priority,
          hstored.remainingQuantity, hstored.clientId⟩
      · exact hstored
    · obtain rfl := List.mem_singleton.mp ho
      refine ⟨_, by rw [hself]; exact hnew, rfl, rfl, ?_, rfl, rfl⟩
      rw [hprice]
      exact h.nextPriority side hs t
  · have hqueue : queueAt b.band (Function.update addr x.book.arrivals a) x.book.resting side =
        queueAt b.band addr x.book.resting side := funext fun _ => queueAt_congr haddr
    rw [ListBook.rest, queueAt_snoc h.valid ⟨rfl, hprice⟩, hqueue, hself]
    exact hrep
  · intro s₂ _ hs₂ t₂
    rw [ListBook.rest, queueAt_snoc_of_ne fun hat => hs₂ hat.1.symm, queueAt_congr haddr]
  · intro s₂ _ hs₂ t₂ y hy
    have hnot : ¬ (queueAt b.band addr x.book.resting side t).getLast? = some y := fun he =>
      h.not_queued_twice hs₂ (List.mem_of_getLast? he) hy
    rw [hobj y (queueAt_subset hy)]
    cases b.orderPool.object? y <;> simp [hnot]
  · intro t'
    rw [hlevels]
    by_cases he : t' = t
    · subst he
      have hex : ∃ o ∈ (x.book.rest clientId clientOrderId side price quantity).resting,
          o.At side (b.band.toPrice t') :=
        ⟨_, List.mem_append_right _ (List.mem_singleton.mpr rfl), rfl, hprice⟩
      rw [Function.update_self, ListBook.queued, if_pos hex]
      simp only [FIFOLevel.push, h.nextPriority side hs, add64_mod, ListBook.rest, hprice,
        Function.update_self]
    · have hp : b.band.toPrice t' ≠ price := by
        rw [hprice]
        intro hp
        exact he (by exact_mod_cast (PriceBand.toPrice_inj h.valid).mp hp)
      rw [Function.update_of_ne he, h.nextPriority side hs]
      refine congrArg (fun k => (k + 1) % kWord64) (ListBook.queued_congr ?_ ?_).symm
      · simp [ListBook.rest, hp]
      · simp [ListBook.rest, Resting.At, hp.symm]
  · intro s₂ hs₂ p
    refine ListBook.queued_congr ?_ ?_
    · simp [ListBook.rest, Function.update_of_ne hs₂]
    · simp [ListBook.rest, Resting.At, hs₂.symm]
  · intro c o
    cases hix : x.index c o with
    | none => rfl
    | some y => simp [Function.update_of_ne (hindex c o y hix)]

end BookCore.Rep

end YQuant
