/-
# When every resting order can be cancelled

`Cancel` reaches an order through the id index only.  `BookCore.Cancellable` says that the index
entry of every resting order's client and id points to that very order, so that a cancel takes it
out.  The calls that keep this are characterised exactly (`cancellable_iff_sparesOwner`): a new
order must not come to rest while an older order of the same client and id stays in the book,
because `IndexOrder` overwrites the entry and the older order can no longer be named.

Everything is read off the code's own structures: `queue` follows the links of a level.

Why this condition and no simpler one?  A new order that is used up leaves the entry alone, and one
that trades with the older order of its id takes it out of the book before it rests itself; in both
cases nothing is lost.  `SparesOwner` says exactly this in terms of what rests within the reach of
the new order, before the call.  The run has to meet it at every step, since an order that cannot
be named once cannot be named later either.

`not_always_cancellable` is the smallest run that fails: two orders of one id that meet nothing.
The cancel of that id takes the second one out, and there is no call that takes out the first.
-/
import Mathlib.Algebra.BigOperators.Group.Finset.Basic
import Mathlib.Algebra.BigOperators.Group.Finset.Piecewise
import YQuant.Matcher.Refinement

namespace YQuant
namespace BookCore

/-! ## 1. Resting orders, read off the links -/

/-- The slots queued at a tick, first to last. -/
def queue (b : BookCore) (side : Side) (tick : Nat) : List Nat :=
  Links.walk (Nodes.next b.orderPool.object?) kMaxOrderIds ((b.levels side).levels tick).firstOrder

/-- Slot `a` is queued at a tick and holds `node`. -/
structure RestsAt (b : BookCore) (side : Side) (tick a : Nat) (node : OrderNode) : Prop where
  directional : side.Directional
  inArray : tick < kTickCount
  mem : a ∈ b.queue side tick
  node : b.orderPool.object? a = some node

/-- **Every resting order can be cancelled by its owner**: the index entry of its client and id
points to it, and a cancel of that id answers `CANCELED` and takes it out of its queue. -/
def Cancellable (b : BookCore) : Prop :=
  ∀ side tick a node, b.RestsAt side tick a node →
    b.findOrder node.clientId node.clientOrderId = .ok (some a) ∧
    ∃ b' r, b.cancel node.clientId node.clientOrderId = .ok b' ∧
      b'.outgoingClientResponses = b.outgoingClientResponses ++ [r] ∧ r.type = .canceled ∧
      r.marketOrderId = node.marketOrderId ∧ a ∉ b'.queue side tick

/-- The quantity resting at the ticks a taker reaches. -/
def reachableQuantity (b : BookCore) (taker : TakerOrder) : Nat :=
  ∑ tick ∈ Finset.range kTickCount, if crosses taker tick then
    ((b.queue taker.side.opposite tick).map (Nodes.quantity b.orderPool.object?)).sum else 0

/-- The order of the index entry is out of the way of a new order of the same id: the new order is
absorbed by the opposite side, or the older order is itself within its reach. -/
def SparesOwner (b : BookCore) : BookCall → Prop
  | .add clientId clientOrderId side price quantity =>
    let taker : TakerOrder :=
      ⟨clientId, clientOrderId, b.nextMarketOrderId, side, b.band.toTick price, quantity⟩
    ∀ a, b.findOrder clientId clientOrderId = .ok (some a) →
      quantity ≤ b.reachableQuantity taker ∨
        ∃ node level, b.orderPool.object? a = some node ∧ node.level = some level ∧
          level.side = side.opposite ∧ crosses taker level.index = true
  | .cancel .. => True

/-! ## 2. The queues of the represented book -/

variable {b : BookCore} {addr : Nat → Nat} {x : IndexedBook}

theorem Rep.queue_eq (h : b.Rep addr x) {side : Side} (hs : side.Directional) (t : Nat) :
    b.queue side t = queueAt b.band addr x.book.resting side t := by
  obtain ⟨hfirst, -, hseg⟩ := ((h.levels side hs).level t).chain
  have hlen : (queueAt b.band addr x.book.resting side t).length ≤ kMaxOrderIds := by
    have hle := h.pool.length_le
    rw [h.capacity, slots, List.length_map] at hle
    rw [queueAt, slots, List.length_map]
    exact (List.length_filter_le _ _).trans hle
  rw [queue, hfirst]
  exact hseg.walk_eq hlen

/-- A slot rests at a tick when its order does. -/
theorem Rep.restsAt_iff (h : b.Rep addr x) {side : Side} {t a : Nat} {node : OrderNode} :
    b.RestsAt side t a node ↔ side.Directional ∧ t < kTickCount ∧
      b.orderPool.object? a = some node ∧
      ∃ o ∈ x.book.resting, o.At side (b.band.toPrice t) ∧ addr o.arrival = a := by
  constructor
  · rintro ⟨hs, ht, hmem, hnode⟩
    rw [h.queue_eq hs] at hmem
    exact ⟨hs, ht, hnode, mem_queueAt.mp hmem⟩
  · rintro ⟨hs, ht, hnode, hex⟩
    refine ⟨hs, ht, ?_, hnode⟩
    rw [h.queue_eq hs]
    exact mem_queueAt.mpr hex

/-- Where a resting order rests, and what its node says. -/
theorem Rep.exists_restsAt (h : b.Rep addr x) (hinv : IndexedBook.Inv b.band x) {o : Resting}
    (ho : o ∈ x.book.resting) : ∃ t n, b.RestsAt o.side t (addr o.arrival) n ∧ o.Stored n ∧
      o.price = b.band.toPrice t ∧ n.level = some ⟨o.side, t⟩ := by
  obtain ⟨t, ht, hprice⟩ := Rep.exists_tick hinv h.valid ho
  obtain ⟨n, hn, hstored⟩ := h.node o ho
  have hs := hinv.orderly.sides o ho
  obtain ⟨n', hn', hl⟩ := ((h.levels _ hs).level t).owned (addr o.arrival)
    (mem_queueAt.mpr ⟨o, ho, ⟨rfl, hprice⟩, rfl⟩)
  rw [hn] at hn'
  refine ⟨t, n, h.restsAt_iff.mpr ⟨hs, ht, hn, o, ho, ⟨rfl, hprice⟩, rfl⟩, hstored, hprice, ?_⟩
  rw [Option.some.inj hn', hl, h.side _ hs]

/-! ## 3. Cancellable books have a complete index -/

theorem Rep.cancellable_of_complete (h : b.Rep addr x) (hinv : IndexedBook.Inv b.band x)
    (hc : x.Complete) : b.Cancellable := by
  intro side t a node hrests
  obtain ⟨hs, -, hnode, o, ho, hat, rfl⟩ := h.restsAt_iff.mp hrests
  obtain ⟨n, hn, hstored⟩ := h.node o ho
  obtain rfl := Option.some.inj (hnode.symm.trans hn)
  obtain ⟨hclient, horder⟩ := hinv.keys o ho
  have hix := hc o ho
  rw [hstored.clientId, hstored.clientOrderId]
  refine ⟨by rw [h.index _ _ hclient horder, hix]; rfl, ?_⟩
  have hfind : x.find o.clientId o.clientOrderId = some o := hinv.find_of_index ho hix
  obtain ⟨b', hcancel, hrep', hemits⟩ := h.cancel hinv hclient horder
  rw [hfind] at hemits
  refine ⟨b', _, hcancel, hemits.responses, rfl, hstored.marketOrderId.symm, ?_⟩
  rw [hrep'.queue_eq hs]
  intro hmem
  obtain ⟨o', ho', -, haddr⟩ := mem_queueAt.mp hmem
  simp only [IndexedBook.step, hfind, ListBook.remove] at ho'
  obtain ⟨ho', hne⟩ := List.mem_filter.mp ho'
  rw [h.addr_inj ho' ho haddr] at hne
  simp at hne

theorem Rep.complete_of_cancellable (h : b.Rep addr x) (hinv : IndexedBook.Inv b.band x)
    (hcancel : b.Cancellable) : x.Complete := by
  intro o ho
  obtain ⟨t, n, hrests, hstored, -, -⟩ := h.exists_restsAt hinv ho
  obtain ⟨hfind, -⟩ := hcancel _ _ _ _ hrests
  obtain ⟨hclient, horder⟩ := hinv.keys o ho
  rw [hstored.clientId, hstored.clientOrderId, h.index _ _ hclient horder] at hfind
  obtain ⟨y, hy, haddr⟩ := Option.map_eq_some_iff.mp (Except.ok.inj hfind)
  obtain ⟨r, hr, rfl, -⟩ := hinv.sound _ _ _ hy
  rw [hy, h.addr_inj hr ho haddr]

/-! ## 4. The calls that keep a book cancellable -/

/-- A tick is within reach when its price is. -/
theorem crosses_iff (hvalid : b.band.isValid = true) (taker : TakerOrder) {t : Nat} {o : Resting}
    (hside : o.side = taker.side.opposite) (hprice : o.price = b.band.toPrice t) :
    crosses taker t = true ↔ o.CrossedBy taker.side (b.band.toPrice taker.limitTick) := by
  simp only [crosses, Resting.CrossedBy, hside, true_and, hprice]
  split <;> simp [PriceBand.toPrice_le_iff hvalid]

/-- Summing over the ticks within reach is summing over the orders within reach. -/
theorem sum_ticks (hvalid : b.band.isValid = true) (taker : TakerOrder) (w : Resting → Nat) :
    ∀ {l : List Resting}, (∀ o ∈ l, b.band.InBand o.price) →
      (∑ t ∈ Finset.range kTickCount, if crosses taker t then
        ((l.filter fun o => o.At taker.side.opposite (b.band.toPrice t)).map w).sum else 0) =
      ((l.filter fun o =>
        o.CrossedBy taker.side (b.band.toPrice taker.limitTick)).map w).sum
  | [], _ => by simp
  | o :: l, hin => by
    have ih := sum_ticks hvalid taker w fun o' ho' => hin o' (List.mem_cons_of_mem _ ho')
    obtain ⟨t₀, ht₀, -, hprice⟩ := PriceBand.toTick_of_inBand hvalid (hin o (by simp))
    -- the order counts at its own tick only
    have hsplit : ∀ t : Nat, (if crosses taker t then
        (((o :: l).filter fun o => o.At taker.side.opposite (b.band.toPrice t)).map
          w).sum else 0) =
        (if t = t₀ then (if o.CrossedBy taker.side (b.band.toPrice taker.limitTick)
          then w o else 0) else 0) +
        (if crosses taker t then
          ((l.filter fun o => o.At taker.side.opposite (b.band.toPrice t)).map
            w).sum else 0) := by
      intro t
      by_cases hat : o.At taker.side.opposite (b.band.toPrice t)
      · have ht : t = t₀ := by
          have := (PriceBand.toPrice_inj hvalid).mp (hat.2.symm.trans hprice)
          exact_mod_cast this
        subst ht
        have hcross := crosses_iff hvalid taker hat.1 hat.2
        by_cases hc : crosses taker t = true
        · simp [hc, hat, hcross.mp hc]
        · have hc' : ¬ o.CrossedBy taker.side (b.band.toPrice taker.limitTick) :=
            fun h => hc (hcross.mpr h)
          simp [hc, hc']
      · have hnot : ¬ (t = t₀ ∧ o.CrossedBy taker.side (b.band.toPrice taker.limitTick)) := by
          rintro ⟨rfl, hc⟩
          exact hat ⟨hc.1, hprice⟩
        rw [List.filter_cons_of_neg (by simpa using hat)]
        by_cases ht : t = t₀
        · have hc' : ¬ o.CrossedBy taker.side (b.band.toPrice taker.limitTick) :=
            fun h => hnot ⟨ht, h⟩
          simp [ht, hc']
        · simp [ht]
    rw [Finset.sum_congr rfl fun t _ => hsplit t, Finset.sum_add_distrib, ih,
      Finset.sum_ite_eq' _ t₀, if_pos (Finset.mem_range.mpr ht₀)]
    by_cases hc : o.CrossedBy taker.side (b.band.toPrice taker.limitTick)
    · simp [hc]
    · simp [hc]

theorem Rep.reachableQuantity_eq (h : b.Rep addr x) (hinv : IndexedBook.Inv b.band x)
    (taker : TakerOrder) :
    b.reachableQuantity taker =
      crossedQuantity x.book.resting taker.side (b.band.toPrice taker.limitTick) := by
  rw [crossedQuantity, ← sum_ticks h.valid taker Resting.quantity hinv.orderly.inBand,
    reachableQuantity]
  refine Finset.sum_congr rfl fun t _ => ?_
  have hqty : ∀ o ∈ x.book.resting.filter
      (fun o => o.At taker.side.opposite (b.band.toPrice t)),
      (Nodes.quantity b.orderPool.object? ∘ fun o => addr o.arrival) o = o.quantity := by
    intro o ho
    obtain ⟨n, hn, hstored⟩ := h.node o (List.mem_filter.mp ho).1
    exact (Nodes.quantity_eq hn).trans hstored.remainingQuantity
  rw [h.queue_eq (opposite_directional _), queueAt, slots, List.map_map,
    List.map_congr_left hqty]

/-- **A call keeps the index complete exactly when it spares the owner.** -/
theorem Rep.sparesOwner_iff (h : b.Rep addr x) (hinv : IndexedBook.Inv b.band x)
    (hc : x.Complete) {call : BookCall} (hdoc : call.Documented b.band) :
    (x.step call).Complete ↔ b.SparesOwner call := by
  cases call with
  | cancel clientId clientOrderId =>
    exact iff_of_true (hc.cancel hinv clientId clientOrderId) trivial
  | add clientId clientOrderId side price quantity =>
    obtain ⟨hclient, horder, hdir, hband, -⟩ := hdoc
    obtain ⟨t, -, htick, hprice⟩ := PriceBand.toTick_of_inBand h.valid hband
    let taker : TakerOrder :=
      ⟨clientId, clientOrderId, b.nextMarketOrderId, side, b.band.toTick price, quantity⟩
    have hlimit : b.band.toPrice taker.limitTick = price := by
      change b.band.toPrice (b.band.toTick price) = price
      rw [htick, hprice]
    have hreach : b.reachableQuantity taker = crossedQuantity x.book.resting side price := by
      rw [h.reachableQuantity_eq hinv, hlimit]
    have hfind := h.index clientId clientOrderId hclient horder
    rw [hc.step_add_iff hinv]
    change _ ↔ ∀ a, b.findOrder clientId clientOrderId = .ok (some a) →
      quantity ≤ b.reachableQuantity taker ∨ ∃ node level, b.orderPool.object? a = some node ∧
        node.level = some level ∧ level.side = side.opposite ∧ crosses taker level.index = true
    rw [hreach, hfind]
    cases hix : x.index clientId clientOrderId with
    | none =>
      -- no order of this id rests
      refine iff_of_true (Or.inr fun r hr hkey => ?_) (by simp)
      have := hc r hr
      rw [hkey.1, hkey.2, hix] at this
      cases this
    | some y =>
      obtain ⟨r, hr, rfl, hkey⟩ := hinv.sound _ _ _ hix
      obtain ⟨tr, n, hrests, -, hpr, hlevel⟩ := h.exists_restsAt hinv hr
      have hall : (∀ r' ∈ x.book.resting, r'.HasKey clientId clientOrderId →
          r'.CrossedBy side price) ↔ r.CrossedBy side price := by
        constructor
        · exact fun hforall => hforall r hr hkey
        · intro hcross r' hr' hkey'
          rw [← hkey.1, ← hkey.2] at hkey'
          rw [hc.eq_of_key hinv hr hr' hkey']
          exact hcross
      have hnode : (∃ node level, b.orderPool.object? (addr r.arrival) = some node ∧
          node.level = some level ∧ level.side = side.opposite ∧
            crosses taker level.index = true) ↔ r.CrossedBy side price := by
        have hcross : r.side = side.opposite →
            (crosses taker tr = true ↔ r.CrossedBy side price) := fun hs => by
          rw [crosses_iff h.valid taker hs hpr, hlimit]
        constructor
        · rintro ⟨node, level, hobj, hl, hs, hcr⟩
          obtain rfl := Option.some.inj (hrests.node.symm.trans hobj)
          obtain rfl := Option.some.inj (hlevel.symm.trans hl)
          exact (hcross hs).mp hcr
        · intro hcr
          exact ⟨n, _, hrests.node, hlevel, hcr.1, (hcross hcr.1).mpr hcr⟩
      simp only [Option.map_some, Except.ok.injEq, Option.some.injEq, forall_eq', hnode, hall]

/-- **The exact condition for every resting order to stay cancellable**: no call of the run lets a
new order come to rest over an older one of the same client and id.  `SparesOwner` reads this off
the book before the call: the order that the entry names is itself within reach of the new one, or
the new one finds enough to be used up.  Orders that share an id only after one of them has left
are no trouble. -/
theorem cancellable_iff_sparesOwner (symbolId : Nat) (band : PriceBand) (calls : List BookCall)
    (hband : band.isValid = true) (hdoc : ∀ call ∈ calls, call.Documented band) :
    Run.Always apply Cancellable (empty symbolId band) calls ↔
      Run.EachStep apply SparesOwner (empty symbolId band) calls := by
  have hstep : ∀ b call b', (∃ x, Simulates symbolId band b x) → call.Documented band →
      b.apply call = .ok b' → ∃ x, Simulates symbolId band b x ∧
        Simulates symbolId band b' (x.step call) := by
    rintro b call b' ⟨x, h⟩ hd happly
    obtain ⟨m, hm, h', -⟩ := h.step (h.admits hd happly)
    obtain rfl := Except.ok.inj (happly.symm.trans hm)
    exact ⟨x, h, h'⟩
  refine Run.always_iff_eachStep (I := fun b => ∃ x, Simulates symbolId band b x) ?_ ?_
    ⟨_, empty_simulates symbolId hband⟩ ?_ hdoc
  · intro b call b' hI hd happly
    obtain ⟨x, -, h'⟩ := hstep b call b' hI hd happly
    exact ⟨_, h'⟩
  · intro b call b' hI hP hd happly
    obtain ⟨x, h, h'⟩ := hstep b call b' hI hd happly
    obtain ⟨addr, hrep⟩ := h.rep
    obtain ⟨addr', hrep'⟩ := h'.rep
    have hinv := h.inv
    have hinv' := h'.inv
    rw [← h.band] at hinv hd
    rw [← h'.band] at hinv'
    have hc := hrep.complete_of_cancellable hinv hP
    rw [← hrep.sparesOwner_iff hinv hc hd]
    exact ⟨hrep'.complete_of_cancellable hinv', hrep'.cancellable_of_complete hinv'⟩
  · have hrep : (empty symbolId band).Rep id IndexedBook.empty := empty_rep symbolId hband
    exact hrep.cancellable_of_complete IndexedBook.Inv.empty IndexedBook.Complete.empty

/-- A client's order, cancelled before its id is used again. -/
theorem cancellable_iff_sparesOwner_cancel :
    Run.Always apply Cancellable (empty 0 kDefaultPriceBand)
      [.add 1 7 .buy 10 5, .cancel 1 7] := by
  refine (cancellable_iff_sparesOwner 0 kDefaultPriceBand _ (by decide) (by decide)).mpr ?_
  intro b _
  refine ⟨fun a ha => ?_, fun b' _ => ⟨trivial, trivial⟩⟩
  have hnone : (empty 0 kDefaultPriceBand).findOrder 1 7 = .ok none := rfl
  rw [hnone] at ha
  cases ha

/-- Two orders of one client under one id: the first one rests in slot 0, the entry of the id
points to slot 1. -/
theorem reused_id_rests :
    ∃ b, [BookCall.add 1 7 .buy 10 5, .add 1 7 .buy 11 5].foldlM apply
        (empty 0 kDefaultPriceBand) = .ok b ∧
      b.RestsAt .buy 10 0 ⟨none, none, some ⟨.buy, 10⟩, 1, 7, 1, 5, 1⟩ ∧
      b.findOrder 1 7 = .ok (some 1) :=
  ⟨_, rfl, ⟨Or.inl rfl, by decide, by decide +kernel, rfl⟩, rfl⟩

/-- **Not every documented run keeps every resting order cancellable.** -/
theorem not_always_cancellable :
    ¬ ∀ (symbolId : Nat) (band : PriceBand) (calls : List BookCall), band.isValid = true →
      (∀ call ∈ calls, call.Documented band) →
      Run.Always apply Cancellable (empty symbolId band) calls := by
  intro h
  obtain ⟨b, hrun, hrests, hfind⟩ := reused_id_rests
  have hcancel := (h 0 kDefaultPriceBand _ (by decide) (by decide)).of_foldlM hrun
  have hfound := (hcancel _ _ _ _ hrests).1
  rw [hfind] at hfound
  exact absurd hfound (by decide)

end BookCore

end YQuant
