/-
# The stream of market updates of one book

What a reader of the updates knows is the list of live orders that they leave: `replay`.  A book
never publishes an update that the reader cannot apply: `Published` says what each update can
rely on in the list its predecessors left, and `run_published` that it holds of every update of a
run, in the middle of a call too.  A new order never meets an opposite order at its price or
better, and ids only grow, because a maker is announced as gone or reduced before the remainder
of its taker is announced as resting.

`Consistent` is what the list looks like between any two updates: ids ascend in it, all prices are
in the band, and no two orders of opposite sides have one price.  The last one is what a client's
book relies on without saying so, since its table of levels has one place for a price and not one
for each side.

Ids are market order ids, drawn by the exchange, and small as long as fewer than `kMaxOrderIds`
orders are entered.  What the updates do not tell is who owns an order, and which taker was filled.
-/
import YQuant.Matcher.Refinement

namespace YQuant

/-! ## 1. Replaying updates -/

/-- A live order as the updates describe it. -/
structure LiveOrder where
  orderId : Nat
  side : Side
  price : Int
  quantity : Nat
  priority : Nat
deriving DecidableEq, Repr

/-- The live orders after one update, in the order in which they were added. -/
def replay (l : List LiveOrder) (u : MatchingEngineMarketUpdate) : List LiveOrder :=
  match u.type with
  | .add => l ++ [⟨u.orderId, u.side, u.price, u.quantity, u.priority⟩]
  | .modify => l.map fun o => if o.orderId = u.orderId then { o with quantity := u.quantity } else o
  | .cancel => l.filter fun o => o.orderId ≠ u.orderId
  | .clear => []
  | .invalid | .trade | .snapshotStart | .snapshotEnd | .other _ => l

/-- A cancel takes its order out of the middle. -/
theorem filter_middle {o : LiveOrder} {l₁ l₂ : List LiveOrder}
    (hnd : ((l₁ ++ o :: l₂).map LiveOrder.orderId).Nodup) :
    (l₁ ++ o :: l₂).filter (fun o' => o'.orderId ≠ o.orderId) = l₁ ++ l₂ := by
  rw [List.map_append, List.map_cons, List.nodup_append, List.nodup_cons] at hnd
  have h₁ : l₁.filter (fun o' => o'.orderId ≠ o.orderId) = l₁ :=
    List.filter_eq_self.mpr fun o' ho' => by
      rw [decide_eq_true_eq]
      exact hnd.2.2 _ (List.mem_map_of_mem ho') _ List.mem_cons_self
  have h₂ : l₂.filter (fun o' => o'.orderId ≠ o.orderId) = l₂ :=
    List.filter_eq_self.mpr fun o' ho' => by
      rw [decide_eq_true_eq]
      exact fun heq => hnd.2.1.1 (heq ▸ List.mem_map_of_mem ho')
  rw [List.filter_append, List.filter_cons_of_neg (by simp), h₁, h₂]

/-- **What a book's update can rely on** in the list of live orders it meets. -/
def Published (band : PriceBand) (l : List LiveOrder) (u : MatchingEngineMarketUpdate) : Prop :=
  match u.type with
  | .add => u.orderId < kMaxOrderIds ∧ (∀ o ∈ l, o.orderId < u.orderId) ∧ u.side.Directional ∧
      band.InBand u.price ∧ 0 < u.quantity ∧
      ∀ o ∈ l, o.side = u.side.opposite →
        if u.side = .buy then u.price < o.price else o.price < u.price
  | .modify => ∃ o ∈ l, o.orderId = u.orderId ∧ o.side = u.side ∧ o.price = u.price ∧
      o.priority = u.priority ∧ 0 < u.quantity ∧ u.quantity < o.quantity
  | .cancel => ∃ o ∈ l, o.orderId = u.orderId ∧ o.side = u.side ∧ o.price = u.price
  | .trade => ∃ o ∈ l, o.orderId = u.orderId ∧ o.side = u.side ∧ o.price = u.price ∧
      0 < u.quantity ∧ u.quantity ≤ o.quantity
  | .invalid | .clear | .snapshotStart | .snapshotEnd | .other _ => False

/-- **Live orders as the updates of a book leave them**: by ascending id, in the band, and never two
opposite orders at one price. -/
structure Consistent (band : PriceBand) (l : List LiveOrder) : Prop where
  ascending : l.Pairwise fun o o' => o.orderId < o'.orderId
  small : ∀ o ∈ l, o.orderId < kMaxOrderIds
  sides : ∀ o ∈ l, o.side.Directional
  prices : ∀ o ∈ l, band.InBand o.price
  apart : ∀ o ∈ l, ∀ o' ∈ l, o.price = o'.price → o.side = o'.side

theorem Consistent.nil (band : PriceBand) : Consistent band [] :=
  ⟨List.Pairwise.nil, by simp, by simp, by simp, by simp⟩

theorem Consistent.sublist {band : PriceBand} {l l' : List LiveOrder} (h : Consistent band l)
    (hsub : l'.Sublist l) : Consistent band l' where
  ascending := h.ascending.sublist hsub
  small := fun o ho => h.small o (hsub.mem ho)
  sides := fun o ho => h.sides o (hsub.mem ho)
  prices := fun o ho => h.prices o (hsub.mem ho)
  apart := fun o ho o' ho' => h.apart o (hsub.mem ho) o' (hsub.mem ho')

/-- A published order and one that rests at its price are on the same side. -/
theorem Published.apart {band : PriceBand} {l : List LiveOrder} (hl : Consistent band l)
    {u : MatchingEngineMarketUpdate} (htype : u.type = .add) (h : Published band l u) :
    ∀ o ∈ l, o.price = u.price → o.side = u.side := by
  unfold Published at h
  simp only [htype] at h
  intro o ho hprice
  have hcross := h.2.2.2.2.2 o ho
  rcases hl.sides o ho with h1 | h1 <;> rcases h.2.2.1 with h2 | h2 <;> simp_all

/-- **Published updates keep the live orders consistent.** -/
theorem Published.consistent {band : PriceBand} {l : List LiveOrder} (hl : Consistent band l)
    {u : MatchingEngineMarketUpdate} (h : Published band l u) : Consistent band (replay l u) := by
  have hpub := h
  unfold Published at h
  unfold replay
  cases htype : u.type with
  | add =>
    have hapart := hpub.apart hl htype
    simp only [htype] at h
    obtain ⟨hsmall, hids, hside, hband, -, -⟩ := h
    refine ⟨?_, ?_, ?_, ?_, ?_⟩
    · refine List.pairwise_append.mpr ⟨hl.ascending, List.pairwise_singleton _ _,
        fun o ho o' ho' => ?_⟩
      rw [List.mem_singleton.mp ho']
      exact hids o ho
    · intro o ho
      rcases List.mem_append.mp ho with ho | ho
      · exact hl.small o ho
      · rw [List.mem_singleton.mp ho]
        exact hsmall
    · intro o ho
      rcases List.mem_append.mp ho with ho | ho
      · exact hl.sides o ho
      · rw [List.mem_singleton.mp ho]
        exact hside
    · intro o ho
      rcases List.mem_append.mp ho with ho | ho
      · exact hl.prices o ho
      · rw [List.mem_singleton.mp ho]
        exact hband
    · intro o ho o' ho' hprice
      rcases List.mem_append.mp ho with ho | ho <;> rcases List.mem_append.mp ho' with ho' | ho'
      · exact hl.apart o ho o' ho' hprice
      · rw [List.mem_singleton.mp ho'] at hprice ⊢
        exact hapart o ho hprice
      · rw [List.mem_singleton.mp ho] at hprice ⊢
        exact (hapart o' ho' hprice.symm).symm
      · rw [List.mem_singleton.mp ho, List.mem_singleton.mp ho']
  | modify =>
    -- only the quantity of an order changes
    have hsame : ∀ o' ∈ l.map (fun o => if o.orderId = u.orderId then
        { o with quantity := u.quantity } else o), ∃ o ∈ l, o'.orderId = o.orderId ∧
          o'.side = o.side ∧ o'.price = o.price := fun o' ho' => by
      obtain ⟨o, ho, rfl⟩ := List.mem_map.mp ho'
      refine ⟨o, ho, ?_⟩
      split <;> exact ⟨rfl, rfl, rfl⟩
    refine ⟨?_, fun o ho => ?_, fun o ho => ?_, fun o ho => ?_, fun o ho o' ho' hprice => ?_⟩
    · refine List.pairwise_map.mpr (hl.ascending.imp fun {o o'} hlt => ?_)
      split <;> split <;> exact hlt
    · obtain ⟨o₂, ho₂, hid, -, -⟩ := hsame o ho
      rw [hid]
      exact hl.small o₂ ho₂
    · obtain ⟨o₂, ho₂, -, hside, -⟩ := hsame o ho
      rw [hside]
      exact hl.sides o₂ ho₂
    · obtain ⟨o₂, ho₂, -, -, hp⟩ := hsame o ho
      rw [hp]
      exact hl.prices o₂ ho₂
    · obtain ⟨o₂, ho₂, -, hside, hp⟩ := hsame o ho
      obtain ⟨o₃, ho₃, -, hside', hp'⟩ := hsame o' ho'
      rw [hside, hside']
      exact hl.apart o₂ ho₂ o₃ ho₃ (hp.symm.trans (hprice.trans hp'))
  | cancel => exact hl.sublist List.filter_sublist
  | clear => exact Consistent.nil band
  | invalid | trade | snapshotStart | snapshotEnd | other => exact hl

/-! ## 2. The live orders of a book -/

/-- A resting order as its updates describe it. -/
def Resting.live (o : Resting) : LiveOrder :=
  ⟨o.marketOrderId, o.side, o.price, o.quantity, o.priority⟩

/-- The live orders of a book. -/
def IndexedBook.live (x : IndexedBook) : List LiveOrder := x.book.resting.map Resting.live

section Trades

variable {band : PriceBand} {l l' : List Resting} {m : Resting} {e : Nat}

theorem Resting.marketOrderId_of_lt {o : Resting} (h : o.arrival < kMaxOrderIds) :
    o.marketOrderId = o.arrival :=
  Nat.mod_eq_of_lt (h.trans (by decide))

theorem live_id_eq_iff (hsmall : ∀ o ∈ l, o.arrival < kMaxOrderIds) {o : Resting} (ho : o ∈ l)
    (hm : m ∈ l) : o.live.orderId = m.marketOrderId ↔ o.arrival = m.arrival := by
  change o.marketOrderId = _ ↔ _
  rw [Resting.marketOrderId_of_lt (hsmall o ho), Resting.marketOrderId_of_lt (hsmall m hm)]

/-- Dropping the id of an order drops the order. -/
theorem live_without (hsmall : ∀ o ∈ l, o.arrival < kMaxOrderIds) (hm : m ∈ l) :
    (l.map Resting.live).filter (fun o => o.orderId ≠ m.marketOrderId) =
      (without l m).map Resting.live := by
  rw [List.filter_map, without]
  congr 1
  refine List.filter_congr fun o ho => ?_
  simp [live_id_eq_iff hsmall ho hm]

/-- Setting the quantity of an id reduces the order. -/
theorem live_reduce (hl : Orderly band l) (hsmall : ∀ o ∈ l, o.arrival < kMaxOrderIds)
    (hm : m ∈ l) :
    (l.map Resting.live).map (fun o => if o.orderId = m.marketOrderId then
        { o with quantity := m.quantity - e } else o) = (reduce l m e).map Resting.live := by
  rw [reduce, List.map_map, List.map_map]
  refine List.map_congr_left fun o ho => ?_
  simp only [Function.comp_apply, live_id_eq_iff hsmall ho hm]
  split
  · next harr =>
    rw [hl.eq_of_arrival ho hm harr]
    rfl
  · rfl

/-- **The updates of one trade** can be applied, and lead to the list after the trade. -/
theorem fill_published (symbolId left : Nat) (hl : Orderly band l)
    (hsmall : ∀ o ∈ l, o.arrival < kMaxOrderIds) (hm : m ∈ l) (he : 0 < e) (hle : e ≤ m.quantity) :
    Run.AlongRun replay (Published band) (l.map Resting.live)
        (Fill.updates symbolId ⟨m, e, left⟩) ∧
      (Fill.updates symbolId ⟨m, e, left⟩).foldl replay (l.map Resting.live) =
        (takeFrom l m e).map Resting.live := by
  have hmem : m.live ∈ l.map Resting.live := List.mem_map.mpr ⟨m, hm, rfl⟩
  have htrade : Published band (l.map Resting.live)
      ⟨.trade, symbolId, m.marketOrderId, m.side, m.price, e, 0⟩ :=
    ⟨m.live, hmem, rfl, rfl, rfl, he, hle⟩
  unfold Fill.updates takeFrom
  by_cases hex : e = m.quantity
  · simp only [if_pos hex]
    exact ⟨⟨htrade, ⟨m.live, hmem, rfl, rfl, rfl⟩, trivial⟩, live_without hsmall hm⟩
  · simp only [if_neg hex]
    refine ⟨⟨htrade, ⟨m.live, hmem, rfl, rfl, rfl, rfl, ?_, ?_⟩, trivial⟩,
      live_reduce hl hsmall hm⟩
    · change 0 < m.quantity - e
      omega
    · change m.quantity - e < m.quantity
      omega

theorem takeFrom_small (hsmall : ∀ o ∈ l, o.arrival < kMaxOrderIds) :
    ∀ o ∈ takeFrom l m e, o.arrival < kMaxOrderIds := by
  intro o ho
  obtain ⟨o', ho', heq, -⟩ := mem_takeFrom ho
  rw [heq]
  exact hsmall o' ho'

/-- **The updates of a run of trades.** -/
theorem Sweeps.published {side : Side} {limit : Int} {q q' : Nat} {fs : List Fill} (symbolId : Nat)
    (h : Sweeps side limit l q fs l' q') (hl : Orderly band l)
    (hsmall : ∀ o ∈ l, o.arrival < kMaxOrderIds) :
    Run.AlongRun replay (Published band) (l.map Resting.live)
        (fs.flatMap (Fill.updates symbolId)) ∧
      (fs.flatMap (Fill.updates symbolId)).foldl replay (l.map Resting.live) =
        l'.map Resting.live := by
  induction h with
  | done => exact ⟨trivial, rfl⟩
  | @trade l l' q q' m fs hq hm _ ih =>
    have hmem := (bestMaker_mem hm).1
    have hpos := hl.positive m hmem
    obtain ⟨hfirst, hfold⟩ := fill_published symbolId (q - min q m.quantity) hl hsmall
      hmem (by omega) (min_le_right q m.quantity)
    obtain ⟨hrest, hfold'⟩ := ih (hl.takeFrom hmem (min_le_right _ _)) (takeFrom_small hsmall)
    rw [List.flatMap_cons, Run.alongRun_append, List.foldl_append, hfold]
    exact ⟨⟨hfirst, hrest⟩, hfold'⟩

end Trades

/-! ## 3. The updates of a call and of a run -/

namespace IndexedBook

variable {band : PriceBand} {x : IndexedBook}

/-- The tables of the readers have a place for the id of every resting order. -/
def Small (x : IndexedBook) : Prop := ∀ o ∈ x.book.resting, o.arrival < kMaxOrderIds

instance (x : IndexedBook) : Decidable x.Small :=
  inferInstanceAs (Decidable (∀ o ∈ x.book.resting, _))

theorem Inv.small (h : Inv band x) (hfew : x.book.arrivals < kMaxOrderIds) : x.Small := fun o ho =>
  Nat.lt_of_le_of_lt (h.bounded o ho) hfew

/-- The number of orders entered by a list of calls. -/
def adds : List BookCall → Nat
  | [] => 0
  | .add .. :: calls => adds calls + 1
  | .cancel .. :: calls => adds calls

theorem arrivals_step (x : IndexedBook) (call : BookCall) :
    (x.step call).book.arrivals = x.book.arrivals + adds [call] := by
  cases call with
  | add clientId clientOrderId side price quantity => exact arrivals_add ..
  | cancel clientId clientOrderId => exact arrivals_cancel ..

theorem adds_cons (call : BookCall) (calls : List BookCall) :
    adds (call :: calls) = adds [call] + adds calls := by
  cases call <;> simp [adds, Nat.add_comm]

theorem arrivals_foldl (calls : List BookCall) : ∀ x : IndexedBook,
    (calls.foldl step x).book.arrivals = x.book.arrivals + adds calls := by
  induction calls with
  | nil => exact fun _ => rfl
  | cons call calls ih =>
    intro x
    rw [List.foldl_cons, ih, arrivals_step, adds_cons call calls, Nat.add_assoc]

/-- **The updates of a documented call** can be applied, and lead to the book after the call, as
long as the ids of the resting orders are small. -/
theorem Inv.call_published_of_small (symbolId : Nat) (h : Inv band x) {call : BookCall}
    (hdoc : call.Documented band) (hsmall : x.Small) (hsmall' : (x.step call).Small) :
    Run.AlongRun replay (Published band) x.live (x.updates symbolId call) ∧
      (x.updates symbolId call).foldl replay x.live = (x.step call).live := by
  cases call with
  | add clientId clientOrderId side price quantity =>
    have hs := sweep_sweeps side price x.book.resting quantity
    obtain ⟨hrun, hfold⟩ := hs.published symbolId h.orderly hsmall
    rw [step_add] at hsmall' ⊢
    change Run.AlongRun replay (Published band) x.live
      (x.book.addUpdates symbolId side price quantity) ∧
      (x.book.addUpdates symbolId side price quantity).foldl replay x.live = _
    rw [ListBook.addUpdates, Run.alongRun_append, List.foldl_append]
    rw [show (x.book.fills side price quantity).flatMap (Fill.updates symbolId) =
      (sweep side price x.book.resting quantity).1.flatMap (Fill.updates symbolId) from rfl, live,
      hfold]
    by_cases hleft : x.book.left side price quantity = 0
    · rw [if_pos hleft, if_pos hleft]
      exact ⟨⟨hrun, trivial⟩, rfl⟩
    · -- the remainder is announced last
      rw [if_neg hleft] at hsmall'
      have hfew : x.book.arrivals + 1 < kMaxOrderIds :=
        hsmall' _ (List.mem_append_right _ (List.mem_singleton_self _))
      have hid : (x.book.arrivals + 1) % kWord64 = x.book.arrivals + 1 :=
        Nat.mod_eq_of_lt (Nat.lt_trans hfew (by decide))
      have hlast := h.traded_lt side price quantity
      rw [if_neg hleft, if_neg hleft]
      refine ⟨⟨hrun, ⟨?_, ?_, hdoc.2.2.1, hdoc.2.2.2.1, Nat.pos_of_ne_zero hleft, ?_⟩, trivial⟩, ?_⟩
      · change (x.book.arrivals + 1) % kWord64 < kMaxOrderIds
        rw [hid]
        exact hfew
      · intro o ho
        obtain ⟨r, hr, rfl⟩ := List.mem_map.mp ho
        change r.marketOrderId < (x.book.arrivals + 1) % kWord64
        rw [hid]
        exact Nat.lt_of_le_of_lt (Nat.mod_le _ _) (hlast r hr)
      · intro o ho hside
        obtain ⟨r, hr, rfl⟩ := List.mem_map.mp ho
        have hcross := Inv.traded_not_crossed hleft r hr
        simp only [Resting.CrossedBy, not_and] at hcross
        have := hcross hside
        change if side = .buy then price < r.price else r.price < price
        split at this <;> simp_all
      · have hrest : ((x.traded side price quantity).rest clientId clientOrderId side price
            (x.book.left side price quantity)).live =
            (sweep side price x.book.resting quantity).2.1.map Resting.live ++
              [⟨(x.book.arrivals + 1) % kWord64, side, price, x.book.left side price quantity,
                ((x.book.traded side price quantity).queued side price + 1) % kWord64⟩] :=
          List.map_append
        rw [hrest]
        rfl
  | cancel clientId clientOrderId =>
    cases hf : x.find clientId clientOrderId with
    | none =>
      rw [h.step_cancel_none hf]
      simp only [updates, hf, ListBook.cancelUpdates]
      exact ⟨trivial, rfl⟩
    | some m =>
      obtain ⟨hm, -, -⟩ := h.find_some hf
      have hlive : (x.step (.cancel clientId clientOrderId)).live =
          (without x.book.resting m).map Resting.live := by
        simp only [live, IndexedBook.step, hf, ListBook.remove]
      rw [hlive]
      simp only [updates, hf, ListBook.cancelUpdates]
      exact ⟨⟨⟨m.live, List.mem_map.mpr ⟨m, hm, rfl⟩, rfl, rfl, rfl⟩, trivial⟩,
        live_without hsmall hm⟩

theorem Inv.call_published (symbolId : Nat) (h : Inv band x) {call : BookCall}
    (hdoc : call.Documented band) (hfew : (x.step call).book.arrivals < kMaxOrderIds) :
    Run.AlongRun replay (Published band) x.live (x.updates symbolId call) ∧
      (x.updates symbolId call).foldl replay x.live = (x.step call).live := by
  refine h.call_published_of_small symbolId hdoc (h.small ?_) ((h.step hdoc).small hfew)
  rw [arrivals_step] at hfew
  exact Nat.lt_of_le_of_lt (Nat.le_add_right _ _) hfew

/-- **The updates of a run of documented calls.** -/
theorem Inv.run_published (symbolId : Nat) :
    ∀ {calls : List BookCall} {x : IndexedBook}, Inv band x →
      (∀ call ∈ calls, call.Documented band) → x.book.arrivals + adds calls < kMaxOrderIds →
      Run.AlongRun replay (Published band) x.live
          (Run.outputs IndexedBook.step (updates symbolId) x calls) ∧
        (Run.outputs IndexedBook.step (updates symbolId) x calls).foldl replay x.live =
          (calls.foldl IndexedBook.step x).live
  | [], _, _, _, _ => ⟨trivial, rfl⟩
  | call :: calls, x, h, hdoc, hfew => by
    rw [adds_cons, ← Nat.add_assoc, ← arrivals_step] at hfew
    have hd := hdoc call (by simp)
    obtain ⟨hcall, hfold⟩ := h.call_published symbolId hd
      (Nat.lt_of_le_of_lt (Nat.le_add_right _ _) hfew)
    obtain ⟨hrest, hfold'⟩ := run_published symbolId (h.step hd)
      (fun c hc => hdoc c (by simp [hc])) hfew
    rw [Run.outputs_cons, Run.alongRun_append, List.foldl_append, hfold]
    exact ⟨⟨hcall, hrest⟩, hfold'⟩

/-! ## 4. Runs with few orders -/

/-- Orders with small ids leave room in the pool. -/
theorem Inv.length_le_of_small (h : Inv band x) (hsmall : x.Small) :
    x.book.resting.length ≤ kMaxOrderIds := by
  have hnd : (x.book.resting.map Resting.arrival).Nodup :=
    List.pairwise_map.mpr (h.orderly.arrivals.imp fun hlt => Nat.ne_of_lt hlt)
  have hsub : x.book.resting.map Resting.arrival ⊆ List.range kMaxOrderIds := by
    intro a ha
    obtain ⟨o, ho, rfl⟩ := List.mem_map.mp ha
    exact List.mem_range.mpr (hsmall o ho)
  simpa using (hnd.subperm hsub).length_le

/-- Fewer orders than slots leave room in the pool. -/
theorem Inv.length_le (h : Inv band x) (hfew : x.book.arrivals < kMaxOrderIds) :
    x.book.resting.length ≤ kMaxOrderIds := h.length_le_of_small (h.small hfew)

theorem Inv.admits_of_few :
    ∀ {calls : List BookCall} {x : IndexedBook}, Inv band x →
      (∀ call ∈ calls, call.Documented band) → x.book.arrivals + adds calls < kMaxOrderIds →
      Run.AlongRun IndexedBook.step (Admits band) x calls
  | [], _, _, _, _ => trivial
  | call :: calls, x, h, hdoc, hfew => by
    rw [adds_cons, ← Nat.add_assoc, ← arrivals_step] at hfew
    have h' := h.step (hdoc call (by simp))
    exact ⟨⟨hdoc call (by simp), h'.length_le (Nat.lt_of_le_of_lt (Nat.le_add_right _ _) hfew)⟩,
      admits_of_few h' (fun c hc => hdoc c (by simp [hc])) hfew⟩

end IndexedBook

/-- **A run of fewer than `kMaxOrderIds` orders** returns, and publishes only updates that can be
applied where they arrive; they lead to the orders of the book. -/
theorem BookCore.run_published (symbolId : Nat) {band : PriceBand} {calls : List BookCall}
    (hband : band.isValid = true) (hdoc : ∀ call ∈ calls, call.Documented band)
    (hfew : IndexedBook.adds calls < kMaxOrderIds) :
    ∃ b x, run symbolId band calls = .ok b ∧ Simulates symbolId band b x ∧
      Run.AlongRun replay (Published band) [] b.outgoingMarketUpdates ∧
      b.outgoingMarketUpdates.foldl replay [] = x.live := by
  have hfew' : IndexedBook.empty.book.arrivals + IndexedBook.adds calls < kMaxOrderIds := by
    simpa [IndexedBook.empty, ListBook.empty] using hfew
  have hadmits := IndexedBook.Inv.empty.admits_of_few hdoc hfew'
  obtain ⟨b, hrun, hsim, -, hupdates⟩ := run_sim symbolId hband hadmits
  obtain ⟨hpub, hfold⟩ := IndexedBook.Inv.empty.run_published symbolId hdoc hfew'
  exact ⟨b, _, hrun, hsim, by rw [hupdates]; exact hpub, by rw [hupdates]; exact hfold⟩

end YQuant
