/-
# The order book simulates the indexed book

Every documented call takes a book that represents an indexed book to one that represents the
indexed book after the same call, and emits the same messages (`apply_sim`), as long as the pool
has room for the order that comes to rest.  The two loops of `Match` are compared trade by trade
with `Sweeps`: an inner loop is a run of trades at one price, the outer loop chains such runs until
no further trade is possible.

The two books are never compared in the middle of a trade but once: `Match` reduces the maker
before it looks whether it is used up, and `settleMaker` is where both agree again
(`Rep.settleMaker`).  What makes the inner loop end where a run of trades at one price ends is that
the head of a level is the first order that rests there (`Rep.head_cases`); what makes the outer
loop stop where no trade is possible is that the cached best tick is the best price of its side
(`Rep.best_cases`).

* `Rep.add`, `Rep.add_full`: `Add` with and without room for its remainder;
* `Rep.cancel`: `Cancel`, which may find nothing.

The messages are compared at every step, so their order is part of it.
-/
import YQuant.Lib.Run
import YQuant.Matcher.BookRep

namespace YQuant

/-! ## 1. What a call appends to the output queues -/

/-- `b'` follows `b` in the same book, with these messages emitted in between. -/
structure BookCore.Emits (b b' : BookCore) (rs : List MatchingEngineClientResponse)
    (us : List MatchingEngineMarketUpdate) : Prop where
  band : b'.band = b.band
  symbolId : b'.symbolId = b.symbolId
  responses : b'.outgoingClientResponses = b.outgoingClientResponses ++ rs
  updates : b'.outgoingMarketUpdates = b.outgoingMarketUpdates ++ us

namespace BookCore

theorem Emits.refl (b : BookCore) : Emits b b [] [] := ⟨rfl, rfl, by simp, by simp⟩

theorem Emits.trans {b b' b'' : BookCore} {rs rs' : List MatchingEngineClientResponse}
    {us us' : List MatchingEngineMarketUpdate} (h : Emits b b' rs us) (h' : Emits b' b'' rs' us') :
    Emits b b'' (rs ++ rs') (us ++ us') where
  band := h'.band.trans h.band
  symbolId := h'.symbolId.trans h.symbolId
  responses := by rw [h'.responses, h.responses, List.append_assoc]
  updates := by rw [h'.updates, h.updates, List.append_assoc]

theorem Emits.setSide {b : BookCore} {s : Side} {l : PriceLevels} {pool : MemPool OrderNode} :
    Emits b (b.setSide s l pool) [] [] := ⟨by simp, by simp, by simp, by simp⟩

theorem Emits.response {b : BookCore} (r : MatchingEngineClientResponse) :
    Emits b (b.sendClientResponse r) [r] [] := ⟨rfl, rfl, rfl, (List.append_nil _).symm⟩

theorem Emits.update {b : BookCore} (u : MatchingEngineMarketUpdate) :
    Emits b (b.sendMarketUpdate u) [] [u] := ⟨rfl, rfl, (List.append_nil _).symm, rfl⟩

variable {b : BookCore} {addr : Nat → Nat} {x : IndexedBook}

section Send

variable {r : MatchingEngineClientResponse} {u : MatchingEngineMarketUpdate} {side : Side}

@[simp] theorem sendClientResponse_symbolId : (b.sendClientResponse r).symbolId = b.symbolId := rfl
@[simp] theorem sendClientResponse_orderPool :
    (b.sendClientResponse r).orderPool = b.orderPool := rfl
@[simp] theorem sendClientResponse_levels :
    (b.sendClientResponse r).levels side = b.levels side := rfl
@[simp] theorem sendMarketUpdate_symbolId : (b.sendMarketUpdate u).symbolId = b.symbolId := rfl

end Send

namespace Rep

theorem sendClientResponse (h : b.Rep addr x) (r : MatchingEngineClientResponse) :
    (b.sendClientResponse r).Rep addr x := ⟨h.valid, h.pool, h.capacity, h.node, h.side, h.levels,
  h.nextPriority, h.index, h.counter⟩

theorem sendMarketUpdate (h : b.Rep addr x) (u : MatchingEngineMarketUpdate) :
    (b.sendMarketUpdate u).Rep addr x := ⟨h.valid, h.pool, h.capacity, h.node, h.side, h.levels,
  h.nextPriority, h.index, h.counter⟩

/-! ## 2. The order id index -/

/-- A write to one entry of the id table. -/
theorem setIndex (h : b.Rep addr x) {c o : Nat} {entry : Option Nat}
    (orders : Nat → Option (Nat → Option Nat))
    (hw : ∀ c' o', c' < kMaxNumClients → o' < kMaxOrderIds →
      ({ b with orders := orders } : BookCore).findOrder c' o' =
        if c' = c ∧ o' = o then .ok (entry.map addr) else b.findOrder c' o') :
    ({ b with orders := orders } : BookCore).Rep addr
    { x with index := x.index.set c o entry } where
  valid := h.valid
  pool := h.pool
  capacity := h.capacity
  node := h.node
  side := h.side
  levels := h.levels
  nextPriority := h.nextPriority
  index := fun c' o' hc ho => by
    change _ = Except.ok ((x.index.set c o entry c' o').map addr)
    rw [hw c' o' hc ho, OrderIndex.set_apply]
    split
    · rfl
    · exact h.index c' o' hc ho
  counter := h.counter

/-- **`IndexOrder`** overwrites the entry of an id. -/
theorem indexOrder (h : b.Rep addr x) {c o : Nat} (arrival : Nat) (hc : c < kMaxNumClients)
    (ho : o < kMaxOrderIds) :
    ∃ b', b.indexOrder c o (addr arrival) = .ok b' ∧
      b'.Rep addr { x with index := x.index.set c o (some arrival) } ∧ Emits b b' [] [] ∧
      b'.orderPool = b.orderPool := by
  let table := Function.update ((b.orders c).getD fun _ => none) o (some (addr arrival))
  refine ⟨{ b with orders := Function.update b.orders c (some table) },
    by simp [BookCore.indexOrder, hc, ho, table], h.setIndex _ fun c' o' hc' ho' => ?_,
    ⟨rfl, rfl, by simp, by simp⟩, rfl⟩
  unfold findOrder
  by_cases hcc : c' = c
  · subst hcc
    by_cases hoo : o' = o
    · subst hoo; simp [hc, ho, table]
    · cases ht : b.orders c' <;> simp [hc, ho', hoo, table, ht]
  · simp [hcc]

/-- **`UnindexOrder`** clears the entry of an id. -/
theorem unindexOrder (h : b.Rep addr x) {c o : Nat} (hc : c < kMaxNumClients)
    (ho : o < kMaxOrderIds) :
    ∃ b', b.unindexOrder c o = .ok b' ∧ b'.Rep addr { x with index := x.index.set c o none } ∧
      Emits b b' [] [] := by
  cases ht : b.orders c with
  | none =>
    refine ⟨b, by simp [BookCore.unindexOrder, hc, ht],
      h.setIndex b.orders fun c' o' hc' ho' => ?_, .refl b⟩
    split
    · next hk => simp [findOrder, hk.1, hc, ht]
    · rfl
  | some table =>
    refine ⟨{ b with orders := Function.update b.orders c (some (Function.update table o none)) },
      by simp [BookCore.unindexOrder, hc, ht, ho], h.setIndex _ fun c' o' hc' ho' => ?_,
      ⟨rfl, rfl, by simp, by simp⟩⟩
    unfold findOrder
    by_cases hcc : c' = c
    · subst hcc
      by_cases hoo : o' = o
      · subst hoo; simp [hc, ho]
      · simp [hc, ho', hoo, ht]
    · simp [hcc]

end Rep

/-! ## 3. One trade -/

/-- The tick at which an order rests. -/
theorem Rep.exists_tick (hinv : IndexedBook.Inv b.band x) (hvalid : b.band.isValid = true)
    {m : Resting} (hm : m ∈ x.book.resting) :
    ∃ t : Nat, t < kTickCount ∧ m.price = b.band.toPrice t := by
  obtain ⟨t, ht, -, hp⟩ := PriceBand.toTick_of_inBand hvalid (hinv.orderly.inBand m hm)
  exact ⟨t, ht, hp⟩

/-- The second update of a trade. -/
def makerUpdate (symbolId : Nat) (m : Resting) (e : Nat) : MatchingEngineMarketUpdate :=
  if e = m.quantity then ⟨.cancel, symbolId, m.marketOrderId, m.side, m.price, 0, 0⟩
  else ⟨.modify, symbolId, m.marketOrderId, m.side, m.price, m.quantity - e, m.priority⟩

/-- **The end of a trade.**  In `x` the maker still has its quantity, in the book it is already
reduced. -/
theorem Rep.settleMaker {m : Resting} {e : Nat} (left : Nat) {n : OrderNode} {takerSide : Side}
    (hinv : IndexedBook.Inv b.band x) (hm : m ∈ x.book.resting) (he : e ≤ m.quantity)
    (hside : m.side = takerSide.opposite)
    (h : b.Rep addr (x.withResting (reduce x.book.resting m e)))
    (hstored : { m with quantity := m.quantity - e }.Stored n) :
    ∃ b', b.settleMaker takerSide m.price (addr m.arrival) n = .ok b' ∧
      b'.Rep addr (x.afterFill ⟨m, e, left⟩) ∧ Emits b b' [] [makerUpdate b.symbolId m e] := by
  have hdir : m.side.Directional := hinv.orderly.sides m hm
  have hopp : (b.oppositeLevels takerSide).side = m.side := by
    rw [BookCore.oppositeLevels, ← hside]
    exact h.side m.side hdir
  have hid : n.marketOrderId = m.marketOrderId := hstored.marketOrderId
  have hqty : n.remainingQuantity = m.quantity - e := hstored.remainingQuantity
  unfold BookCore.settleMaker
  rw [hopp, hqty]
  dsimp only
  by_cases hex : e = m.quantity
  · -- the maker is exhausted: it leaves the index, then the book
    obtain ⟨hc, ho⟩ := hinv.keys m hm
    obtain ⟨t, -, ht⟩ := Rep.exists_tick hinv h.valid hm
    let u : MatchingEngineMarketUpdate :=
      ⟨.cancel, b.symbolId, m.marketOrderId, m.side, m.price, 0, 0⟩
    obtain ⟨b₂, hunindex, hrep, hemits⟩ := (h.sendMarketUpdate u).unindexOrder hc ho
    have hmem : { m with quantity := m.quantity - e } ∈ reduce x.book.resting m e :=
      List.mem_map.mpr ⟨m, hm, if_pos rfl⟩
    have hband : b₂.band = b.band := hemits.band
    obtain ⟨l, pool, hremove, hrep'⟩ :=
      hrep.remove (reduce_pairwise hinv.orderly.arrivals) hmem hdir (hband ▸ ht)
    have hafter : x.afterFill ⟨m, e, left⟩ =
        ⟨{ x.book with resting := without x.book.resting m },
          x.index.set m.clientId m.clientOrderId none⟩ := by
      simp [IndexedBook.afterFill, takeFrom, OrderIndex.afterFill, hex]
    refine ⟨b₂.setSide m.side l pool, ?_, ?_, ?_⟩
    · have hz : m.quantity - e = 0 := by omega
      rw [if_pos hz, hid, hstored.clientId, hstored.clientOrderId]
      simp only [u] at hunindex
      simp only [hunindex, ok_bind, BookCore.oppositeLevels, ← hside, hremove]
    · rw [hafter]
      have hwithout : without (reduce x.book.resting m e) m = without x.book.resting m :=
        without_reduce
      rw [← hwithout]
      exact hrep'
    · rw [makerUpdate, if_pos hex]
      exact ((Emits.update u).trans hemits).trans .setSide
  · have hafter : x.afterFill ⟨m, e, left⟩ = x.withResting (reduce x.book.resting m e) := by
      simp [IndexedBook.afterFill, takeFrom, OrderIndex.afterFill, hex, IndexedBook.withResting]
    have hz : ¬ m.quantity - e = 0 := by omega
    refine ⟨_, by rw [if_neg hz], ?_, ?_⟩
    · rw [hafter]
      exact h.sendMarketUpdate _
    · rw [makerUpdate, if_neg hex, hid, hstored.priority]
      exact Emits.update _

/-- **One trade** with the best maker. -/
theorem Rep.trade {m : Resting} {limit : Int} {taker : TakerOrder}
    (hinv : IndexedBook.Inv b.band x) (h : b.Rep addr x)
    (hm : bestMaker x.book.resting taker.side limit = some m) :
    ∃ b' f, b.trade taker m.price (addr m.arrival) =
        .ok (b', { taker with quantity := f.takerLeft }) ∧
      f = ⟨m, min taker.quantity m.quantity, taker.quantity - min taker.quantity m.quantity⟩ ∧
      b'.Rep addr (x.afterFill f) ∧
      Emits b b' (f.responses b.symbolId taker.clientId taker.clientOrderId taker.marketOrderId
        taker.side) (f.updates b.symbolId) := by
  obtain ⟨hmem, hside, -⟩ := bestMaker_mem hm
  have hdir : m.side.Directional := hinv.orderly.sides m hmem
  obtain ⟨t, -, ht⟩ := Rep.exists_tick hinv h.valid hmem
  obtain ⟨n, hn, hstored⟩ := h.node m hmem
  obtain ⟨l, pool, hfill, hrep⟩ := h.fill hmem hdir ht
    (e := min taker.quantity m.quantity) (min_le_right _ _)
  have hmem' : { m with quantity := m.quantity - min taker.quantity m.quantity } ∈
      reduce x.book.resting m (min taker.quantity m.quantity) :=
    List.mem_map.mpr ⟨m, hmem, if_pos rfl⟩
  obtain ⟨n', hn', hstored'⟩ := hrep.node _ hmem'
  rw [setSide_orderPool] at hn'
  let e := min taker.quantity m.quantity
  let b₁ := b.setSide m.side l pool
  let r₁ : MatchingEngineClientResponse :=
    ⟨.filled, taker.clientId, b.symbolId, taker.clientOrderId,
    taker.marketOrderId, taker.side, m.price, e, taker.quantity - e⟩
  let r₂ : MatchingEngineClientResponse := ⟨.filled, m.clientId, b.symbolId, m.clientOrderId,
    m.marketOrderId, m.side, m.price, e, m.quantity - e⟩
  let u : MatchingEngineMarketUpdate :=
    ⟨.trade, b.symbolId, m.marketOrderId, m.side, m.price, e, 0⟩
  let b₂ := ((b₁.sendClientResponse r₁).sendClientResponse r₂).sendMarketUpdate u
  have hrep₂ : b₂.Rep addr (x.withResting (reduce x.book.resting m e)) :=
    ((hrep.sendClientResponse r₁).sendClientResponse r₂).sendMarketUpdate u
  have hband₂ : b₂.band = b.band := setSide_band
  have hemits₂ : Emits b b₂ [r₁, r₂] [u] :=
    ((Emits.setSide.trans (.response r₁)).trans (.response r₂)).trans (.update u)
  obtain ⟨b', hsettle, hrep', hemits'⟩ := Rep.settleMaker (taker.quantity - e)
    (hband₂ ▸ hinv) hmem (min_le_right _ _) hside hrep₂ hstored'
  refine ⟨b', _, ?_, rfl, hrep', ?_⟩
  · have hopp : (b.levels m.side).side = m.side := h.side m.side hdir
    have hid' : n'.marketOrderId = m.marketOrderId := hstored'.marketOrderId
    have hclient : n'.clientId = m.clientId := hstored'.clientId
    have hclientOrder : n'.clientOrderId = m.clientOrderId := hstored'.clientOrderId
    have hqty : n'.remainingQuantity = m.quantity - min taker.quantity m.quantity :=
      hstored'.remainingQuantity
    unfold BookCore.trade
    simp only [MemPool.deref_some hn, ok_bind, BookCore.oppositeLevels, ← hside,
      hstored.remainingQuantity, hfill, hopp, sendClientResponse_orderPool, setSide_orderPool,
      MemPool.deref_some hn', sendClientResponse_symbolId, setSide_symbolId, hid', hclient,
      hclientOrder, hqty]
    exact congrArg (· >>= _) hsettle
  · have hemits := hemits₂.trans hemits'
    rw [show b₂.symbolId = b.symbolId from hemits₂.symbolId] at hemits
    exact hemits

/-! ## 4. The loops of `Match` -/

/-- A price a taker accepts. -/
def accepts (side : Side) (limit price : Int) : Prop :=
  if side = .buy then price ≤ limit else limit ≤ price

/-- The head of the queue at the best accepted price is the best maker. -/
theorem bestMaker_of_queue {l rest : List Resting} {side : Side} {limit price : Int} {m : Resting}
    (hqueue : l.filter (fun o => o.At side.opposite price) = m :: rest)
    (hbest : ∀ o ∈ l, o.side = side.opposite → takerRank side price ≤ takerRank side o.price)
    (haccepts : accepts side limit price) : bestMaker l side limit = some m := by
  obtain ⟨l₁, l₂, hl, hfirst, hm, -⟩ := List.filter_eq_cons_iff.mp hqueue
  obtain ⟨hside, hprice⟩ : m.At side.opposite price := by simpa using hm
  refine bestMaker_of_first hl ⟨hside, hprice ▸ haccepts⟩ ?_ ?_
  · intro o ho hc
    rw [hprice]
    exact hbest o ho hc.1
  · intro o ho hat
    refine hfirst o ho ?_
    simpa [hside, hprice] using hat

/-- The messages of a run of trades of one taker. -/
def tradeResponses (symbolId : Nat) (taker : TakerOrder) (fs : List Fill) :
    List MatchingEngineClientResponse :=
  fs.flatMap (Fill.responses symbolId taker.clientId taker.clientOrderId taker.marketOrderId
    taker.side)

theorem opposite_directional (side : Side) : side.opposite.Directional := by
  unfold Side.opposite
  split
  · exact Or.inr rfl
  · exact Or.inl rfl

/-- The head of a level a taker trades against: the first order that rests there. -/
theorem Rep.head_cases (h : b.Rep addr x) (takerSide : Side) (t : Nat) :
    (((b.oppositeLevels takerSide).levelAt t).firstOrder = none ∧
        ∀ o ∈ x.book.resting, ¬ o.At takerSide.opposite (b.band.toPrice t)) ∨
      ∃ m rest, ((b.oppositeLevels takerSide).levelAt t).firstOrder = some (addr m.arrival) ∧
        x.book.resting.filter (fun o => o.At takerSide.opposite (b.band.toPrice t)) = m :: rest ∧
        m.price = b.band.toPrice t := by
  have hhead : ((b.oppositeLevels takerSide).levelAt t).firstOrder =
      (queueAt b.band addr x.book.resting takerSide.opposite t).head? :=
    ((h.levels _ (opposite_directional takerSide)).level t).chain.1
  cases hqueue : x.book.resting.filter
      (fun o => o.At takerSide.opposite (b.band.toPrice t)) with
  | nil =>
    refine Or.inl ⟨by rw [hhead, queueAt, hqueue]; rfl, fun o ho hat => ?_⟩
    exact absurd (by simpa using hat) (List.filter_eq_nil_iff.mp hqueue o ho)
  | cons m rest =>
    have hm : m ∈ x.book.resting.filter
        (fun o => o.At takerSide.opposite (b.band.toPrice t)) := by simp [hqueue]
    have hat : m.At takerSide.opposite (b.band.toPrice t) := by
      simpa using (List.mem_filter.mp hm).2
    exact Or.inr ⟨m, rest, by rw [hhead, queueAt, hqueue]; rfl, rfl, hat.2⟩

/-- The best price of a side stays the best one while orders of the side are taken. -/
theorem best_takeFrom {l : List Resting} {m : Resting} {e : Nat} {side : Side} {price : Int}
    (hbest : ∀ o ∈ l, o.side = side.opposite → takerRank side price ≤ takerRank side o.price) :
    ∀ o ∈ takeFrom l m e, o.side = side.opposite →
      takerRank side price ≤ takerRank side o.price := by
  intro o ho hside
  obtain ⟨o', ho', heq, -⟩ := mem_takeFrom ho
  rw [heq] at hside ⊢
  exact hbest o' ho' hside

/-- **The inner loop** is a run of trades that ends with the taker or with the level. -/
theorem Rep.matchLevel {t : Nat} {limit : Int} :
    ∀ (fuel : Nat) (b : BookCore) (x : IndexedBook) (taker : TakerOrder),
      taker.quantity < fuel → IndexedBook.Inv b.band x → b.Rep addr x →
      (∀ o ∈ x.book.resting, o.side = taker.side.opposite →
        takerRank taker.side (b.band.toPrice t) ≤ takerRank taker.side o.price) →
      accepts taker.side limit (b.band.toPrice t) →
      ∃ b' fs l' q', matchLevel t (b.band.toPrice t) fuel b taker =
          .ok (b', { taker with quantity := q' }) ∧
        Sweeps taker.side limit x.book.resting taker.quantity fs l' q' ∧
        b'.Rep addr (x.afterFills fs l') ∧
        Emits b b' (tradeResponses b.symbolId taker fs) (fs.flatMap (Fill.updates b.symbolId)) ∧
        ((∃ o ∈ x.book.resting, o.At taker.side.opposite (b.band.toPrice t)) →
          0 < taker.quantity → q' < taker.quantity) := by
  intro fuel
  induction fuel with
  | zero => intro b x taker hlt; omega
  | succ fuel ih =>
    intro b x taker hlt hinv h hbest haccepts
    by_cases hq : 0 < taker.quantity
    · rcases h.head_cases taker.side t with ⟨hnone, hempty⟩ | ⟨m, rest, hsome, hqueue, hprice⟩
      · refine ⟨b, [], _, taker.quantity, ?_, .done, h, Emits.refl b, ?_⟩
        · rw [BookCore.matchLevel, if_pos hq, hnone]
        · rintro ⟨o, ho, hat⟩ -
          exact absurd hat (hempty o ho)
      · have hm := bestMaker_of_queue hqueue hbest haccepts
        have hmem := (bestMaker_mem hm).1
        have hpos := hinv.orderly.positive m hmem
        obtain ⟨b₁, f, htrade, rfl, hrep₁, hemits₁⟩ := Rep.trade hinv h hm
        rw [hprice] at htrade
        have hband₁ := hemits₁.band
        obtain ⟨b', fs, l', q', hrun, hsweeps, hrep', hemits', -⟩ := ih b₁ _
          { taker with quantity := taker.quantity - min taker.quantity m.quantity }
          (by show taker.quantity - min taker.quantity m.quantity < fuel; omega)
          (hband₁ ▸ hinv.afterFill hmem (min_le_right _ _)) hrep₁
          (by rw [hband₁]; exact best_takeFrom hbest)
          (by rw [hband₁]; exact haccepts)
        refine ⟨b', _, l', q', ?_, .trade hq hm hsweeps, hrep', ?_, ?_⟩
        · rw [BookCore.matchLevel, if_pos hq, hsome]
          simp only [htrade, ok_bind]
          rw [hband₁] at hrun
          exact hrun
        · have hemits := hemits₁.trans hemits'
          rw [hemits₁.symbolId] at hemits
          exact hemits
        · intro _ _
          have hle : q' ≤ taker.quantity - min taker.quantity m.quantity :=
            hsweeps.preserves (P := fun _ q => q ≤ taker.quantity - min taker.quantity m.quantity)
              (fun _ _ _ hP _ _ => le_trans (Nat.sub_le _ _) hP) le_rfl
          omega
    · refine ⟨b, [], _, taker.quantity, ?_, .done, h, Emits.refl b, ?_⟩
      · rw [BookCore.matchLevel, if_neg hq]
      · intro _ hpos
        exact absurd hpos hq

/-- The limit of a taker reaches a tick when it accepts its price. -/
theorem crosses_iff_accepts {band : PriceBand} (hvalid : band.isValid = true) (taker : TakerOrder)
    (t : Nat) : crosses taker t = true ↔
      accepts taker.side (band.toPrice taker.limitTick) (band.toPrice t) := by
  unfold crosses accepts
  split <;> simp [PriceBand.toPrice_le_iff hvalid]

/-- The cached best tick of the side a taker trades against. -/
theorem Rep.best_cases (h : b.Rep addr x) (hinv : IndexedBook.Inv b.band x) (takerSide : Side) :
    ((b.oppositeLevels takerSide).bestTick = kInvalidTick ∧
        ∀ o ∈ x.book.resting, o.side ≠ takerSide.opposite) ∨
      ∃ t : Nat, (b.oppositeLevels takerSide).bestTick = t ∧
        (∃ o ∈ x.book.resting, o.At takerSide.opposite (b.band.toPrice t)) ∧
        ∀ o ∈ x.book.resting, o.side = takerSide.opposite →
          takerRank takerSide (b.band.toPrice t) ≤ takerRank takerSide o.price := by
  have hopp := opposite_directional takerSide
  have hbest := (h.levels _ hopp).best
  rw [h.side _ hopp] at hbest
  rcases hbest with ⟨hinvalid, hnone⟩ | ⟨t, ht, hocc, hall⟩
  · refine Or.inl ⟨hinvalid, fun o ho hside => ?_⟩
    obtain ⟨t, -, hp⟩ := Rep.exists_tick hinv h.valid ho
    exact hnone t (exists_at_iff.mp ⟨o, ho, hside, hp⟩)
  · refine Or.inr ⟨t, ht, exists_at_iff.mpr hocc, fun o ho hside => ?_⟩
    obtain ⟨t', -, hp⟩ := Rep.exists_tick hinv h.valid ho
    have hle := hall t' (exists_at_iff.mp ⟨o, ho, hside, hp⟩)
    rw [hp]
    by_cases hbuy : takerSide = .buy
    · simp only [hbuy, takerRank, if_true, Side.opposite_buy, reduceCtorEq, if_false] at hle ⊢
      exact (PriceBand.toPrice_le_iff h.valid).mpr (by exact_mod_cast hle)
    · simp only [takerRank, hbuy, if_false, Side.opposite, if_true] at hle ⊢
      exact Int.neg_le_neg ((PriceBand.toPrice_le_iff h.valid).mpr (by exact_mod_cast hle))

/-- **The outer loop** trades until nothing more is possible. -/
theorem Rep.matchLoop :
    ∀ (fuel : Nat) (b : BookCore) (x : IndexedBook) (taker : TakerOrder),
      taker.quantity < fuel → IndexedBook.Inv b.band x → b.Rep addr x →
      ∃ b' fs l' q', matchLoop fuel b taker = .ok (b', { taker with quantity := q' }) ∧
        Sweeps taker.side (b.band.toPrice taker.limitTick) x.book.resting taker.quantity fs l' q' ∧
        Settled taker.side (b.band.toPrice taker.limitTick) l' q' ∧
        b'.Rep addr (x.afterFills fs l') ∧
        Emits b b' (tradeResponses b.symbolId taker fs) (fs.flatMap (Fill.updates b.symbolId)) := by
  intro fuel
  induction fuel with
  | zero => intro b x taker hlt; omega
  | succ fuel ih =>
    intro b x taker hlt hinv h
    by_cases hq : 0 < taker.quantity
    · rcases h.best_cases hinv taker.side with ⟨hinvalid, hnone⟩ | ⟨t, ht, hex, hbest⟩
      · -- the opposite side is empty
        refine ⟨b, [], _, taker.quantity, ?_, .done, Or.inr ?_, h, Emits.refl b⟩
        · rw [BookCore.matchLoop, if_pos hq]
          exact if_pos hinvalid
        · exact bestMaker_eq_none.mpr fun o ho hc => hnone o ho hc.1
      · have hvalid : (t : Int) ≠ kInvalidTick := by simp only [kInvalidTick]; omega
        have hcross := crosses_iff_accepts h.valid taker t
        by_cases haccepts : accepts taker.side (b.band.toPrice taker.limitTick) (b.band.toPrice t)
        · obtain ⟨b₁, fs₁, l₁, q₁, hrun₁, hsweeps₁, hrep₁, hemits₁, hprogress⟩ :=
            Rep.matchLevel _ b x taker (Nat.lt_succ_self _) hinv h hbest haccepts
          have hlt₁ := hprogress hex hq
          have hband₁ := hemits₁.band
          obtain ⟨b', fs, l', q', hrun, hsweeps, hsettled, hrep', hemits'⟩ :=
            ih b₁ _ { taker with quantity := q₁ }
              (by show q₁ < fuel; omega)
              (hband₁ ▸ IndexedBook.Inv.afterSweep hsweeps₁ rfl hinv) hrep₁
          rw [hband₁] at hsweeps hsettled
          refine ⟨b', fs₁ ++ fs, l', q', ?_, hsweeps₁.trans hsweeps, hsettled, ?_, ?_⟩
          · rw [BookCore.matchLoop, if_pos hq]
            simp only [ht, if_neg hvalid, if_pos (hcross.mpr haccepts), hrun₁, ok_bind]
            exact hrun
          · rw [IndexedBook.afterFills, List.foldl_append]
            exact hrep'
          · have hemits := hemits₁.trans hemits'
            rw [hemits₁.symbolId] at hemits
            simp only [tradeResponses, List.flatMap_append]
            exact hemits
        · -- the best price does not reach the limit
          refine ⟨b, [], _, taker.quantity, ?_, .done, Or.inr ?_, h, Emits.refl b⟩
          · rw [BookCore.matchLoop, if_pos hq]
            simp only [ht, if_neg hvalid, if_neg (fun hc => haccepts (hcross.mp hc))]
          · refine bestMaker_eq_none.mpr fun o ho hc => haccepts ?_
            have hrank := hbest o ho hc.1
            have hacc := hc.2
            unfold accepts
            unfold takerRank at hrank
            split at hacc <;> simp_all <;> omega
    · refine ⟨b, [], _, taker.quantity, ?_, .done, Or.inl (by omega), h, Emits.refl b⟩
      rw [BookCore.matchLoop, if_neg hq]

/-! ## 5. The two calls -/

/-- **The tail of `Add`**: the remainder joins the queue of its price and the index. -/
theorem Rep.rest (h : b.Rep addr x) (taker : TakerOrder) (price : Int)
    (hinv : IndexedBook.Inv b.band x) {quantity t : Nat} (hc : taker.clientId < kMaxNumClients)
    (ho : taker.clientOrderId < kMaxOrderIds) (hdir : taker.side.Directional)
    (hid : taker.marketOrderId = x.book.arrivals % kWord64) (htick : taker.limitTick = t)
    (ht : t < kTickCount) (hprice : price = b.band.toPrice t) (hpos : 0 < quantity)
    (hroom : x.book.resting.length < kMaxOrderIds)
    (hlast : ∀ o ∈ x.book.resting, o.arrival < x.book.arrivals) :
    ∃ b' addr', b.rest taker price quantity = .ok b' ∧
      b'.Rep addr' (x.rest taker.clientId taker.clientOrderId taker.side price quantity) ∧
      Emits b b' [] [⟨.add, b.symbolId, taker.marketOrderId, taker.side, price, quantity,
        (x.book.queued taker.side price + 1) % kWord64⟩] := by
  obtain ⟨a, l, pool, n, hadd, hn, hprio, hrep⟩ := h.push taker.clientId
    taker.clientOrderId quantity hdir ht hprice hroom hlast
    (fun c o y hix he => by
      obtain ⟨r, hr, harr, -⟩ := hinv.sound c o y hix
      exact absurd (hlast r hr) (by omega))
  obtain ⟨b₂, hindex, hrep₂, hemits, hpool⟩ := hrep.indexOrder x.book.arrivals hc ho
  rw [Function.update_self] at hindex
  rw [setSide_orderPool] at hpool
  refine ⟨_, _, ?_, hrep₂.sendMarketUpdate ⟨.add, b₂.symbolId, taker.marketOrderId, taker.side,
    price, quantity, n.priority⟩, ?_⟩
  · unfold BookCore.rest
    rw [if_pos hpos, htick, hid, hadd]
    simp only [ok_bind, hindex, hpool, MemPool.deref_some hn]
  · rw [hprio, hemits.symbolId, setSide_symbolId]
    exact (Emits.setSide.trans hemits).trans (.update _)

/-- **`Add` up to its tail**: the order is accepted and trades. -/
theorem Rep.enter (hinv : IndexedBook.Inv b.band x) (h : b.Rep addr x)
    (clientId clientOrderId quantity : Nat) (side : Side) {price : Int}
    (hband : b.band.InBand price) :
    ∃ b', b.add clientId clientOrderId side price quantity =
        b'.rest ⟨clientId, clientOrderId, b.nextMarketOrderId, side, b.band.toTick price, quantity⟩
          price (x.book.left side price quantity) ∧
      b'.Rep addr (x.traded side price quantity) ∧
      Emits b b' (x.book.addResponses b.symbolId clientId clientOrderId side price quantity)
        ((x.book.fills side price quantity).flatMap (Fill.updates b.symbolId)) := by
  obtain ⟨t, -, htick, hprice⟩ := PriceBand.toTick_of_inBand h.valid hband
  let r : MatchingEngineClientResponse := ⟨.accepted, clientId, b.symbolId, clientOrderId,
    b.nextMarketOrderId, side, price, 0, quantity⟩
  let taker : TakerOrder :=
    ⟨clientId, clientOrderId, b.nextMarketOrderId, side, b.band.toTick price, quantity⟩
  -- the order is counted and accepted
  let b₀ : BookCore := { b with nextMarketOrderId := add64 b.nextMarketOrderId 1 }
  let b₁ := b₀.sendClientResponse r
  have hemits₁ : Emits b b₁ [r] [] := ⟨rfl, rfl, rfl, (List.append_nil _).symm⟩
  have hrep₁ : b₁.Rep addr x.accepted := ⟨h.valid, h.pool, h.capacity, h.node, h.side, h.levels,
    h.nextPriority, h.index, by
      change add64 b.nextMarketOrderId 1 = _
      rw [h.counter, add64_mod]; rfl⟩
  -- it trades
  obtain ⟨b₂, fs, l', q', hrun, hsweeps, hsettled, hrep₂, hemits₂⟩ :=
    Rep.matchLoop _ b₁ x.accepted taker (Nat.lt_succ_self quantity) hinv.accepted hrep₁
  have hlimit : b₁.band.toPrice taker.limitTick = price := by
    change b.band.toPrice (b.band.toTick price) = price
    rw [htick, hprice]
  rw [hlimit] at hsweeps hsettled
  have hsweep : sweep side price x.book.resting quantity = (fs, l', q') := hsweeps.eq_sweep hsettled
  have hfills : x.book.fills side price quantity = fs := congrArg Prod.fst hsweep
  have hleft : x.book.left side price quantity = q' := congrArg (·.2.2) hsweep
  have htraded : x.accepted.afterFills fs l' = x.traded side price quantity := by
    rw [IndexedBook.traded, hfills, hsweep]
  have hmatch : b₁.matchTaker taker = .ok (b₂, q') := by
    rw [matchTaker]
    exact congrArg (· >>= _) hrun
  have hresponses : [r] ++ tradeResponses b₁.symbolId taker fs =
      x.book.addResponses b.symbolId clientId clientOrderId side price quantity := by
    rw [ListBook.addResponses, hfills, ← h.counter]
    rfl
  refine ⟨b₂, ?_, htraded ▸ hrep₂, ?_⟩
  · change b₁.matchTaker taker >>= (fun p => p.1.rest taker price p.2) = _
    rw [hmatch, hleft]
    rfl
  · rw [← hresponses, hfills]
    exact hemits₁.trans hemits₂

/-- **`Add`**, as long as the remainder finds room in the pool. -/
theorem Rep.add (hinv : IndexedBook.Inv b.band x) (h : b.Rep addr x)
    {clientId clientOrderId quantity : Nat} {side : Side} {price : Int}
    (hdoc : (BookCall.add clientId clientOrderId side price quantity).Documented b.band)
    (hroom : (x.step (.add clientId clientOrderId side price quantity)).book.resting.length ≤
      kMaxOrderIds) :
    ∃ b' addr', b.add clientId clientOrderId side price quantity = .ok b' ∧
      b'.Rep addr' (x.step (.add clientId clientOrderId side price quantity)) ∧
      Emits b b' (x.book.addResponses b.symbolId clientId clientOrderId side price quantity)
        (x.book.addUpdates b.symbolId side price quantity) := by
  obtain ⟨hc, ho, hdir, hband, -⟩ := hdoc
  obtain ⟨t, ht, htick, hprice⟩ := PriceBand.toTick_of_inBand h.valid hband
  obtain ⟨b₂, hadd, hrep₂, hemits₂⟩ := h.enter hinv clientId clientOrderId quantity side hband
  rw [IndexedBook.step_add] at hroom
  rw [hadd, IndexedBook.step_add, ListBook.addUpdates]
  by_cases hz : x.book.left side price quantity = 0
  · refine ⟨b₂, addr, ?_, ?_, ?_⟩
    · simp [BookCore.rest, hz]
    · rw [if_pos hz]; exact hrep₂
    · rw [if_pos hz, List.append_nil]; exact hemits₂
  · rw [if_neg hz] at hroom ⊢
    have hroom' : (x.traded side price quantity).book.resting.length + 1 ≤ kMaxOrderIds := by
      simpa [IndexedBook.rest, ListBook.rest] using hroom
    have hband₂ : b₂.band = b.band := hemits₂.band
    obtain ⟨b', addr', hrest, hrep', hemits'⟩ := hrep₂.rest
      ⟨clientId, clientOrderId, b.nextMarketOrderId, side, b.band.toTick price, quantity⟩ price
      (hband₂ ▸ hinv.traded side price quantity) hc ho hdir h.counter htick ht (hband₂ ▸ hprice)
      (Nat.pos_of_ne_zero hz) hroom' (hinv.traded_lt side price quantity)
    refine ⟨b', addr', hrest, hrep', ?_⟩
    have hemits := hemits₂.trans hemits'
    rw [List.append_nil, hemits₂.symbolId, h.counter] at hemits
    rw [if_neg hz]
    exact hemits

/-- **Without room in the pool** the remainder stops the process. -/
theorem Rep.add_full (hinv : IndexedBook.Inv b.band x) (h : b.Rep addr x)
    {clientId clientOrderId quantity : Nat} {side : Side} {price : Int}
    (hdoc : (BookCall.add clientId clientOrderId side price quantity).Documented b.band)
    (hfull : kMaxOrderIds <
      (x.step (.add clientId clientOrderId side price quantity)).book.resting.length) :
    b.add clientId clientOrderId side price quantity =
      .error (.assertion "Memory pool exhausted") := by
  obtain ⟨-, -, hdir, hband, -⟩ := hdoc
  obtain ⟨t, ht, htick, hprice⟩ := PriceBand.toTick_of_inBand h.valid hband
  obtain ⟨b₂, hadd, hrep₂, -⟩ := h.enter hinv clientId clientOrderId quantity side hband
  have hle := hrep₂.pool.length_le
  rw [hrep₂.capacity, slots, List.length_map] at hle
  rw [IndexedBook.step_add] at hfull
  by_cases hz : x.book.left side price quantity = 0
  · rw [if_pos hz] at hfull
    omega
  · rw [if_neg hz, IndexedBook.rest, ListBook.rest] at hfull
    simp only [List.length_append, List.length_singleton] at hfull
    have hlen : (slots addr (x.traded side price quantity).book.resting).length =
        b₂.orderPool.capacity := by
      rw [hrep₂.capacity, slots, List.length_map]
      omega
    rw [hadd, BookCore.rest, if_pos (Nat.pos_of_ne_zero hz), htick,
      PriceLevels.addOrder_full _ _ _ _ hrep₂.pool ht hlen]
    rfl

/-- **`Cancel`**. -/
theorem Rep.cancel (hinv : IndexedBook.Inv b.band x) (h : b.Rep addr x)
    {clientId clientOrderId : Nat} (hc : clientId < kMaxNumClients)
    (ho : clientOrderId < kMaxOrderIds) :
    ∃ b', b.cancel clientId clientOrderId = .ok b' ∧
      b'.Rep addr (x.step (.cancel clientId clientOrderId)) ∧
      Emits b b'
        (ListBook.cancelResponses b.symbolId clientId clientOrderId (x.find clientId clientOrderId))
        (ListBook.cancelUpdates b.symbolId (x.find clientId clientOrderId)) := by
  have hfind := h.index clientId clientOrderId hc ho
  cases hf : x.find clientId clientOrderId with
  | none =>
    rw [hinv.find_none hf, Option.map_none] at hfind
    rw [hinv.step_cancel_none hf]
    refine ⟨_, ?_, h.sendClientResponse _, Emits.response _⟩
    simp only [BookCore.cancel, hfind, ok_bind]
  | some m =>
    obtain ⟨hm, hix, hkey⟩ := hinv.find_some hf
    rw [hix, Option.map_some] at hfind
    have hdir := hinv.orderly.sides m hm
    obtain ⟨t, -, hprice⟩ := Rep.exists_tick hinv h.valid hm
    obtain ⟨n, hn, hstored⟩ := h.node m hm
    -- the node's level gives the side and the price of the order
    have hlevel : n.level = some ⟨m.side, t⟩ := by
      obtain ⟨n', hn', hl⟩ := ((h.levels _ hdir).level t).owned (addr m.arrival)
        (mem_queueAt.mpr ⟨m, hm, ⟨rfl, hprice⟩, rfl⟩)
      rw [hn] at hn'
      rw [Option.some.inj hn', hl, h.side _ hdir]
    have ht : t < kTickCount := (h.levels _ hdir).lt_tickCount
      (mem_queueAt.mpr ⟨m, hm, ⟨rfl, hprice⟩, rfl⟩)
    have hside : (if b.bids.owns ⟨m.side, t⟩ then Side.buy else Side.sell) = m.side := by
      have hbids : b.bids.side = .buy := h.side .buy (Or.inl rfl)
      rcases hdir with hs | hs <;> simp [PriceLevels.owns, hbids, hs, ht]
    let r : MatchingEngineClientResponse := ⟨.canceled, clientId, b.symbolId, clientOrderId,
      m.marketOrderId, m.side, m.price, 0, m.quantity⟩
    let u : MatchingEngineMarketUpdate :=
      ⟨.cancel, b.symbolId, m.marketOrderId, m.side, m.price, 0, 0⟩
    obtain ⟨b₁, hunindex, hrep₁, hemits₁⟩ :=
      ((h.sendClientResponse r).sendMarketUpdate u).unindexOrder hc ho
    have hband₁ : b₁.band = b.band := hemits₁.band
    obtain ⟨l, pool, hremove, hrep'⟩ := hrep₁.remove hinv.orderly.arrivals hm hdir
      (hband₁ ▸ hprice)
    refine ⟨b₁.setSide m.side l pool, ?_, ?_, ?_⟩
    · unfold BookCore.cancel
      simp only [hfind, ok_bind, MemPool.deref_some hn, hlevel, hside, hstored.marketOrderId,
        hstored.remainingQuantity, PriceLevels.indexOf, ← hprice]
      simp only [r, u] at hunindex
      simp only [sendClientResponse_symbolId, hunindex, ok_bind, hremove]
    · simp only [IndexedBook.step, hf, ListBook.remove]
      exact hrep'
    · exact (((Emits.response r).trans (.update u)).trans hemits₁).trans .setSide

/-- **One documented call**, as long as the pool has room. -/
theorem apply_sim (hinv : IndexedBook.Inv b.band x) (h : b.Rep addr x) {call : BookCall}
    (hdoc : call.Documented b.band)
    (hroom : (x.step call).book.resting.length ≤ kMaxOrderIds) :
    ∃ b' addr', b.apply call = .ok b' ∧ b'.Rep addr' (x.step call) ∧
      Emits b b' (x.responses b.symbolId call) (x.updates b.symbolId call) := by
  cases call with
  | add clientId clientOrderId side price quantity => exact h.add hinv hdoc hroom
  | cancel clientId clientOrderId =>
    obtain ⟨b', hcancel, hrep, hemits⟩ := h.cancel hinv hdoc.1 hdoc.2
    exact ⟨b', addr, hcancel, hrep, hemits⟩

/-- A cancel leaves no more orders than the pool holds. -/
theorem Rep.cancel_room (hinv : IndexedBook.Inv b.band x) (h : b.Rep addr x)
    (clientId clientOrderId : Nat) :
    (x.step (.cancel clientId clientOrderId)).book.resting.length ≤ kMaxOrderIds := by
  have hle := h.pool.length_le
  rw [h.capacity, slots, List.length_map] at hle
  refine le_trans ?_ hle
  cases hf : x.find clientId clientOrderId with
  | none => rw [hinv.step_cancel_none hf]
  | some m =>
    simp only [IndexedBook.step, hf, ListBook.remove]
    exact List.length_filter_le _ _

/-- **One documented call without room in the pool** stops the process. -/
theorem apply_full (hinv : IndexedBook.Inv b.band x) (h : b.Rep addr x) {call : BookCall}
    (hdoc : call.Documented b.band) (hfull : kMaxOrderIds < (x.step call).book.resting.length) :
    b.apply call = .error (.assertion "Memory pool exhausted") := by
  cases call with
  | add clientId clientOrderId side price quantity => exact h.add_full hinv hdoc hfull
  | cancel clientId clientOrderId =>
    exact absurd (h.cancel_room hinv clientId clientOrderId) (Nat.not_le.mpr hfull)

/-- **A documented call that returns had room.** -/
theorem room_of_apply (hinv : IndexedBook.Inv b.band x) (h : b.Rep addr x) {call : BookCall}
    (hdoc : call.Documented b.band) {b' : BookCore} (happly : b.apply call = .ok b') :
    (x.step call).book.resting.length ≤ kMaxOrderIds := by
  by_contra hfull
  rw [apply_full hinv h hdoc (Nat.lt_of_not_le hfull)] at happly
  cases happly

end BookCore

end YQuant
