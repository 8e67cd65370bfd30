/-
# The market is never locked or crossed

A reader replays the updates of a book as they come, and may stop in the middle of a call.
`Covered` ties what it sees to the orders of the book: every order it sees stands for one of them
at the same side and price.  Ids need not be fresh for that, so nothing is asked of the number of
orders: an update that names an id twice in use removes too much from the replayed book, never too
little.

The makers of a call leave before its remainder is announced, and the remainder crosses none of the
orders that are left then; so the replayed book is uncrossed after every single update
(`never_crossed`).

The two halves are different in kind.  For the book it is an invariant of calls: after a call
nothing of the taker is left that could still trade.  For the reader it is a statement about
prefixes, and a prefix may end between a trade and what becomes of its maker; the maker is then
still there, and its taker is not yet.

Equal prices count as crossed: a bid at the price of an offer is not left standing.
-/
import YQuant.MarketData.Stream

namespace YQuant

/-- Every bid is strictly below every ask. -/
def Uncrossed (l : List LiveOrder) : Prop :=
  ∀ o ∈ l, ∀ o' ∈ l, o.side = .buy → o'.side = .sell → o.price < o'.price

/-- Every replayed order stands for an order of the book. -/
def Covered (l : List LiveOrder) (resting : List Resting) : Prop :=
  ∀ o ∈ l, ∃ r ∈ resting, r.marketOrderId = o.orderId ∧ r.side = o.side ∧ r.price = o.price

section Replay

variable {band : PriceBand} {l : List LiveOrder} {resting : List Resting} {m : Resting}

theorem Covered.uncrossed (h : Covered l resting) (ho : Orderly band resting) : Uncrossed l := by
  intro o hl o' hl' hbuy hsell
  obtain ⟨r, hr, -, hside, hprice⟩ := h o hl
  obtain ⟨r', hr', -, hside', hprice'⟩ := h o' hl'
  rw [← hprice, ← hprice']
  exact ho.uncrossed r hr r' hr' (hside.trans hbuy) (hside'.trans hsell)

/-- An id that leaves takes its order along. -/
theorem Covered.without (h : Covered l resting) :
    Covered (l.filter fun o => o.orderId ≠ m.marketOrderId) (without resting m) := by
  intro o ho
  obtain ⟨hl, hne⟩ := List.mem_filter.mp ho
  obtain ⟨r, hr, hid, hside, hprice⟩ := h o hl
  refine ⟨r, List.mem_filter.mpr ⟨hr, ?_⟩, hid, hside, hprice⟩
  rw [decide_eq_true_eq] at hne ⊢
  intro harrival
  exact hne (hid.symm.trans (congrArg (· % kWord64) harrival))

theorem Covered.reduce {id quantity e : Nat} (h : Covered l resting) :
    Covered (l.map fun o => if o.orderId = id then { o with quantity := quantity } else o)
      (reduce resting m e) := by
  intro o ho
  obtain ⟨o₂, hl, rfl⟩ := List.mem_map.mp ho
  obtain ⟨r, hr, hid, hside, hprice⟩ := h o₂ hl
  refine ⟨_, List.mem_map.mpr ⟨r, hr, rfl⟩, ?_⟩
  split <;> split <;> exact ⟨hid, hside, hprice⟩

theorem Covered.snoc (h : Covered l resting) (quantity priority : Nat) :
    Covered (l ++ [⟨m.marketOrderId, m.side, m.price, quantity, priority⟩]) (resting ++ [m]) := by
  intro o ho
  rcases List.mem_append.mp ho with hl | hl
  · obtain ⟨r, hr, hr'⟩ := h o hl
    exact ⟨r, List.mem_append_left _ hr, hr'⟩
  · rw [List.mem_singleton.mp hl]
    exact ⟨m, List.mem_append_right _ List.mem_cons_self, rfl, rfl, rfl⟩

/-- **The updates of one trade.** -/
theorem Covered.fill (symbolId left : Nat) (hl : Orderly band resting) (h : Covered l resting)
    (hm : m ∈ resting) {e : Nat} (he : e ≤ m.quantity) :
    Run.AlongRun replay (fun l u => Uncrossed (replay l u)) l (Fill.updates symbolId ⟨m, e, left⟩) ∧
      Covered ((Fill.updates symbolId ⟨m, e, left⟩).foldl replay l) (takeFrom resting m e) := by
  unfold Fill.updates
  have hnext := hl.takeFrom hm he
  unfold takeFrom at hnext ⊢
  by_cases hex : e = m.quantity
  · simp only [if_pos hex] at hnext ⊢
    exact ⟨⟨h.uncrossed hl, h.without.uncrossed hnext, trivial⟩, h.without⟩
  · simp only [if_neg hex] at hnext ⊢
    exact ⟨⟨h.uncrossed hl, h.reduce.uncrossed hnext, trivial⟩, h.reduce⟩

/-- **The updates of a run of trades.** -/
theorem Sweeps.covered {side : Side} {limit : Int} {l₁ l₂ : List Resting} {q q' : Nat}
    {fs : List Fill} (symbolId : Nat) (hs : Sweeps side limit l₁ q fs l₂ q')
    (hl : Orderly band l₁) (h : Covered l l₁) :
    Run.AlongRun replay (fun l u => Uncrossed (replay l u)) l
        (fs.flatMap (Fill.updates symbolId)) ∧
      Covered ((fs.flatMap (Fill.updates symbolId)).foldl replay l) l₂ := by
  induction hs generalizing l with
  | done => exact ⟨trivial, h⟩
  | @trade l₁ l₂ q q' m fs hq hm _ ih =>
    have hmem := (bestMaker_mem hm).1
    obtain ⟨hfirst, h'⟩ :=
      h.fill symbolId (q - min q m.quantity) hl hmem (min_le_right q m.quantity)
    obtain ⟨hrest, h''⟩ := ih (hl.takeFrom hmem (min_le_right _ _)) h'
    rw [List.flatMap_cons, Run.alongRun_append, List.foldl_append]
    exact ⟨⟨hfirst, hrest⟩, h''⟩

end Replay

namespace IndexedBook

variable {band : PriceBand} {x : IndexedBook} {l : List LiveOrder}

/-- **The updates of one call**, each on its own. -/
theorem Inv.call_covered (symbolId : Nat) (h : Inv band x) (hcov : Covered l x.book.resting)
    {call : BookCall} (hdoc : call.Documented band) :
    Run.AlongRun replay (fun l u => Uncrossed (replay l u)) l (x.updates symbolId call) ∧
      Covered ((x.updates symbolId call).foldl replay l) (x.step call).book.resting := by
  have hnext := h.step hdoc
  cases call with
  | add clientId clientOrderId side price quantity =>
    obtain ⟨htrades, hcov'⟩ := (sweep_sweeps side price x.book.resting quantity).covered symbolId
      h.orderly hcov
    rw [step_add] at hnext ⊢
    have hupdates : x.updates symbolId (.add clientId clientOrderId side price quantity) =
        (sweep side price x.book.resting quantity).1.flatMap (Fill.updates symbolId) ++
          if x.book.left side price quantity = 0 then [] else
            [⟨.add, symbolId, (x.book.arrivals + 1) % kWord64, side, price,
              x.book.left side price quantity,
              ((x.book.traded side price quantity).queued side price + 1) % kWord64⟩] := rfl
    rw [hupdates, Run.alongRun_append, List.foldl_append]
    by_cases hleft : x.book.left side price quantity = 0
    · rw [if_pos hleft, if_pos hleft]
      exact ⟨⟨htrades, trivial⟩, hcov'⟩
    · -- the remainder crosses nothing that is left
      rw [if_neg hleft] at hnext
      rw [if_neg hleft, if_neg hleft]
      have hrest : Covered _ ((x.traded side price quantity).rest clientId clientOrderId side price
          (x.book.left side price quantity)).book.resting :=
        hcov'.snoc (x.book.left side price quantity)
          (((x.book.traded side price quantity).queued side price + 1) % kWord64)
      exact ⟨⟨htrades, hrest.uncrossed hnext.orderly, trivial⟩, hrest⟩
  | cancel clientId clientOrderId =>
    cases hf : x.find clientId clientOrderId with
    | none =>
      rw [h.step_cancel_none hf]
      simp only [updates, hf, ListBook.cancelUpdates]
      exact ⟨trivial, hcov⟩
    | some m =>
      simp only [updates, IndexedBook.step, hf, ListBook.cancelUpdates, ListBook.remove]
      have hcov' : Covered _ (without x.book.resting m) := hcov.without
      exact ⟨⟨hcov'.uncrossed (h.orderly.filter _), trivial⟩, hcov'⟩

/-- **The updates of a run of documented calls.** -/
theorem Inv.run_covered (symbolId : Nat) :
    ∀ {calls : List BookCall} {x : IndexedBook} {l : List LiveOrder}, Inv band x →
      Covered l x.book.resting → (∀ call ∈ calls, call.Documented band) →
      Run.AlongRun replay (fun l u => Uncrossed (replay l u)) l
        (Run.outputs IndexedBook.step (updates symbolId) x calls)
  | [], _, _, _, _, _ => trivial
  | call :: calls, x, l, h, hcov, hdoc => by
    have hd := hdoc call List.mem_cons_self
    obtain ⟨hcall, hcov'⟩ := h.call_covered symbolId hcov hd
    rw [Run.outputs_cons, Run.alongRun_append]
    exact ⟨hcall, run_covered symbolId (h.step hd) hcov'
      fun c hc => hdoc c (List.mem_cons_of_mem _ hc)⟩

end IndexedBook

namespace BookCore

/-- The best bid tick is strictly below the best ask tick, when there are both. -/
def BestTicksApart (b : BookCore) : Prop :=
  b.bids.bestTick ≠ kInvalidTick → b.asks.bestTick ≠ kInvalidTick →
    b.bids.bestTick < b.asks.bestTick

/-- A best tick is the tick of a resting order. -/
theorem Rep.exists_best {b : BookCore} {addr : Nat → Nat} {x : IndexedBook} (h : b.Rep addr x)
    {side : Side} (hs : side.Directional) (hbest : (b.levels side).bestTick ≠ kInvalidTick) :
    ∃ t : Nat, (b.levels side).bestTick = t ∧
      ∃ o ∈ x.book.resting, o.At side (b.band.toPrice t) := by
  rcases (h.levels side hs).best with ⟨hnone, -⟩ | ⟨t, ht, hq, -⟩
  · exact absurd hnone hbest
  · obtain ⟨a, ha⟩ := List.exists_mem_of_ne_nil _ hq
    obtain ⟨o, ho, hat, -⟩ := mem_queueAt.mp ha
    exact ⟨t, ht, o, ho, hat⟩

theorem Rep.bestTicksApart {b : BookCore} {addr : Nat → Nat} {x : IndexedBook} (h : b.Rep addr x)
    (hinv : IndexedBook.Inv b.band x) : b.BestTicksApart := by
  intro hbid hask
  obtain ⟨t, ht, o, ho, hside, hprice⟩ := h.exists_best (.inl rfl : Side.buy.Directional) hbid
  obtain ⟨t', ht', o', ho', hside', hprice'⟩ :=
    h.exists_best (.inr rfl : Side.sell.Directional) hask
  have hlt := hinv.orderly.uncrossed o ho o' ho' hside hside'
  rw [hprice, hprice'] at hlt
  have hbids : b.bids.bestTick = t := ht
  have hasks : b.asks.bestTick = t' := ht'
  rw [hbids, hasks]
  by_contra hle
  have hmono : b.band.toPrice t' ≤ b.band.toPrice t :=
    (PriceBand.toPrice_le_iff h.valid).mpr (Int.not_lt.mp hle)
  omega

/-- **The market is never locked or crossed**: not in the book after any call, and not in the book
that is replayed from any prefix of its updates, in the middle of a call included.  A taker's
remainder is announced after the makers that it met, and what it did not meet is out of its reach.
Nothing is asked of the number of orders: an update that names an id twice in use removes too much
from the replayed book, never too little (`Covered`). -/
theorem never_crossed (symbolId : Nat) {band : PriceBand} {calls : List BookCall} {b : BookCore}
    (hband : band.isValid = true) (hdoc : ∀ call ∈ calls, call.Documented band)
    (hrun : run symbolId band calls = .ok b) :
    b.BestTicksApart ∧ ∀ us, us <+: b.outgoingMarketUpdates → Uncrossed (us.foldl replay []) := by
  obtain ⟨b₂, hrun₂, hsim, -, hupdates⟩ := run_sim symbolId hband (admits_of_run hband hdoc hrun)
  obtain rfl := Except.ok.inj (hrun.symm.trans hrun₂)
  obtain ⟨addr, hrep⟩ := hsim.rep
  have hinv := hsim.inv
  rw [← hsim.band] at hinv
  refine ⟨hrep.bestTicksApart hinv, ?_⟩
  have halong := IndexedBook.Inv.empty.run_covered (l := []) symbolId
    (fun o ho => absurd ho List.not_mem_nil) hdoc
  rw [← hupdates] at halong
  rintro us ⟨rest, hrest⟩
  rw [← hrest, Run.alongRun_append] at halong
  exact halong.1.inv (I := Uncrossed) (fun _ _ _ hu => hu) fun o ho => absurd ho List.not_mem_nil

/-- A taker sweeps two makers and rests at the price of the second. -/
theorem never_crossed_sweep :
    ∃ b, run 0 kDefaultPriceBand [.add 1 1 .sell 10 5, .add 2 1 .sell 11 5, .add 3 1 .buy 11 12]
        = .ok b ∧ b.BestTicksApart ∧
      ∀ us, us <+: b.outgoingMarketUpdates → Uncrossed (us.foldl replay []) := by
  have hband : kDefaultPriceBand.isValid = true := by decide
  have hdoc : ∀ call ∈ [BookCall.add 1 1 .sell 10 5, .add 2 1 .sell 11 5, .add 3 1 .buy 11 12],
      call.Documented kDefaultPriceBand := by decide
  obtain ⟨b, -, hrun, -⟩ := run_published 0 hband hdoc (by decide)
  exact ⟨b, hrun, never_crossed 0 hband hdoc hrun⟩

end BookCore

end YQuant
