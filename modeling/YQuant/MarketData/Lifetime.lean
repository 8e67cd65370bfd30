/-
# How long the exchange can run

Market order ids are drawn from a counter that only grows, also for orders that never rest, and the
readers of the updates index tables of `kMaxOrderIds` places by them.  As long as no order comes to
rest under an id past the tables, no pool of a book is exhausted and every update can be applied by
the book of a client; the snapshot synthesizer, whose one pool serves all symbols, needs in addition
that never more than `kMaxOrderIds` orders rest in all books together (`runs_while_ids_fit`).

Nothing stops the counter before that: an order that is entered and cancelled again and again ends
with an update that no reader can apply (`not_runs_for_ever`).

Both results look at ids and not at time.  A market that trades everything it is offered could go
on for ever by the first one, as orders that are used up at once may have any id; the second one
shows that an order need not stay for long to do harm.  An id past the tables is an exception at
every reader, in whatever state it is, so no reader can be written around it.

The synthesizer's pool can be exhausted much earlier: it takes two symbols with half of
`kMaxOrderIds` orders each and one more.
-/
import Mathlib.Algebra.Order.BigOperators.Group.List
import YQuant.MarketData.SnapshotMirror

namespace YQuant

/-! ## 1. The number of live orders along the updates -/

theorem length_replay_le {u : MatchingEngineMarketUpdate} (htype : u.type ≠ .add)
    (l : List LiveOrder) : (replay l u).length ≤ l.length := by
  unfold replay
  cases h : u.type with
  | add => exact absurd h htype
  | modify => exact (List.length_map _).le
  | cancel => exact List.length_filter_le _ _
  | clear => exact Nat.zero_le _
  | invalid | trade | snapshotStart | snapshotEnd | other => exact le_rfl

theorem total_replayMarket_le {u : MatchingEngineMarketUpdate} (htype : u.type ≠ .add)
    (M : Market) : (replayMarket M u).total ≤ M.total := by
  refine List.sum_le_sum fun s _ => ?_
  rcases eq_or_ne s u.symbolId with rfl | hne
  · rw [replayMarket, Function.update_self]
    exact length_replay_le htype _
  · rw [replayMarket, Function.update_of_ne hne]

theorem total_foldl_le {us : List MatchingEngineMarketUpdate} (hus : ∀ u ∈ us, u.type ≠ .add)
    (M : Market) : (us.foldl replayMarket M).total ≤ M.total := by
  induction us generalizing M with
  | nil => exact le_rfl
  | cons u us ih =>
    exact (ih (fun v hv => hus v (List.mem_cons_of_mem u hv)) _).trans
      (total_replayMarket_le (hus u List.mem_cons_self) M)

/-- **Only the last update of a call adds an order.** -/
theorem IndexedBook.updates_split (symbolId : Nat) (x : IndexedBook) (call : BookCall) :
    ∃ us us', x.updates symbolId call = us ++ us' ∧ (∀ u ∈ us, u.type ≠ .add) ∧
      us'.length ≤ 1 := by
  cases call with
  | add clientId clientOrderId side price quantity =>
    refine ⟨_, _, rfl, fun u hu => ?_, ?_⟩
    · obtain ⟨f, -, hu⟩ := List.mem_flatMap.mp hu
      rcases List.mem_cons.mp hu with rfl | hu
      · intro h
        cases h
      · rw [List.mem_singleton.mp hu]
        split <;> intro h <;> cases h
    · split
      · exact Nat.zero_le 1
      · exact le_rfl
  | cancel clientId clientOrderId =>
    refine ⟨x.updates symbolId (.cancel clientId clientOrderId), [], (List.append_nil _).symm,
      fun u hu => ?_, Nat.zero_le 1⟩
    simp only [updates, ListBook.cancelUpdates] at hu
    split at hu
    · cases hu
    · rw [List.mem_singleton.mp hu]
      intro h
      cases h

namespace IndexedBooks

variable {xs : IndexedBooks} {r : MatchingEngineClientRequest}
  {rs : List MatchingEngineClientRequest}

/-- Not more orders rest in all books together than the pool of the synthesizer holds. -/
def Room (xs : IndexedBooks) : Prop := xs.live.total ≤ kMaxOrderIds

instance (xs : IndexedBooks) : Decidable xs.Room := inferInstanceAs (Decidable (_ ≤ _))

/-- In the middle of a call there are not more live orders than before or after it. -/
theorem updates_room {M : Market} {k : Nat} (hM : M.total ≤ k)
    (hend : ((xs.updates r).foldl replayMarket M).total ≤ k) :
    ∀ vs, vs <+: xs.updates r → (vs.foldl replayMarket M).total ≤ k := by
  obtain ⟨us, us', hsplit, hus, hlast⟩ : ∃ us us', xs.updates r = us ++ us' ∧
      (∀ u ∈ us, u.type ≠ .add) ∧ us'.length ≤ 1 := by
    unfold updates
    split
    · exact ⟨[], [], rfl, fun u hu => absurd hu List.not_mem_nil, Nat.zero_le 1⟩
    · exact IndexedBook.updates_split _ _ _
  rw [hsplit] at hend ⊢
  have hbefore : ∀ vs, vs <+: us → (vs.foldl replayMarket M).total ≤ k := fun vs hvs =>
    (total_foldl_le (fun v hv => hus v (hvs.subset hv)) M).trans hM
  intro vs hvs
  match us', hlast with
  | [], _ =>
    rw [List.append_nil] at hvs
    exact hbefore vs hvs
  | [u], _ =>
    rcases List.prefix_concat_iff.mp hvs with rfl | hvs
    · exact hend
    · exact hbefore vs hvs

/-- And not along a whole run. -/
theorem outputs_room :
    ∀ {rs : List MatchingEngineClientRequest} {xs : IndexedBooks}, Inv xs →
      (∀ r ∈ rs, r.Documented) → xs.Small →
      Run.AlongRun step (fun xs r => (xs.step r).Small) xs rs → xs.Room →
      Run.AlongRun step (fun xs r => (xs.step r).Room) xs rs →
      ∀ vs, vs <+: Run.outputs step updates xs rs →
        (vs.foldl replayMarket xs.live).total ≤ kMaxOrderIds
  | [], xs, _, _, _, _, hroom, _, vs, hvs => by
    rw [List.prefix_nil.mp hvs]
    exact hroom
  | r :: rs, xs, h, hdoc, hsmall, halong, hroom, hroomAlong, vs, hvs => by
    have hr := hdoc r List.mem_cons_self
    obtain ⟨-, -, hfold⟩ := h.request_of_small hr hsmall halong.1
    rcases List.prefix_or_prefix_of_prefix hvs (List.prefix_append (xs.updates r) _) with hv | hv
    · refine updates_room hroom ?_ vs hv
      rw [hfold]
      exact hroomAlong.1
    · obtain ⟨ws, rfl⟩ := hv
      rw [List.foldl_append, hfold]
      exact outputs_room (h.next hr) (fun r' hr' => hdoc r' (List.mem_cons_of_mem _ hr')) halong.1
        halong.2 hroomAlong.1 hroomAlong.2 ws ((List.prefix_append_right_inj _).mp hvs)

/-! ## 2. Runs that keep the ids small -/

/-- **As long as the ids fit the tables**, nothing runs out, and every update can be applied.  The
condition is asked of the orders that rest after each request: an order that is used up at once may
have any id.  The synthesizer has one pool for all symbols, so it needs in addition that the orders
of all books together fit (`Room`).  Nothing in the code keeps the ids small, and without the
condition a run does come to an end (`not_runs_for_ever`). -/
theorem runs_while_ids_fit (requests : List MatchingEngineClientRequest)
    (hdoc : ∀ r ∈ requests, r.Documented)
    (hsmall : Run.AlongRun step (fun xs r => (xs.step r).Small) .empty requests) :
    ∃ m, MatchingEngine.run requests = .ok m ∧ m.Simulates (requests.foldl step .empty) ∧
      (∀ symbol, symbol < kMaxSymbols → ∃ book,
        (m.outgoingMarketUpdates.filter fun u => u.symbolId = symbol).foldlM
          MarketOrderBook.onMarketUpdate .init = .ok book ∧
        book.orderPool.inUse = (requests.foldl step .empty symbol).book.resting.length) ∧
      (Run.AlongRun step (fun xs r => (xs.step r).Room) .empty requests →
        ∃ s, (MarketDataPublisher.run m.outgoingMarketUpdates).snapshotMdUpdates.foldlM
            SnapshotSynthesizer.addToSnapshot .init = .ok s ∧
          s.orderPool.inUse = (requests.foldl step .empty).live.total) := by
  have hempty : IndexedBooks.empty.Small := fun s _ o ho => absurd ho List.not_mem_nil
  obtain ⟨hadmits, hpub, hfold⟩ := Inv.empty.run_published_of_small hdoc hempty hsmall
  obtain ⟨m, hrun, hsim, -, hout⟩ := MatchingEngine.run_sim hadmits
  refine ⟨m, hrun, hsim, fun symbol _ => ?_, fun hroom => ?_⟩
  · have happ := applicable_of_published (Consistent.nil _) (published_at symbol hpub)
    obtain ⟨book, addr, ladder, hbook, hmirrors, -⟩ :=
      (MarketOrderBook.mirrors_init id).foldlM MarketOrderBook.shows_init happ
    have hlive : (requests.foldl step .empty).live symbol =
        ((Run.outputs step updates .empty requests).filter fun u => u.symbolId = symbol).foldl
          replay
          (IndexedBooks.empty.live symbol) := by
      rw [← hfold]
      exact foldl_replayMarket_at symbol
    refine ⟨book, by rw [hout]; exact hbook, ?_⟩
    rw [hmirrors.orders.pool.inUse, List.length_map, ← List.length_map Resting.live]
    exact congrArg List.length hlive.symm
  · obtain ⟨s, addr, hs, hmirrors⟩ := (SnapshotSynthesizer.mirrors_init fun _ => id).foldlM hpub
      (outputs_room Inv.empty hdoc hempty hsmall (by decide) hroom)
    refine ⟨s, by rw [(run_publish _).2, hout]; exact hs, ?_⟩
    rw [hmirrors.pool.inUse, length_liveSlots, ← hfold]
    rfl

/-- Two symbols, a trade and a cancel. -/
theorem runs_while_ids_fit_two_symbols :
    ∃ m, MatchingEngine.run [⟨.new, 1, 0, 1, .sell, 105, 10⟩, ⟨.new, 1, 3, 2, .buy, 7, 4⟩,
        ⟨.new, 2, 0, 1, .buy, 106, 3⟩, ⟨.canceled, 1, 3, 2, .unset, 0, 0⟩] = .ok m ∧
      ∃ s, (MarketDataPublisher.run m.outgoingMarketUpdates).snapshotMdUpdates.foldlM
          SnapshotSynthesizer.addToSnapshot .init = .ok s ∧ s.orderPool.inUse = 1 := by
  obtain ⟨m, hm, -, -, hsnapshot⟩ := runs_while_ids_fit [⟨.new, 1, 0, 1, .sell, 105, 10⟩,
    ⟨.new, 1, 3, 2, .buy, 7, 4⟩, ⟨.new, 2, 0, 1, .buy, 106, 3⟩,
    ⟨.canceled, 1, 3, 2, .unset, 0, 0⟩] (by decide) (by decide +kernel)
  obtain ⟨s, hs, huse⟩ := hsnapshot (by decide +kernel)
  exact ⟨m, hm, s, hs, huse.trans (by decide +kernel)⟩

/-! ## 3. The counter outgrows the tables -/

/-- An order that meets an empty book, and its cancel. -/
theorem enter_empty {x : IndexedBook} (h : x.book.resting = []) :
    (x.step (.add 0 0 .buy 100 1)).book.resting = [⟨x.book.arrivals + 1, 0, 0, .buy, 100, 1, 1⟩] ∧
      ((x.step (.add 0 0 .buy 100 1)).step (.cancel 0 0)).book.resting = [] ∧
      x.updates 0 (.add 0 0 .buy 100 1) =
        [⟨.add, 0, (x.book.arrivals + 1) % kWord64, .buy, 100, 1, 1⟩] := by
  obtain ⟨⟨resting, arrivals, joined⟩, index⟩ := x
  cases h
  refine ⟨rfl, ?_, rfl⟩
  simp [IndexedBook.step, IndexedBook.find, IndexedBook.indexAfterAdd, OrderIndex.set,
    ListBook.add, ListBook.left, ListBook.fills, ListBook.rest, ListBook.traded, ListBook.remove,
    without, sweep, sweepN]


/-- The request does not use the id of a resting order of its client again. -/
def Unused (xs : IndexedBooks) (r : MatchingEngineClientRequest) : Prop :=
  r.type = .new → ∀ o ∈ (xs r.symbolId).book.resting, ¬ o.HasKey r.clientId r.orderId

/-- An order of client 0 on symbol 0, and its cancel. -/
def order : MatchingEngineClientRequest := ⟨.new, 0, 0, 0, .buy, 100, 1⟩
def cancel : MatchingEngineClientRequest := ⟨.canceled, 0, 0, 0, .unset, 0, 0⟩

/-- The order is entered and cancelled a number of times. -/
def enterAndCancel : Nat → List MatchingEngineClientRequest
  | 0 => []
  | n + 1 => enterAndCancel n ++ [order, cancel]

/-- Nothing rests, and `n` orders have been entered on symbol 0. -/
structure Idle (xs : IndexedBooks) (n : Nat) : Prop where
  resting : ∀ s, (xs s).book.resting = []
  arrivals : (xs 0).book.arrivals = n

theorem Idle.admits_order {n : Nat} (h : xs.Idle n) : xs.Admits order := by
  refine ⟨by decide, _, rfl, by decide, ?_⟩
  exact (congrArg List.length (enter_empty (h.resting 0)).1).le.trans
    (by decide : 1 ≤ kMaxOrderIds)

theorem Idle.admits_cancel {n : Nat} (h : xs.Idle n) : (xs.step order).Admits cancel := by
  refine ⟨by decide, _, rfl, by decide, ?_⟩
  have hbook : xs.step order cancel.symbolId = (xs 0).step (.add 0 0 .buy 100 1) := rfl
  rw [hbook]
  exact (congrArg List.length (enter_empty (h.resting 0)).2.1).le.trans (by decide)

/-- An order and its cancel leave nothing behind but the counter. -/
theorem Idle.next {n : Nat} (h : xs.Idle n) : ((xs.step order).step cancel).Idle (n + 1) := by
  have hstep : (xs.step order).step cancel = Function.update (xs.step order) 0
      ((xs.step order 0).step (.cancel 0 0)) := rfl
  have horder : xs.step order = Function.update xs 0 ((xs 0).step (.add 0 0 .buy 100 1)) := rfl
  rw [hstep, horder, Function.update_self, Function.update_idem]
  constructor
  · intro s
    rcases eq_or_ne s 0 with rfl | hne
    · rw [Function.update_self]
      exact (enter_empty (h.resting 0)).2.1
    · rw [Function.update_of_ne hne]
      exact h.resting s
  · rw [Function.update_self, IndexedBook.arrivals_cancel, IndexedBook.arrivals_add, h.arrivals]

theorem enterAndCancel_run (n : Nat) :
    Run.AlongRun step (fun xs r => xs.Admits r ∧ xs.Unused r) .empty (enterAndCancel n) ∧
      ((enterAndCancel n).foldl step .empty).Idle n := by
  induction n with
  | zero => exact ⟨trivial, fun _ => rfl, rfl⟩
  | succ n ih =>
    obtain ⟨halong, hidle⟩ := ih
    rw [enterAndCancel, Run.alongRun_append, List.foldl_append]
    refine ⟨⟨halong, ⟨hidle.admits_order, fun _ o ho => ?_⟩,
      ⟨hidle.admits_cancel, fun htype => nomatch htype⟩, trivial⟩, hidle.next⟩
    rw [hidle.resting] at ho
    cases ho

theorem documented_enterAndCancel (n : Nat) : ∀ r ∈ enterAndCancel n, r.Documented := by
  induction n with
  | zero => exact fun r hr => absurd hr List.not_mem_nil
  | succ n ih =>
    intro r hr
    rcases List.mem_append.mp hr with hr | hr
    · exact ih r hr
    · simp only [List.mem_cons, List.not_mem_nil, or_false] at hr
      rcases hr with rfl | rfl <;> decide

end IndexedBooks

/-- No state of the synthesizer takes an id past its tables. -/
theorem SnapshotSynthesizer.addToSnapshot_past (s : SnapshotSynthesizer)
    {u : MarketDataPublisherMarketUpdate} (htype : u.update.type = .add)
    (hsymbol : u.update.symbolId < kMaxSymbols) (hid : kMaxOrderIds ≤ u.update.orderId) :
    s.addToSnapshot u = .error .outOfRange := by
  rw [addToSnapshot, if_pos hsymbol, applyUpdate, htype]
  dsimp only
  rw [addOrder, orderAt, if_neg (Nat.not_lt.mpr hid)]
  rfl

/-- Nor does a state of the book of a client. -/
theorem MarketOrderBook.onMarketUpdate_past (m m' : MarketOrderBook)
    {u : MatchingEngineMarketUpdate} (htype : u.type = .add) (hid : kMaxOrderIds ≤ u.orderId) :
    m.onMarketUpdate u ≠ .ok m' := by
  intro h
  obtain ⟨bid, -, h⟩ := bind_ok h
  obtain ⟨ask, -, h⟩ := bind_ok h
  obtain ⟨m₁, happly, -⟩ := bind_ok h
  rw [applyUpdate, htype] at happly
  obtain ⟨⟨a, p⟩, halloc, hadd⟩ := bind_ok happly
  obtain ⟨o, hderef, hadd⟩ := bind_ok hadd
  obtain ⟨m₂, -, hset⟩ := bind_ok hadd
  rw [MemPool.deref_some (MemPool.object?_of_allocate halloc)] at hderef
  cases hderef
  rw [setOrderOf, if_neg (Nat.not_lt.mpr hid)] at hset
  cases hset

namespace IndexedBooks

/-- **The exchange cannot run for ever**: after `kMaxOrderIds` orders of one symbol, each cancelled
before the next one, an update is published that no reader can apply. -/
theorem not_runs_for_ever : ∃ requests m us u, (∀ r ∈ requests, r.Documented) ∧
    Run.AlongRun step Unused .empty requests ∧ MatchingEngine.run requests = .ok m ∧
    m.outgoingMarketUpdates = us ++ [u] ∧
    (∀ (s : SnapshotSynthesizer) n, s.addToSnapshot ⟨n, u⟩ = .error .outOfRange) ∧
    ∀ book book' : MarketOrderBook, book.onMarketUpdate u ≠ .ok book' := by
  obtain ⟨n, hn⟩ : ∃ n, n + 1 = kMaxOrderIds := ⟨kMaxOrderIds - 1, by decide⟩
  obtain ⟨halong, hidle⟩ := enterAndCancel_run n
  have hlast : Unused ((enterAndCancel n).foldl step .empty) order := fun _ o ho => by
    rw [hidle.resting] at ho
    cases ho
  have hadmits : Run.AlongRun step Admits .empty (enterAndCancel n ++ [order]) :=
    Run.alongRun_append.mpr ⟨halong.mono fun _ _ h => h.1, hidle.admits_order, trivial⟩
  obtain ⟨m, hrun, -, -, hout⟩ := MatchingEngine.run_sim hadmits
  refine ⟨enterAndCancel n ++ [order], m, Run.outputs step updates .empty (enterAndCancel n),
    ⟨.add, 0, kMaxOrderIds, .buy, 100, 1, 1⟩, fun r hr => ?_,
    Run.alongRun_append.mpr ⟨halong.mono fun _ _ h => h.2, hlast, trivial⟩, hrun, ?_,
    fun s k => s.addToSnapshot_past rfl (by decide : 0 < kMaxSymbols) le_rfl,
    fun book book' => book.onMarketUpdate_past book' rfl le_rfl⟩
  · rcases List.mem_append.mp hr with hr | hr
    · exact documented_enterAndCancel n r hr
    · rw [List.mem_singleton.mp hr]
      decide
  · rw [hout, Run.outputs_append, Run.outputs_cons, Run.outputs_nil, List.append_nil]
    refine congrArg (_ ++ ·) ((enter_empty (hidle.resting 0)).2.2.trans ?_)
    rw [hidle.arrivals, hn]
    rfl

end IndexedBooks

end YQuant
