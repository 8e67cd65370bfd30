/-
# The loops of `Match` stop

`matchLevel` and `matchLoop` run on a bound, so that they always return, the fault `diverged`
included.  `LevelLoop` and `MatchLoop` are the same two loops without one: a derivation is a
complete run that has stopped, and it lists the trades of every pass of the outer loop.

From every book a run of documented calls reaches, every taker has such a run
(`matchTaker_terminates`), and its trades are counted by the orders within reach of the taker:
each one takes its maker out of the book or is the last one.  What keeps the outer loop from
spinning is that the cached best tick never points to an empty level (`Rep.best_cases`).

* `Rep.trade_progress`: a trade takes its maker out of its queue or uses up the taker;
* `LevelLoop.ne_nil`: a pass that enters the inner loop trades at least once;
* `Sweeps.length_le`: a taker trades at most once with every order within its reach.

The measure is therefore the number of orders within reach, and it is read off the book before the
call.  `matchTaker` runs on a bound by the quantity of the taker; the theorem says that the loop
without a bound ends in the same book with the same messages, so the bound is not what ends it.

Nothing is said of the time a single step takes.
-/
import YQuant.Matcher.Cancellable

namespace YQuant
namespace BookCore

/-! ## 1. The two loops without a bound -/

/-- One iteration of the inner loop that trades: the book and the taker before and after. -/
structure Trade where
  before : BookCore
  taker : TakerOrder
  maker : Nat
  after : BookCore
  takerAfter : TakerOrder

/-- The maker, first of its queue, leaves it; every other queue of the side stays as it is. -/
def Trade.RemovesMaker (t : Trade) : Prop :=
  ∃ tick rest, t.before.queue t.taker.side.opposite tick = t.maker :: rest ∧
    t.after.queue t.taker.side.opposite =
      Function.update (t.before.queue t.taker.side.opposite) tick rest

/-- Nothing of the taker is left. -/
def Trade.ExhaustsTaker (t : Trade) : Prop := t.takerAfter.quantity = 0

/-- A trade does one of the two. -/
def Trade.Progress (t : Trade) : Prop := t.RemovesMaker ∨ t.ExhaustsTaker

/-- A run of the inner loop of `Match` and its trades. -/
inductive LevelLoop (makerTick executionPrice : Int) :
    BookCore → TakerOrder → List Trade → BookCore → TakerOrder → Prop
  | exhausted {b : BookCore} {taker : TakerOrder} (hq : ¬ taker.quantity > 0) :
      LevelLoop makerTick executionPrice b taker [] b taker
  | emptied {b : BookCore} {taker : TakerOrder} (hq : taker.quantity > 0)
      (hmaker : ((b.oppositeLevels taker.side).levelAt makerTick).firstOrder = none) :
      LevelLoop makerTick executionPrice b taker [] b taker
  | trade {b b₁ b' : BookCore} {taker taker₁ taker' : TakerOrder} {maker : Nat}
      {trades : List Trade} (hq : taker.quantity > 0)
      (hmaker : ((b.oppositeLevels taker.side).levelAt makerTick).firstOrder = some maker)
      (htrade : b.trade taker executionPrice maker = .ok (b₁, taker₁))
      (hrest : LevelLoop makerTick executionPrice b₁ taker₁ trades b' taker') :
      LevelLoop makerTick executionPrice b taker (⟨b, taker, maker, b₁, taker₁⟩ :: trades) b' taker'

/-- A run of the outer loop of `Match`, with the trades of each pass that enters the inner
loop.  The other passes leave the loop. -/
inductive MatchLoop : BookCore → TakerOrder → List (List Trade) → BookCore → TakerOrder → Prop
  | exhausted {b : BookCore} {taker : TakerOrder} (hq : ¬ taker.quantity > 0) :
      MatchLoop b taker [] b taker
  | noLevel {b : BookCore} {taker : TakerOrder} (hq : taker.quantity > 0)
      (hbest : (b.oppositeLevels taker.side).bestTick = kInvalidTick) : MatchLoop b taker [] b taker
  | notCrossing {b : BookCore} {taker : TakerOrder} (hq : taker.quantity > 0)
      (hbest : (b.oppositeLevels taker.side).bestTick ≠ kInvalidTick)
      (hcross : ¬ crosses taker (b.oppositeLevels taker.side).bestTick = true) :
      MatchLoop b taker [] b taker
  | pass {b b₁ b' : BookCore} {taker taker₁ taker' : TakerOrder} {trades : List Trade}
      {passes : List (List Trade)} (hq : taker.quantity > 0)
      (hbest : (b.oppositeLevels taker.side).bestTick ≠ kInvalidTick)
      (hcross : crosses taker (b.oppositeLevels taker.side).bestTick = true)
      (hlevel : LevelLoop (b.oppositeLevels taker.side).bestTick
        (b.band.toPrice (b.oppositeLevels taker.side).bestTick) b taker trades b₁ taker₁)
      (hrest : MatchLoop b₁ taker₁ passes b' taker') :
      MatchLoop b taker (trades :: passes) b' taker'

/-- The number of orders resting at the ticks a taker reaches. -/
def reachableOrders (b : BookCore) (taker : TakerOrder) : Nat :=
  ∑ tick ∈ Finset.range kTickCount,
    if crosses taker tick then (b.queue taker.side.opposite tick).length else 0

/-! ## 2. A run within its bound is a run without one -/

theorem levelLoop_of_matchLevel {makerTick executionPrice : Int} :
    ∀ {fuel : Nat} {b b' : BookCore} {taker taker' : TakerOrder},
      matchLevel makerTick executionPrice fuel b taker = .ok (b', taker') →
      ∃ trades, LevelLoop makerTick executionPrice b taker trades b' taker'
  | 0, _, _, _, _, hrun => by cases hrun
  | fuel + 1, b, b', taker, taker', hrun => by
    rw [matchLevel] at hrun
    split at hrun
    · next hq =>
      split at hrun
      · next hmaker =>
        cases hrun
        exact ⟨[], .emptied hq hmaker⟩
      · next maker hmaker =>
        obtain ⟨⟨b₁, taker₁⟩, htrade, hrest⟩ := bind_ok hrun
        obtain ⟨trades, hloop⟩ := levelLoop_of_matchLevel hrest
        exact ⟨_, .trade hq hmaker htrade hloop⟩
    · next hq =>
      cases hrun
      exact ⟨[], .exhausted hq⟩

theorem matchLoop_of_matchLoop :
    ∀ {fuel : Nat} {b b' : BookCore} {taker taker' : TakerOrder},
      matchLoop fuel b taker = .ok (b', taker') → ∃ passes, MatchLoop b taker passes b' taker'
  | 0, _, _, _, _, hrun => by cases hrun
  | fuel + 1, b, b', taker, taker', hrun => by
    rw [matchLoop] at hrun
    dsimp only at hrun
    split at hrun
    · next hq =>
      split at hrun
      · next hbest =>
        cases hrun
        exact ⟨[], .noLevel hq hbest⟩
      · next hbest =>
        split at hrun
        · next hcross =>
          obtain ⟨⟨b₁, taker₁⟩, hlevel, hrest⟩ := bind_ok hrun
          obtain ⟨trades, hlevel⟩ := levelLoop_of_matchLevel hlevel
          obtain ⟨passes, hloop⟩ := matchLoop_of_matchLoop hrest
          exact ⟨_, .pass hq hbest hcross hlevel hloop⟩
        · next hcross =>
          cases hrun
          exact ⟨[], .notCrossing hq hbest hcross⟩
    · next hq =>
      cases hrun
      exact ⟨[], .exhausted hq⟩

/-! ## 3. What one trade does -/

variable {b : BookCore} {addr : Nat → Nat} {x : IndexedBook}

/-- **A trade that empties its maker takes it out of its queue**, any other is the last one. -/
theorem Rep.trade_progress {m : Resting} {rest : List Resting} {limit : Int} {taker : TakerOrder}
    {t : Nat} {b' : BookCore} {taker' : TakerOrder} (hinv : IndexedBook.Inv b.band x)
    (h : b.Rep addr x) (hm : bestMaker x.book.resting taker.side limit = some m)
    (hqueue : x.book.resting.filter (fun o => o.At taker.side.opposite (b.band.toPrice t)) =
      m :: rest)
    (htrade : b.trade taker m.price (addr m.arrival) = .ok (b', taker')) :
    (Trade.mk b taker (addr m.arrival) b' taker').Progress := by
  obtain ⟨hmem, -⟩ := bestMaker_mem hm
  have hopp := opposite_directional taker.side
  have hat : m.At taker.side.opposite (b.band.toPrice t) := by
    have : m ∈ x.book.resting.filter (fun o => o.At taker.side.opposite (b.band.toPrice t)) := by
      simp [hqueue]
    simpa using (List.mem_filter.mp this).2
  obtain ⟨b₁, f, htrade₁, rfl, hrep₁, hemits₁⟩ := Rep.trade hinv h hm
  rw [htrade₁] at htrade
  obtain ⟨rfl, rfl⟩ := Prod.mk.inj (Except.ok.inj htrade)
  by_cases hle : m.quantity ≤ taker.quantity
  · left
    have hafter : (x.afterFill ⟨m, min taker.quantity m.quantity,
        taker.quantity - min taker.quantity m.quantity⟩).book.resting =
        without x.book.resting m := by
      simp [IndexedBook.afterFill, takeFrom, min_eq_right hle]
    have harrivals := hinv.orderly.arrivals
    have hrest : queueAt b.band addr (without x.book.resting m) taker.side.opposite t =
        slots addr rest := by
      have hswap : (without x.book.resting m).filter
          (fun o => o.At taker.side.opposite (b.band.toPrice t)) =
          without (x.book.resting.filter fun o =>
            o.At taker.side.opposite (b.band.toPrice t)) m := List.filter_comm ..
      have hp : (m :: rest).Pairwise fun o o' => o.arrival < o'.arrival :=
        hqueue ▸ harrivals.filter _
      have hwithout : without ([] ++ m :: rest) m = [] ++ rest := without_append hp
      rw [queueAt, hswap, hqueue]
      exact congrArg (slots addr) hwithout
    refine ⟨t, slots addr rest, ?_, ?_⟩
    · change b.queue taker.side.opposite t = _
      rw [h.queue_eq hopp, queueAt, hqueue]
      rfl
    · change b₁.queue taker.side.opposite = Function.update (b.queue taker.side.opposite) t _
      rw [funext fun t' => hrep₁.queue_eq hopp t', funext fun t' => h.queue_eq hopp t',
        hemits₁.band, hafter, queueAt_without h.valid harrivals hmem hat, hrest]
  · right
    change taker.quantity - min taker.quantity m.quantity = 0
    omega

/-! ## 4. What the loops do -/

/-- **The inner loop** makes the trades of a sweep, and each of them makes progress. -/
theorem LevelLoop.sweeps {t : Nat} {price limit : Int} {taker taker' : TakerOrder}
    {trades : List Trade} {b' : BookCore} (hloop : LevelLoop t price b taker trades b' taker')
    (hprice : price = b.band.toPrice t) (hinv : IndexedBook.Inv b.band x) (h : b.Rep addr x)
    (hbest : ∀ o ∈ x.book.resting, o.side = taker.side.opposite →
      takerRank taker.side price ≤ takerRank taker.side o.price)
    (haccepts : accepts taker.side limit price) :
    ∃ fs l' q', taker' = { taker with quantity := q' } ∧
      Sweeps taker.side limit x.book.resting taker.quantity fs l' q' ∧
      b'.Rep addr (x.afterFills fs l') ∧ b'.band = b.band ∧ trades.length = fs.length ∧
      ∀ trade ∈ trades, trade.Progress := by
  induction hloop generalizing x with
  | exhausted => exact ⟨[], _, _, rfl, .done, h, rfl, rfl, by simp⟩
  | emptied => exact ⟨[], _, _, rfl, .done, h, rfl, rfl, by simp⟩
  | @trade b b₁ b' taker taker₁ taker' maker trades hq hmaker htrade hrest ih =>
    subst hprice
    rcases h.head_cases taker.side t with ⟨hnone, -⟩ | ⟨m, rest, hsome, hqueue, hmprice⟩
    · rw [hnone] at hmaker
      cases hmaker
    · obtain rfl := Option.some.inj (hsome.symm.trans hmaker)
      have hm := bestMaker_of_queue hqueue hbest haccepts
      have hmem := (bestMaker_mem hm).1
      rw [← hmprice] at htrade
      have hprogress := Rep.trade_progress hinv h hm hqueue htrade
      obtain ⟨b₂, f, htrade₂, rfl, hrep₁, hemits₁⟩ := Rep.trade hinv h hm
      rw [htrade₂] at htrade
      obtain ⟨rfl, rfl⟩ := Prod.mk.inj (Except.ok.inj htrade)
      have hband₁ := hemits₁.band
      obtain ⟨fs, l', q', rfl, hsweeps, hrep', hband', hlen, hall⟩ := ih (by rw [hband₁])
        (hband₁ ▸ hinv.afterFill hmem (min_le_right _ _)) hrep₁ (best_takeFrom hbest) haccepts
      refine ⟨_, l', q', rfl, .trade hq hm hsweeps, hrep', hband'.trans hband₁, by simp [hlen], ?_⟩
      simpa using ⟨hprogress, hall⟩

/-- At a level with an order the inner loop trades. -/
theorem LevelLoop.ne_nil {t : Nat} {price : Int} {taker taker' : TakerOrder}
    {trades : List Trade} {b' : BookCore} (hloop : LevelLoop t price b taker trades b' taker')
    (h : b.Rep addr x) (hq : taker.quantity > 0)
    (hex : ∃ o ∈ x.book.resting, o.At taker.side.opposite (b.band.toPrice t)) : trades ≠ [] := by
  cases hloop with
  | exhausted hz => exact absurd hq hz
  | emptied _ hmaker =>
    obtain ⟨o, ho, hat⟩ := hex
    rcases h.head_cases taker.side t with ⟨-, hempty⟩ | ⟨m, rest, hsome, -⟩
    · exact absurd hat (hempty o ho)
    · rw [hsome] at hmaker
      cases hmaker
  | trade => simp

/-- **The outer loop** makes the trades of a sweep, and each pass makes one. -/
theorem MatchLoop.sweeps {taker taker' : TakerOrder} {passes : List (List Trade)} {b' : BookCore}
    (hloop : MatchLoop b taker passes b' taker') (hinv : IndexedBook.Inv b.band x)
    (h : b.Rep addr x) :
    ∃ fs l' q', Sweeps taker.side (b.band.toPrice taker.limitTick) x.book.resting taker.quantity
        fs l' q' ∧
      passes.flatten.length = fs.length ∧
      ∀ pass ∈ passes, pass ≠ [] ∧ ∀ trade ∈ pass, trade.Progress := by
  induction hloop generalizing x with
  | exhausted => exact ⟨[], _, _, .done, rfl, by simp⟩
  | noLevel => exact ⟨[], _, _, .done, rfl, by simp⟩
  | notCrossing => exact ⟨[], _, _, .done, rfl, by simp⟩
  | @pass b b₁ b' taker taker₁ taker' trades passes hq hvalid hcross hlevel hrest ih =>
    rcases h.best_cases hinv taker.side with ⟨hinvalid, -⟩ | ⟨t, ht, hex, hbest⟩
    · exact absurd hinvalid hvalid
    · rw [ht] at hcross hlevel
      obtain ⟨fs₁, l₁, q₁, rfl, hsweeps₁, hrep₁, hband₁, hlen₁, hall₁⟩ := hlevel.sweeps rfl hinv h
        hbest ((crosses_iff_accepts h.valid taker t).mp hcross)
      obtain ⟨fs, l', q', hsweeps, hlen, hall⟩ :=
        ih (hband₁ ▸ IndexedBook.Inv.afterSweep hsweeps₁ rfl hinv) hrep₁
      rw [hband₁] at hsweeps
      refine ⟨fs₁ ++ fs, l', q', hsweeps₁.trans hsweeps, by simp [hlen₁, hlen], ?_⟩
      intro pass hpass
      rcases List.mem_cons.mp hpass with rfl | hpass
      · exact ⟨hlevel.ne_nil h hq hex, hall₁⟩
      · exact hall pass hpass

/-! ## 5. The number of trades -/

end BookCore

/-- **A taker trades at most once with every order within reach.** -/
theorem Sweeps.length_le {side : Side} {limit : Int} {l l' : List Resting} {q q' : Nat}
    {fs : List Fill} (h : Sweeps side limit l q fs l' q') :
    fs.length ≤ (l.filter fun o => o.CrossedBy side limit).length := by
  induction h with
  | done => exact Nat.zero_le _
  | @trade l l' q q' m fs hq hm hrest ih =>
    have hmem : m ∈ l.filter fun o => o.CrossedBy side limit :=
      List.mem_filter.mpr ⟨(bestMaker_mem hm).1, by simpa using (bestMaker_mem hm).2⟩
    by_cases hle : m.quantity ≤ q
    · -- the maker is no longer there for the trades that follow
      have hlt := takeFrom_length_lt hmem
      have hcomm : (takeFrom l m m.quantity).filter (fun o => o.CrossedBy side limit) =
          takeFrom (l.filter fun o => o.CrossedBy side limit) m m.quantity := by
        rw [takeFrom, takeFrom, if_pos rfl, if_pos rfl, without, without, List.filter_comm]
      rw [min_eq_right hle, hcomm] at ih
      rw [List.length_cons]
      omega
    · -- nothing is left for another trade
      have hz : q - min q m.quantity = 0 := by omega
      have hpos := List.length_pos_of_mem hmem
      cases hrest with
      | done => exact hpos
      | trade hq' => exact absurd hq' (by omega)

namespace BookCore

variable {b : BookCore} {addr : Nat → Nat} {x : IndexedBook}

theorem Rep.reachableOrders_eq (h : b.Rep addr x) (hinv : IndexedBook.Inv b.band x)
    (taker : TakerOrder) : b.reachableOrders taker = (x.book.resting.filter fun o =>
      o.CrossedBy taker.side (b.band.toPrice taker.limitTick)).length := by
  have hsum := sum_ticks h.valid taker (fun _ => 1) hinv.orderly.inBand
  simp only [List.map_const', List.sum_replicate_nat, mul_one] at hsum
  rw [← hsum, reachableOrders]
  refine Finset.sum_congr rfl fun t _ => ?_
  rw [h.queue_eq (opposite_directional _), queueAt, slots, List.length_map]

/-! ## 6. Every taker on every book a run reaches -/

/-- **`Match` terminates.**  Its loops stop: each pass of the outer one makes a trade or leaves it,
each trade takes a maker out of its queue or uses the taker up, and there are at most as many
trades as orders within reach.  `MatchLoop` has no bound that could cut a run short, and
`matchTaker` returns what it computes; so the bound that the model gives the loops is never the
reason they stop. -/
theorem matchTaker_terminates (symbolId : Nat) (band : PriceBand) (calls : List BookCall)
    (b : BookCore) (taker : TakerOrder) (hdoc : ∀ call ∈ calls, call.Documented band)
    (hrun : run symbolId band calls = .ok b) :
    ∃ b' taker' passes, MatchLoop b taker passes b' taker' ∧
      b.matchTaker taker = .ok (b', taker'.quantity) ∧
      (∀ pass ∈ passes, pass ≠ []) ∧
      (∀ trade ∈ passes.flatten, trade.RemovesMaker ∨ trade.ExhaustsTaker) ∧
      passes.flatten.length ≤ b.reachableOrders taker := by
  have hband : band.isValid = true := by
    by_contra hinvalid
    rw [run, init, assertThat, if_neg hinvalid] at hrun
    cases hrun
  obtain ⟨b₁, hrun₁, hsim, -⟩ := run_sim symbolId hband (admits_of_run hband hdoc hrun)
  obtain rfl := Except.ok.inj (hrun.symm.trans hrun₁)
  obtain ⟨addr, hrep⟩ := hsim.rep
  have hinv := hsim.inv
  rw [← hsim.band] at hinv
  obtain ⟨b', -, -, q', hmatch, -⟩ :=
    Rep.matchLoop _ b _ taker (Nat.lt_succ_self _) hinv hrep
  obtain ⟨passes, hloop⟩ := matchLoop_of_matchLoop hmatch
  obtain ⟨fs, l', left, hsweeps, hlen, hall⟩ := hloop.sweeps hinv hrep
  refine ⟨b', _, passes, hloop, ?_, fun pass hpass => (hall pass hpass).1, ?_, ?_⟩
  · rw [matchTaker, hmatch]
    rfl
  · intro trade htrade
    obtain ⟨pass, hpass, htrade⟩ := List.mem_flatten.mp htrade
    exact (hall pass hpass).2 trade htrade
  · rw [hlen, hrep.reachableOrders_eq hinv]
    exact hsweeps.length_le

/-- A buy that takes two of the three resting sells and is used up by the second. -/
theorem matchTaker_terminates_two_levels :
    ∃ b, run 0 kDefaultPriceBand [.add 1 1 .sell 12 5, .add 1 2 .sell 10 5, .add 1 3 .sell 14 5] =
        .ok b ∧
      ∃ b' taker' passes, MatchLoop b ⟨2, 1, 4, .buy, 12, 7⟩ passes b' taker' ∧
        b.matchTaker ⟨2, 1, 4, .buy, 12, 7⟩ = .ok (b', taker'.quantity) ∧
        (∀ pass ∈ passes, pass ≠ []) ∧
        (∀ trade ∈ passes.flatten, trade.RemovesMaker ∨ trade.ExhaustsTaker) ∧
        passes.flatten.length ≤ b.reachableOrders ⟨2, 1, 4, .buy, 12, 7⟩ :=
  ⟨_, rfl, matchTaker_terminates 0 kDefaultPriceBand
    [.add 1 1 .sell 12 5, .add 1 2 .sell 10 5, .add 1 3 .sell 14 5] _ _ (by decide) rfl⟩

end BookCore
end YQuant
