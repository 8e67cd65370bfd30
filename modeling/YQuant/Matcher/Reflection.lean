/-
# Buy and sell are mirror images

The two sides of a book run different code: the bids look for their highest occupied tick and the
asks for their lowest, and what is better, and what crosses, is compared the other way round.  What
the book is for does not tell them apart.  Swap the sides of all calls and reflect their prices in
the middle of the band, and every response and every update is the old one, swapped and reflected.

The reflection commutes with the reference book (`IndexedBook.step_reflect`), which both codes
refine; so it carries whole runs of `BookCore` to whole runs (`run_reflect`).

It is not only a curiosity.  Most defects of a book with two mirrored halves are in one half only:
a comparison that should have been turned around, a search that should start at the other end.  The
result excludes all of them at once, relative to the other half, and without saying what either of
them should do.

A rejected cancel names no order, and its side and price are zero on both sides; the reflection of
a response leaves it alone.  Time is the same on both sides: arrivals, priorities and order ids do
not change.
-/
import YQuant.Matcher.Refinement

namespace YQuant

/-! ## 1. Swapping sides and reflecting prices -/

/-- `BUY` for `SELL` and `SELL` for `BUY`. -/
def Side.swap : Side → Side
  | .buy => .sell
  | .sell => .buy
  | s => s

@[simp] theorem Side.swap_swap (s : Side) : s.swap.swap = s := by
  cases s <;> rfl

theorem Side.swap_inj {s s' : Side} : s.swap = s'.swap ↔ s = s' := by
  constructor
  · intro h
    rw [← s.swap_swap, h, s'.swap_swap]
  · intro h
    rw [h]

theorem Side.Directional.swap {s : Side} (h : s.Directional) : s.swap.Directional := by
  rcases h with rfl | rfl
  · exact .inr rfl
  · exact .inl rfl

theorem Side.Directional.opposite_swap {s : Side} (h : s.Directional) :
    s.swap.opposite = s.opposite.swap := by
  rcases h with rfl | rfl <;> rfl

/-- The price that is as far from the top of the band as `price` is from its bottom. -/
def PriceBand.reflect (band : PriceBand) (price : Int) : Int :=
  band.toPrice (kTickCount - 1) - (price - band.basePrice)

section Prices

variable {band : PriceBand} {p p' : Int}

/-- **Tick `t` becomes tick `kTickCount - 1 - t`.** -/
theorem PriceBand.reflect_toPrice (t : Int) :
    band.reflect (band.toPrice t) = band.toPrice (kTickCount - 1 - t) := by
  unfold reflect toPrice
  ring

@[simp] theorem PriceBand.reflect_reflect (band : PriceBand) (p : Int) :
    band.reflect (band.reflect p) = p := by
  unfold reflect
  ring

theorem PriceBand.reflect_inj : band.reflect p = band.reflect p' ↔ p = p' := by
  unfold reflect
  omega

theorem PriceBand.reflect_le_iff : band.reflect p ≤ band.reflect p' ↔ p' ≤ p := by
  unfold reflect
  omega

theorem PriceBand.InBand.reflect (hband : band.isValid = true) (h : band.InBand p) :
    band.InBand (band.reflect p) := by
  obtain ⟨t, ht, -, rfl⟩ := toTick_of_inBand hband h
  have hcast : (kTickCount : Int) - 1 - t = ((kTickCount - 1 - t : Nat) : Int) := by omega
  rw [reflect_toPrice, hcast]
  exact toPrice_inBand hband (by omega)

end Prices

/-- A call with its side swapped and its price reflected. -/
def BookCall.reflect (band : PriceBand) : BookCall → BookCall
  | .add clientId clientOrderId side price quantity =>
    .add clientId clientOrderId side.swap (band.reflect price) quantity
  | .cancel clientId clientOrderId => .cancel clientId clientOrderId

/-- A response likewise.  A rejected cancel names no order, and its side and price are zero. -/
def MatchingEngineClientResponse.reflect (band : PriceBand) (r : MatchingEngineClientResponse) :
    MatchingEngineClientResponse :=
  if r.type = .cancelRejected then r
  else { r with side := r.side.swap, price := band.reflect r.price }

def MatchingEngineMarketUpdate.reflect (band : PriceBand) (u : MatchingEngineMarketUpdate) :
    MatchingEngineMarketUpdate :=
  { u with side := u.side.swap, price := band.reflect u.price }

theorem BookCall.reflect_reflect (band : PriceBand) (call : BookCall) :
    (call.reflect band).reflect band = call := by
  cases call <;> simp [reflect]

theorem BookCall.Documented.reflect {band : PriceBand} (hband : band.isValid = true)
    {call : BookCall} (h : call.Documented band) : (call.reflect band).Documented band := by
  cases call with
  | add clientId clientOrderId side price quantity =>
    obtain ⟨hclient, hid, hside, hprice, hquantity⟩ := h
    exact ⟨hclient, hid, hside.swap, hprice.reflect hband, hquantity⟩
  | cancel clientId clientOrderId => exact h

/-! ## 2. Trades -/

def Resting.reflect (band : PriceBand) (o : Resting) : Resting :=
  { o with side := o.side.swap, price := band.reflect o.price }

def Fill.reflect (band : PriceBand) (f : Fill) : Fill := { f with maker := f.maker.reflect band }

/-- A map that keeps the order of the keys keeps the first of the smallest elements. -/
theorem argmin_map {α β γ δ : Type*} [LinearOrder γ] [LinearOrder δ] {f : α → γ} {f' : β → δ}
    {g : α → β} (hlt : ∀ a b, f' (g a) < f' (g b) ↔ f a < f b) (l : List α) :
    (l.map g).argmin f' = (l.argmin f).map g := by
  induction l with
  | nil => rfl
  | cons a l ih =>
    rw [List.map_cons, List.argmin_cons, List.argmin_cons, ih]
    cases l.argmin f with
    | none => rfl
    | some c =>
      dsimp only [Option.map_some]
      rw [apply_ite (Option.map g)]
      exact if_congr (hlt c a) rfl rfl

section Trades

variable {band : PriceBand} {side : Side} {limit : Int} {o m : Resting} {l : List Resting}

theorem Resting.at_reflect {price : Int} :
    (o.reflect band).At side.swap (band.reflect price) ↔ o.At side price :=
  and_congr Side.swap_inj PriceBand.reflect_inj

theorem Resting.crossedBy_reflect (hs : side.Directional) :
    (o.reflect band).CrossedBy side.swap (band.reflect limit) ↔ o.CrossedBy side limit := by
  unfold CrossedBy
  rw [hs.opposite_swap]
  refine and_congr Side.swap_inj ?_
  rcases hs with rfl | rfl
  · exact PriceBand.reflect_le_iff
  · exact PriceBand.reflect_le_iff

/-- **The next maker** is the same order. -/
theorem bestMaker_reflect (hs : side.Directional) :
    bestMaker (l.map (Resting.reflect band)) side.swap (band.reflect limit) =
      (bestMaker l side limit).map (Resting.reflect band) := by
  unfold bestMaker
  rw [List.filter_map]
  have hfilter : l.filter ((fun o => decide (o.CrossedBy side.swap (band.reflect limit))) ∘
      Resting.reflect band) = l.filter fun o => decide (o.CrossedBy side limit) :=
    List.filter_congr fun o _ => decide_eq_decide.mpr (Resting.crossedBy_reflect hs)
  rw [hfilter]
  refine argmin_map (fun a b => ?_) _
  unfold takerRank Resting.reflect PriceBand.reflect
  rcases hs with rfl | rfl
  · simp [Side.swap]
  · simp [Side.swap]

theorem takeFrom_reflect (l : List Resting) (m : Resting) (e : Nat) :
    takeFrom (l.map (Resting.reflect band)) (m.reflect band) e =
      (takeFrom l m e).map (Resting.reflect band) := by
  unfold takeFrom without reduce
  rw [apply_ite (List.map _), List.filter_map, List.map_map, List.map_map]
  refine if_congr Iff.rfl rfl (List.map_congr_left fun o _ => ?_)
  rw [Function.comp_apply, Function.comp_apply, apply_ite (Resting.reflect band)]
  rfl

theorem sweepN_reflect (hs : side.Directional) (n : Nat) : ∀ (l : List Resting) (q : Nat),
    sweepN side.swap (band.reflect limit) n (l.map (Resting.reflect band)) q =
      ((sweepN side limit n l q).1.map (Fill.reflect band),
        (sweepN side limit n l q).2.1.map (Resting.reflect band),
        (sweepN side limit n l q).2.2) := by
  induction n with
  | zero => exact fun _ _ => rfl
  | succ n ih =>
    intro l q
    simp only [sweepN, bestMaker_reflect hs]
    by_cases hq : q = 0
    · simp only [if_pos hq]
      rfl
    · simp only [if_neg hq]
      cases bestMaker l side limit with
      | none => rfl
      | some m =>
        dsimp only [Option.map_some]
        rw [show (m.reflect band).quantity = m.quantity from rfl, takeFrom_reflect, ih]
        rfl

/-- **All trades of a taker.** -/
theorem sweep_reflect (hs : side.Directional) (l : List Resting) (q : Nat) :
    sweep side.swap (band.reflect limit) (l.map (Resting.reflect band)) q =
      ((sweep side limit l q).1.map (Fill.reflect band),
        (sweep side limit l q).2.1.map (Resting.reflect band), (sweep side limit l q).2.2) := by
  unfold sweep
  rw [List.length_map]
  exact sweepN_reflect hs _ _ _

end Trades

/-! ## 3. Books -/

/-- A book with everything that rests in it swapped and reflected. -/
def ListBook.reflect (band : PriceBand) (b : ListBook) : ListBook where
  resting := b.resting.map (Resting.reflect band)
  arrivals := b.arrivals
  joined := fun side price => b.joined side.swap (band.reflect price)

/-- The index names orders by client, id and arrival, which stay. -/
def IndexedBook.reflect (band : PriceBand) (x : IndexedBook) : IndexedBook :=
  ⟨x.book.reflect band, x.index⟩

section Books

variable {band : PriceBand} {side : Side} {price : Int} {b : ListBook} {x : IndexedBook}

theorem ListBook.queued_reflect :
    (b.reflect band).queued side.swap (band.reflect price) = b.queued side price := by
  have hat : (∃ o ∈ (b.reflect band).resting, o.At side.swap (band.reflect price)) ↔
      ∃ o ∈ b.resting, o.At side price := by
    constructor
    · rintro ⟨o, ho, hat⟩
      obtain ⟨r, hr, rfl⟩ := List.mem_map.mp ho
      exact ⟨r, hr, Resting.at_reflect.mp hat⟩
    · rintro ⟨o, ho, hat⟩
      exact ⟨_, List.mem_map_of_mem ho, Resting.at_reflect.mpr hat⟩
  unfold queued
  refine if_congr hat ?_ rfl
  rw [reflect]
  dsimp only
  rw [Side.swap_swap, PriceBand.reflect_reflect]

/-- Counting an order that joins a price. -/
theorem update_joined_reflect (joined : Side → Int → Nat) (n : Nat) :
    Function.update (fun s p => joined s.swap (band.reflect p)) side.swap
        (Function.update (fun p => joined side.swap.swap (band.reflect p)) (band.reflect price) n) =
      fun s p => Function.update joined side (Function.update (joined side) price n) s.swap
        (band.reflect p) := by
  funext s p
  rcases eq_or_ne s side.swap with rfl | hside
  · rw [Function.update_self, Side.swap_swap, Function.update_self]
    rcases eq_or_ne p (band.reflect price) with rfl | hprice
    · rw [Function.update_self, PriceBand.reflect_reflect, Function.update_self]
    · have hne : band.reflect p ≠ price := fun h =>
        hprice (by rw [← h, PriceBand.reflect_reflect])
      rw [Function.update_of_ne hprice, Function.update_of_ne hne]
  · have hne : s.swap ≠ side := fun h => hside (by rw [← h, Side.swap_swap])
    rw [Function.update_of_ne hside, Function.update_of_ne hne]

theorem ListBook.rest_reflect (clientId clientOrderId quantity : Nat) :
    (b.reflect band).rest clientId clientOrderId side.swap (band.reflect price) quantity =
      (b.rest clientId clientOrderId side price quantity).reflect band := by
  unfold rest
  rw [queued_reflect]
  unfold reflect
  dsimp only
  rw [update_joined_reflect, List.map_append]
  rfl

theorem ListBook.fills_reflect (hs : side.Directional) (quantity : Nat) :
    (b.reflect band).fills side.swap (band.reflect price) quantity =
      (b.fills side price quantity).map (Fill.reflect band) :=
  congrArg Prod.fst (sweep_reflect hs b.resting quantity)

theorem ListBook.left_reflect (hs : side.Directional) (quantity : Nat) :
    (b.reflect band).left side.swap (band.reflect price) quantity = b.left side price quantity :=
  congrArg (fun r => r.2.2) (sweep_reflect hs b.resting quantity)

theorem ListBook.traded_reflect (hs : side.Directional) (quantity : Nat) :
    (b.reflect band).traded side.swap (band.reflect price) quantity =
      (b.traded side price quantity).reflect band := by
  unfold traded reflect
  dsimp only
  rw [sweep_reflect hs]

theorem ListBook.add_reflect (hs : side.Directional) (clientId clientOrderId quantity : Nat) :
    (b.reflect band).add clientId clientOrderId side.swap (band.reflect price) quantity =
      (b.add clientId clientOrderId side price quantity).reflect band := by
  unfold add
  rw [left_reflect hs, traded_reflect hs, rest_reflect, apply_ite (ListBook.reflect band)]

theorem ListBook.remove_reflect (o : Option Resting) :
    (b.reflect band).remove (o.map (Resting.reflect band)) = (b.remove o).reflect band := by
  cases o with
  | none => rfl
  | some m =>
    unfold remove reflect without
    dsimp only [Option.map_some]
    rw [List.filter_map]
    rfl

theorem OrderIndex.afterFills_reflect (fs : List Fill) (ix : OrderIndex) :
    (fs.map (Fill.reflect band)).foldl OrderIndex.afterFill ix =
      fs.foldl OrderIndex.afterFill ix := by
  rw [List.foldl_map]
  rfl

theorem IndexedBook.find_reflect (clientId clientOrderId : Nat) :
    (x.reflect band).find clientId clientOrderId =
      (x.find clientId clientOrderId).map (Resting.reflect band) := by
  unfold find reflect ListBook.reflect
  dsimp only
  cases x.index clientId clientOrderId with
  | none => rfl
  | some arrival =>
    rw [Option.bind_some, Option.bind_some, List.find?_map]
    rfl

/-- The side of a call is a side. -/
def BookCall.Sided : BookCall → Prop
  | .add _ _ side _ _ => side.Directional
  | .cancel _ _ => True

theorem BookCall.Documented.sided {call : BookCall} (h : call.Documented band) : call.Sided := by
  cases call with
  | add clientId clientOrderId side price quantity => exact h.2.2.1
  | cancel clientId clientOrderId => trivial

/-- **The reflection commutes with a call.** -/
theorem IndexedBook.step_reflect {call : BookCall} (hcall : call.Sided) :
    (x.reflect band).step (call.reflect band) = (x.step call).reflect band := by
  cases call with
  | add clientId clientOrderId side price quantity =>
    have hindex : (x.reflect band).indexAfterAdd clientId clientOrderId side.swap
        (band.reflect price) quantity =
          x.indexAfterAdd clientId clientOrderId side price quantity := by
      unfold indexAfterAdd reflect
      dsimp only
      rw [ListBook.fills_reflect hcall, ListBook.left_reflect hcall, OrderIndex.afterFills_reflect]
      rfl
    unfold BookCall.reflect step
    dsimp only
    rw [hindex]
    exact congrArg (IndexedBook.mk · _) (ListBook.add_reflect hcall _ _ _)
  | cancel clientId clientOrderId =>
    unfold BookCall.reflect step
    dsimp only
    rw [find_reflect]
    exact congrArg (IndexedBook.mk · _) (ListBook.remove_reflect _)

theorem Fill.updates_reflect (symbolId : Nat) (f : Fill) :
    (f.reflect band).updates symbolId =
      (f.updates symbolId).map (MatchingEngineMarketUpdate.reflect band) := by
  unfold updates
  rw [List.map_cons, List.map_singleton, apply_ite (MatchingEngineMarketUpdate.reflect band)]
  rfl

/-- **The responses of a call** are swapped and reflected with it. -/
theorem IndexedBook.responses_reflect (symbolId : Nat) {call : BookCall} (hcall : call.Sided) :
    (x.reflect band).responses symbolId (call.reflect band) =
      (x.responses symbolId call).map (MatchingEngineClientResponse.reflect band) := by
  cases call with
  | add clientId clientOrderId side price quantity =>
    unfold BookCall.reflect responses ListBook.addResponses reflect
    dsimp only
    rw [ListBook.fills_reflect hcall, List.map_cons, List.flatMap_map, List.map_flatMap]
    rfl
  | cancel clientId clientOrderId =>
    unfold BookCall.reflect responses
    dsimp only
    rw [find_reflect]
    cases x.find clientId clientOrderId <;> rfl

/-- **And so are its updates.** -/
theorem IndexedBook.updates_reflect (symbolId : Nat) {call : BookCall} (hcall : call.Sided) :
    (x.reflect band).updates symbolId (call.reflect band) =
      (x.updates symbolId call).map (MatchingEngineMarketUpdate.reflect band) := by
  cases call with
  | add clientId clientOrderId side price quantity =>
    unfold BookCall.reflect updates ListBook.addUpdates reflect
    dsimp only
    rw [ListBook.fills_reflect hcall, ListBook.left_reflect hcall, ListBook.traded_reflect hcall,
      ListBook.queued_reflect, List.map_append, List.flatMap_map, List.map_flatMap,
      apply_ite (List.map (MatchingEngineMarketUpdate.reflect band))]
    simp only [Fill.updates_reflect]
    rfl
  | cancel clientId clientOrderId =>
    unfold BookCall.reflect updates
    dsimp only
    rw [find_reflect]
    cases x.find clientId clientOrderId <;> rfl

theorem IndexedBook.Admits.reflect (hband : band.isValid = true) {call : BookCall}
    (h : x.Admits band call) : (x.reflect band).Admits band (call.reflect band) := by
  obtain ⟨hdoc, hroom⟩ := h
  refine ⟨hdoc.reflect hband, ?_⟩
  rw [step_reflect hdoc.sided]
  unfold IndexedBook.reflect ListBook.reflect
  rwa [List.length_map]

end Books

/-! ## 4. Whole runs -/

namespace BookCore

/-- A run that returns, and what it emits. -/
theorem run_reflect_ok (symbolId : Nat) {band : PriceBand} {calls : List BookCall} {b : BookCore}
    (hband : band.isValid = true) (hdoc : ∀ call ∈ calls, call.Documented band)
    (hrun : run symbolId band calls = .ok b) :
    ∃ b', run symbolId band (calls.map (BookCall.reflect band)) = .ok b' ∧
      b'.outgoingClientResponses =
        b.outgoingClientResponses.map (MatchingEngineClientResponse.reflect band) ∧
      b'.outgoingMarketUpdates =
        b.outgoingMarketUpdates.map (MatchingEngineMarketUpdate.reflect band) := by
  have hsided : ∀ call ∈ calls, call.Sided := fun call hcall => (hdoc call hcall).sided
  have hadmits := admits_of_run hband hdoc hrun
  have hadmits' : Run.AlongRun IndexedBook.step (IndexedBook.Admits band)
      (IndexedBook.empty.reflect band) (calls.map (BookCall.reflect band)) :=
    hadmits.map (fun x call h => IndexedBook.step_reflect h.1.sided) fun x call h => h.reflect hband
  obtain ⟨b₁, hrun₁, -, hresponses, hupdates⟩ := run_sim symbolId hband hadmits
  obtain rfl := Except.ok.inj (hrun.symm.trans hrun₁)
  obtain ⟨b', hrun', -, hresponses', hupdates'⟩ := run_sim symbolId hband hadmits'
  refine ⟨b', hrun', ?_, ?_⟩
  · rw [hresponses', hresponses]
    exact Run.outputs_map (f := IndexedBook.reflect band) (t := .empty)
      (fun _ _ => IndexedBook.step_reflect)
      (fun _ _ => IndexedBook.responses_reflect symbolId) hsided
  · rw [hupdates', hupdates]
    exact Run.outputs_map (f := IndexedBook.reflect band) (t := .empty)
      (fun _ _ => IndexedBook.step_reflect)
      (fun _ _ => IndexedBook.updates_reflect symbolId) hsided

/-- **Buy and sell are mirror images**: the swapped and reflected calls make the swapped and
reflected responses and updates, in the same order, and fail if the calls do.  The code of the two
sides differs, in the direction of the bitmap search and in two comparisons; both refine one list,
and the reflection is an automorphism of it (`IndexedBook.step_reflect`).  With tick sizes above
one the reflected price is the one with the mirrored tick. -/
theorem run_reflect (symbolId : Nat) {band : PriceBand} {calls : List BookCall}
    (hband : band.isValid = true) (hdoc : ∀ call ∈ calls, call.Documented band) :
    (∀ b, run symbolId band calls = .ok b →
      ∃ b', run symbolId band (calls.map (BookCall.reflect band)) = .ok b' ∧
        b'.outgoingClientResponses =
          b.outgoingClientResponses.map (MatchingEngineClientResponse.reflect band) ∧
        b'.outgoingMarketUpdates =
          b.outgoingMarketUpdates.map (MatchingEngineMarketUpdate.reflect band)) ∧
    ∀ e, run symbolId band calls = .error e →
      ∃ e', run symbolId band (calls.map (BookCall.reflect band)) = .error e' := by
  refine ⟨fun b hrun => run_reflect_ok symbolId hband hdoc hrun, fun e herror => ?_⟩
  cases hrun : run symbolId band (calls.map (BookCall.reflect band)) with
  | error e' => exact ⟨e', rfl⟩
  | ok b' =>
    -- reflecting twice leads back
    have hdoc' : ∀ call ∈ calls.map (BookCall.reflect band), call.Documented band := fun c hc => by
      obtain ⟨call, hcall, rfl⟩ := List.mem_map.mp hc
      exact (hdoc call hcall).reflect hband
    obtain ⟨b, hback, -⟩ := run_reflect_ok symbolId hband hdoc' hrun
    have htwice : (calls.map (BookCall.reflect band)).map (BookCall.reflect band) = calls := by
      rw [List.map_map]
      exact (List.map_congr_left fun call _ => call.reflect_reflect band).trans (List.map_id calls)
    rw [htwice, herror] at hback
    cases hback

/-- A sweep over two prices, a remainder that rests, a cancel and a rejected one. -/
theorem run_reflect_sweep : ∃ b b', run 0 ⟨1000, 5⟩ [.add 1 1 .sell 1020 5, .add 2 1 .sell 1025 5,
      .add 3 1 .buy 1025 12, .cancel 3 1, .cancel 3 1] = .ok b ∧
    run 0 ⟨1000, 5⟩ ([.add 1 1 .sell 1020 5, .add 2 1 .sell 1025 5, .add 3 1 .buy 1025 12,
      .cancel 3 1, .cancel 3 1].map (BookCall.reflect ⟨1000, 5⟩)) = .ok b' ∧
    b'.outgoingClientResponses =
      b.outgoingClientResponses.map (MatchingEngineClientResponse.reflect ⟨1000, 5⟩) ∧
    b'.outgoingMarketUpdates =
      b.outgoingMarketUpdates.map (MatchingEngineMarketUpdate.reflect ⟨1000, 5⟩) := by
  obtain ⟨b, hrun, -⟩ : ∃ b, run 0 ⟨1000, 5⟩ [.add 1 1 .sell 1020 5, .add 2 1 .sell 1025 5,
      .add 3 1 .buy 1025 12, .cancel 3 1, .cancel 3 1] = .ok b ∧ true = true :=
    exists_of_returns (by decide +kernel)
  obtain ⟨b', hrun', hresponses, hupdates⟩ :=
    (run_reflect 0 (by decide) (by decide)).1 b hrun
  exact ⟨b, b', hrun, hrun', hresponses, hupdates⟩

end BookCore

end YQuant
