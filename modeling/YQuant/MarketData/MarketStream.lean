/-
# The stream of market updates of all symbols

The engine's updates name their symbol, and a reader keeps a list of live orders for each.
`replayMarket` applies an update to the list of its symbol; `run_published` says of the engine
what `BookCore.run_published` says of one book: a run of documented requests returns and publishes
only updates that the reader can apply, and they lead to the orders of the books.

Updates of one symbol do not touch the others (`foldl_replayMarket_at`), so what a book publishes
is applicable in the stream of all symbols if it is in its own.  What has to be known of a run
comes in two strengths: `Small` says that all ids that rest are below `kMaxOrderIds`, and `Few`
that fewer orders than that are entered for each symbol.  The second is a condition on the requests
alone and implies the first along the whole run (`Inv.small_along`).

Neither is checked by the code.  Without them a reader comes to an index past its tables
(`Lifetime.lean`).
-/
import YQuant.Matcher.MatchingEngine
import YQuant.MarketData.Stream

namespace YQuant

/-- The live orders of each symbol. -/
abbrev Market := Nat → List LiveOrder

namespace Market

def empty : Market := fun _ => []

/-- The live orders of all symbols. -/
def total (M : Market) : Nat := ((List.range kMaxSymbols).map fun s => (M s).length).sum

end Market

/-- The live orders after one update. -/
def replayMarket (M : Market) (u : MatchingEngineMarketUpdate) : Market :=
  Function.update M u.symbolId (replay (M u.symbolId) u)

/-- What an update of a book can rely on in the live orders of its symbol. -/
def PublishedMarket (band : PriceBand) (M : Market) (u : MatchingEngineMarketUpdate) : Prop :=
  u.symbolId < kMaxSymbols ∧ Published band (M u.symbolId) u

/-! ## 1. The updates of one symbol -/

/-- **Updates of one symbol** change its orders only. -/
theorem foldl_replayMarket {s : Nat} {us : List MatchingEngineMarketUpdate} :
    ∀ {M : Market}, (∀ u ∈ us, u.symbolId = s) →
      us.foldl replayMarket M = Function.update M s (us.foldl replay (M s)) := by
  induction us with
  | nil => intro M _; simp
  | cons u us ih =>
    intro M hsym
    obtain rfl := hsym u List.mem_cons_self
    rw [List.foldl_cons, ih fun v hv => hsym v (List.mem_cons_of_mem _ hv), replayMarket,
      Function.update_self, Function.update_idem, List.foldl_cons]

/-- What holds along the updates of one symbol, in the orders of that symbol. -/
theorem alongRun_market {P : List LiveOrder → MatchingEngineMarketUpdate → Prop} {s : Nat}
    {us : List MatchingEngineMarketUpdate} : ∀ {M : Market}, (∀ u ∈ us, u.symbolId = s) →
      Run.AlongRun replay P (M s) us →
      Run.AlongRun replayMarket (fun M u => u.symbolId = s ∧ P (M u.symbolId) u) M us := by
  induction us with
  | nil => exact fun _ _ => trivial
  | cons u us ih =>
    intro M hsym h
    obtain rfl := hsym u List.mem_cons_self
    refine ⟨⟨rfl, h.1⟩, ih (fun v hv => hsym v (List.mem_cons_of_mem _ hv)) ?_⟩
    rw [replayMarket, Function.update_self]
    exact h.2

theorem published_market {band : PriceBand} {s : Nat} (hs : s < kMaxSymbols)
    {us : List MatchingEngineMarketUpdate} {M : Market} (hsym : ∀ u ∈ us, u.symbolId = s)
    (h : Run.AlongRun replay (Published band) (M s) us) :
    Run.AlongRun replayMarket (PublishedMarket band) M us :=
  (alongRun_market hsym h).mono fun _ _ hu => ⟨hu.1 ▸ hs, hu.2⟩

/-- **The orders of a symbol** follow from the updates of that symbol alone. -/
theorem foldl_replayMarket_at (s : Nat) {us : List MatchingEngineMarketUpdate} :
    ∀ {M : Market}, us.foldl replayMarket M s =
      (us.filter fun u => u.symbolId = s).foldl replay (M s) := by
  induction us with
  | nil => intro M; rfl
  | cons u us ih =>
    intro M
    rw [List.foldl_cons, ih, replayMarket]
    rcases eq_or_ne s u.symbolId with rfl | hne
    · simp
    · simp [hne, Ne.symm hne]

theorem published_at {band : PriceBand} (s : Nat) {us : List MatchingEngineMarketUpdate} :
    ∀ {M : Market}, Run.AlongRun replayMarket (PublishedMarket band) M us →
      Run.AlongRun replay (Published band) (M s) (us.filter fun u => u.symbolId = s) := by
  induction us with
  | nil => exact fun _ => trivial
  | cons u us ih =>
    intro M h
    have hrest := ih h.2
    rw [replayMarket] at hrest
    rcases eq_or_ne s u.symbolId with rfl | hne
    · rw [List.filter_cons_of_pos (by simp)]
      rw [Function.update_self] at hrest
      exact ⟨h.1.2, hrest⟩
    · rw [List.filter_cons_of_neg (by simpa using Ne.symm hne)]
      rwa [Function.update_of_ne hne] at hrest

/-- The updates of a call name the symbol of the book. -/
theorem IndexedBook.updates_symbol (symbolId : Nat) (x : IndexedBook) (call : BookCall) :
    ∀ u ∈ x.updates symbolId call, u.symbolId = symbolId := by
  intro u hu
  cases call with
  | add clientId clientOrderId side price quantity =>
    rcases List.mem_append.mp hu with hu | hu
    · obtain ⟨f, -, hu⟩ := List.mem_flatMap.mp hu
      rcases List.mem_cons.mp hu with rfl | hu
      · rfl
      · rw [List.mem_singleton.mp hu]
        split <;> rfl
    · split at hu
      · cases hu
      · rw [List.mem_singleton.mp hu]
  | cancel clientId clientOrderId =>
    simp only [updates, ListBook.cancelUpdates] at hu
    split at hu
    · cases hu
    · rw [List.mem_singleton.mp hu]

/-! ## 2. Runs of the engine -/

namespace IndexedBooks

/-- The live orders of the books. -/
def live (xs : IndexedBooks) : Market := fun s => (xs s).live

/-- The calls on the book of a symbol. -/
def callsOf (s : Nat) (rs : List MatchingEngineClientRequest) : List BookCall :=
  rs.filterMap fun r => if r.symbolId = s then r.call? else none

theorem callsOf_cons_self {r : MatchingEngineClientRequest} {rs : List MatchingEngineClientRequest}
    {call : BookCall} (h : r.call? = some call) :
    callsOf r.symbolId (r :: rs) = call :: callsOf r.symbolId rs := by
  simp [callsOf, h]

theorem callsOf_cons_of_ne {s : Nat} {r : MatchingEngineClientRequest}
    {rs : List MatchingEngineClientRequest} (h : s ≠ r.symbolId) :
    callsOf s (r :: rs) = callsOf s rs := by
  simp [callsOf, Ne.symm h]

/-- Fewer orders of each symbol than there are order ids. -/
def Few (xs : IndexedBooks) (rs : List MatchingEngineClientRequest) : Prop :=
  ∀ s, s < kMaxSymbols → (xs s).book.arrivals + IndexedBook.adds (callsOf s rs) < kMaxOrderIds

instance (xs : IndexedBooks) (rs : List MatchingEngineClientRequest) : Decidable (Few xs rs) :=
  inferInstanceAs (Decidable (∀ s, s < kMaxSymbols → _))

variable {xs : IndexedBooks} {r : MatchingEngineClientRequest}
  {rs : List MatchingEngineClientRequest}

/-- The ids of the resting orders of all symbols are small. -/
def Small (xs : IndexedBooks) : Prop := ∀ s, s < kMaxSymbols → (xs s).Small

instance (xs : IndexedBooks) : Decidable xs.Small :=
  inferInstanceAs (Decidable (∀ s, s < kMaxSymbols → _))

theorem Inv.small (h : Inv xs) (hfew : Few xs rs) : xs.Small := fun s hs =>
  (h s hs).small (Nat.lt_of_le_of_lt (Nat.le_add_right _ _) (hfew s hs))

/-- **One documented request** that leaves small ids: it is admissible, and what it publishes can be
applied. -/
theorem Inv.request_of_small (h : Inv xs) (hdoc : r.Documented) (hsmall : xs.Small)
    (hsmall' : (xs.step r).Small) :
    xs.Admits r ∧
      Run.AlongRun replayMarket (PublishedMarket kDefaultPriceBand) xs.live (xs.updates r) ∧
      (xs.updates r).foldl replayMarket xs.live = (xs.step r).live := by
  obtain ⟨hsymbol, call, hcall, hdocCall⟩ := hdoc
  have hx := h r.symbolId hsymbol
  have hstep := step_call xs hcall
  have hupdates := updates_call xs hcall
  have hsmallCall : ((xs r.symbolId).step call).Small := by
    have hs := hsmall' r.symbolId hsymbol
    rwa [hstep, Function.update_self] at hs
  obtain ⟨hpub, hfold⟩ :=
    hx.call_published_of_small r.symbolId hdocCall (hsmall _ hsymbol) hsmallCall
  have hsym := (xs r.symbolId).updates_symbol r.symbolId call
  refine ⟨⟨hsymbol, call, hcall, hdocCall, (hx.step hdocCall).length_le_of_small hsmallCall⟩,
    ?_, ?_⟩
  · rw [hupdates]
    exact published_market (M := xs.live) hsymbol hsym hpub
  · rw [hupdates, foldl_replayMarket hsym, hstep]
    funext s
    rcases eq_or_ne s r.symbolId with rfl | hne
    · rw [Function.update_self, live, live, Function.update_self]
      exact hfold
    · rw [Function.update_of_ne hne, live, live, Function.update_of_ne hne]

/-- Few orders stay few. -/
theorem Few.next (hdoc : r.Documented) (hfew : Few xs (r :: rs)) : Few (xs.step r) rs := by
  obtain ⟨hsymbol, call, hcall, -⟩ := hdoc
  intro s hs
  have hfewCall := hfew s hs
  rw [step_call _ hcall]
  rcases eq_or_ne s r.symbolId with rfl | hne
  · rw [callsOf_cons_self hcall, IndexedBook.adds_cons, ← Nat.add_assoc,
      ← IndexedBook.arrivals_step] at hfewCall
    rwa [Function.update_self]
  · rw [callsOf_cons_of_ne hne] at hfewCall
    rwa [Function.update_of_ne hne]

/-- **A run of documented requests** that keeps the ids small. -/
theorem Inv.run_published_of_small :
    ∀ {rs : List MatchingEngineClientRequest} {xs : IndexedBooks}, Inv xs →
      (∀ r ∈ rs, r.Documented) → xs.Small →
      Run.AlongRun step (fun xs r => (xs.step r).Small) xs rs →
      Run.AlongRun step Admits xs rs ∧
        Run.AlongRun replayMarket (PublishedMarket kDefaultPriceBand) xs.live
          (Run.outputs step updates xs rs) ∧
        (Run.outputs step updates xs rs).foldl replayMarket xs.live = (rs.foldl step xs).live
  | [], _, _, _, _, _ => ⟨trivial, trivial, rfl⟩
  | r :: rs, xs, h, hdoc, hsmall, halong => by
    have hr := hdoc r List.mem_cons_self
    obtain ⟨hadmits, hpub, hfold⟩ := h.request_of_small hr hsmall halong.1
    obtain ⟨ha, hp, hf⟩ := run_published_of_small (h.next hr)
      (fun r' hr' => hdoc r' (List.mem_cons_of_mem _ hr')) halong.1 halong.2
    refine ⟨⟨hadmits, ha⟩, ?_, ?_⟩
    · rw [Run.outputs_cons, Run.alongRun_append, hfold]
      exact ⟨hpub, hp⟩
    · rw [Run.outputs_cons, List.foldl_append, hfold]
      exact hf

/-- Fewer orders than ids keep the ids small. -/
theorem Inv.small_along (h : Inv xs) (hdoc : ∀ r ∈ rs, r.Documented) (hfew : Few xs rs) :
    Run.AlongRun step (fun xs r => (xs.step r).Small) xs rs := by
  induction rs generalizing xs with
  | nil => trivial
  | cons r rs ih =>
    have hr := hdoc r List.mem_cons_self
    have hfew' := Few.next hr hfew
    exact ⟨(h.next hr).small hfew',
      ih (h.next hr) (fun r' hr' => hdoc r' (List.mem_cons_of_mem _ hr')) hfew'⟩

/-- **A run of documented requests.** -/
theorem Inv.run_published (h : Inv xs) (hdoc : ∀ r ∈ rs, r.Documented) (hfew : Few xs rs) :
    Run.AlongRun step Admits xs rs ∧
      Run.AlongRun replayMarket (PublishedMarket kDefaultPriceBand) xs.live
        (Run.outputs step updates xs rs) ∧
      (Run.outputs step updates xs rs).foldl replayMarket xs.live = (rs.foldl step xs).live :=
  h.run_published_of_small hdoc (h.small hfew) (h.small_along hdoc hfew)

end IndexedBooks

/-- **A run of the engine over documented requests**, with fewer orders of each symbol than there
are order ids, returns, and publishes only updates that can be applied where they arrive. -/
theorem MatchingEngine.run_published {requests : List MatchingEngineClientRequest}
    (hdoc : ∀ r ∈ requests, r.Documented) (hfew : IndexedBooks.Few .empty requests) :
    ∃ m xs, run requests = .ok m ∧ m.Simulates xs ∧
      Run.AlongRun replayMarket (PublishedMarket kDefaultPriceBand) .empty
        m.outgoingMarketUpdates ∧
      m.outgoingMarketUpdates.foldl replayMarket .empty = xs.live := by
  obtain ⟨hadmits, hpub, hfold⟩ := IndexedBooks.Inv.empty.run_published hdoc hfew
  obtain ⟨m, hrun, hsim, -, hout⟩ := MatchingEngine.run_sim hadmits
  exact ⟨m, _, hrun, hsim, by rw [hout]; exact hpub, by rw [hout]; exact hfold⟩

end YQuant
