/-
# The symbols of the engine are independent

The engine is a table of books with one thread and two output queues.  The queues are all that the
books share: what a run emits for a symbol is what the book of that symbol alone emits for the
requests of that symbol, and a run goes through exactly when each of these shorter runs does
(`run_shards`).  So the requests of different symbols may be interleaved in any way, and a full pool
of one book stops the engine only through its own requests.

Both directions need care with runs that fail.  A run of the engine that stops has stopped in one
book, at a request of its symbol, and the run of that book on the same requests stops there too;
conversely the engine gets to the end when no book stops.  Documented requests have only one reason
to fail, the pool of a book (`run_iff_admits`), and whether a pool has room is a matter of the
requests of its own symbol (`admits_iff_callsOf`).

That the books share one thread means that a long sweep in one symbol delays the others.  Time is
not modelled, so this is not seen here.
-/
import YQuant.MarketData.MarketStream
import YQuant.Matcher.KeyedOrders

namespace YQuant

/-! ## 1. The run of one symbol -/

namespace IndexedBooks

variable {rs : List MatchingEngineClientRequest}

/-- **What a run emits for a symbol**, where `symbol` tells the symbol of a message. -/
theorem outputs_callsOf {ω : Type} {out : IndexedBooks → MatchingEngineClientRequest → List ω}
    {out' : Nat → IndexedBook → BookCall → List ω} {symbol : ω → Nat}
    (hout : ∀ (xs : IndexedBooks) {r : MatchingEngineClientRequest} {call : BookCall},
      r.call? = some call → out xs r = out' r.symbolId (xs r.symbolId) call)
    (hsymbol : ∀ s x call, ∀ w ∈ out' s x call, symbol w = s) (s : Nat) :
    ∀ {rs : List MatchingEngineClientRequest} {xs : IndexedBooks}, (∀ r ∈ rs, r.Documented) →
      (Run.outputs step out xs rs).filter (fun w => symbol w = s) =
        Run.outputs IndexedBook.step (out' s) (xs s) (callsOf s rs)
  | [], _, _ => rfl
  | r :: rs, xs, hdoc => by
    obtain ⟨-, call, hcall, -⟩ := hdoc r List.mem_cons_self
    have hrest : ∀ r' ∈ rs, r'.Documented := fun r' hr' => hdoc r' (List.mem_cons_of_mem r hr')
    rw [Run.outputs_cons, List.filter_append, outputs_callsOf hout hsymbol s hrest, hout xs hcall,
      step_call xs hcall]
    rcases eq_or_ne s r.symbolId with rfl | hne
    · rw [callsOf_cons_self hcall, Run.outputs_cons, Function.update_self,
        List.filter_eq_self.mpr fun w hw => by simpa using hsymbol _ _ _ w hw]
    · rw [callsOf_cons_of_ne hne, Function.update_of_ne hne,
        List.filter_eq_nil_iff.mpr fun w hw => by simp [hsymbol _ _ _ w hw, Ne.symm hne],
        List.nil_append]

theorem responses_callsOf (s : Nat) {xs : IndexedBooks} (hdoc : ∀ r ∈ rs, r.Documented) :
    (Run.outputs step responses xs rs).filter (fun r => r.symbolId = s) =
      Run.outputs IndexedBook.step (IndexedBook.responses s) (xs s) (callsOf s rs) :=
  outputs_callsOf (fun xs _ _ hcall => responses_call xs hcall)
    (fun _ _ _ _ hr => IndexedBook.responses_symbol hr) s hdoc

theorem updates_callsOf (s : Nat) {xs : IndexedBooks} (hdoc : ∀ r ∈ rs, r.Documented) :
    (Run.outputs step updates xs rs).filter (fun u => u.symbolId = s) =
      Run.outputs IndexedBook.step (IndexedBook.updates s) (xs s) (callsOf s rs) :=
  outputs_callsOf (fun xs _ _ hcall => updates_call xs hcall) IndexedBook.updates_symbol s hdoc

/-- **A run has room** when the run of every symbol has. -/
theorem admits_iff_callsOf : ∀ {rs : List MatchingEngineClientRequest} {xs : IndexedBooks},
    (∀ r ∈ rs, r.Documented) → (Run.AlongRun step Admits xs rs ↔ ∀ s, s < kMaxSymbols →
      Run.AlongRun IndexedBook.step (IndexedBook.Admits kDefaultPriceBand) (xs s) (callsOf s rs))
  | [], _, _ => iff_of_true trivial fun _ _ => trivial
  | r :: rs, xs, hdoc => by
    obtain ⟨hsymbol, call, hcall, -⟩ := hdoc r List.mem_cons_self
    have hrest : ∀ r' ∈ rs, r'.Documented := fun r' hr' => hdoc r' (List.mem_cons_of_mem r hr')
    have hself : callsOf r.symbolId (r :: rs) = call :: callsOf r.symbolId rs :=
      callsOf_cons_self hcall
    rw [Run.alongRun_cons, admits_iff_callsOf hrest, step_call xs hcall]
    constructor
    · rintro ⟨⟨-, call', hcall', hadmits⟩, hall⟩ s hs
      obtain rfl := Option.some.inj (hcall.symm.trans hcall')
      have h := hall s hs
      rcases eq_or_ne s r.symbolId with rfl | hne
      · rw [Function.update_self] at h
        rw [hself]
        exact ⟨hadmits, h⟩
      · rw [Function.update_of_ne hne] at h
        rwa [callsOf_cons_of_ne hne]
    · intro hall
      have hown := hall r.symbolId hsymbol
      rw [hself] at hown
      refine ⟨⟨hsymbol, call, hcall, hown.1⟩, fun s hs => ?_⟩
      rcases eq_or_ne s r.symbolId with rfl | hne
      · rw [Function.update_self]
        exact hown.2
      · rw [Function.update_of_ne hne, ← callsOf_cons_of_ne hne]
        exact hall s hs

/-- The calls of documented requests are documented. -/
theorem callsOf_documented (s : Nat) (hdoc : ∀ r ∈ rs, r.Documented) :
    ∀ call ∈ callsOf s rs, call.Documented kDefaultPriceBand := by
  intro call hmem
  obtain ⟨r, hr, hcall⟩ := List.mem_filterMap.mp hmem
  obtain ⟨-, call', hcall', hcalldoc⟩ := hdoc r hr
  split at hcall
  · obtain rfl := Option.some.inj (hcall.symm.trans hcall')
    exact hcalldoc
  · cases hcall

end IndexedBooks

/-! ## 2. The engine and its books -/

namespace MatchingEngine

open IndexedBooks (callsOf)

variable {requests : List MatchingEngineClientRequest}

/-- A run returns exactly when it has room. -/
theorem run_iff_admits (hdoc : ∀ r ∈ requests, r.Documented) :
    (∃ m, run requests = .ok m) ↔
      Run.AlongRun IndexedBooks.step IndexedBooks.Admits .empty requests := by
  constructor
  · rintro ⟨m, hrun⟩
    exact (run_simulates hdoc hrun).2
  · intro hadmits
    obtain ⟨m, hrun, -⟩ := run_sim hadmits
    exact ⟨m, hrun⟩

/-- **The engine is a book for each symbol and nothing more.**  A run of documented requests
returns exactly when, for every symbol, the run of a single book on the requests of that symbol
returns; and the engine's responses and market updates for the symbol are those of that book, in
order.  How the messages of different symbols lie between each other is all that the common queues
add. -/
theorem run_shards (hdoc : ∀ r ∈ requests, r.Documented) :
    ((∃ m, run requests = .ok m) ↔ ∀ s, s < kMaxSymbols →
      ∃ b, BookCore.run s kDefaultPriceBand (callsOf s requests) = .ok b) ∧
    ∀ m, run requests = .ok m → ∀ s, s < kMaxSymbols →
      ∃ b, BookCore.run s kDefaultPriceBand (callsOf s requests) = .ok b ∧
        m.outgoingClientResponses.filter (fun r => r.symbolId = s) = b.outgoingClientResponses ∧
        m.outgoingMarketUpdates.filter (fun u => u.symbolId = s) = b.outgoingMarketUpdates := by
  have hband : kDefaultPriceBand.isValid = true := by decide
  have hcalls := fun s => IndexedBooks.callsOf_documented s hdoc
  constructor
  · rw [run_iff_admits hdoc, IndexedBooks.admits_iff_callsOf hdoc]
    refine forall_congr' fun s => forall_congr' fun _ => ⟨fun hadmits => ?_, fun ⟨b, hb⟩ => ?_⟩
    · obtain ⟨b, hb, -⟩ := BookCore.run_sim s hband hadmits
      exact ⟨b, hb⟩
    · exact BookCore.admits_of_run hband (hcalls s) hb
  · intro m hrun s hs
    have hadmits := (run_simulates hdoc hrun).2
    obtain ⟨m', hrun', -, hresponses, hupdates⟩ := run_sim hadmits
    obtain rfl := Except.ok.inj (hrun.symm.trans hrun')
    obtain ⟨b, hb, -, hbresponses, hbupdates⟩ :=
      BookCore.run_sim s hband ((IndexedBooks.admits_iff_callsOf hdoc).mp hadmits s hs)
    refine ⟨b, hb, ?_, ?_⟩
    · rw [hresponses, hbresponses, IndexedBooks.responses_callsOf s hdoc]
      rfl
    · rw [hupdates, hbupdates, IndexedBooks.updates_callsOf s hdoc]
      rfl

/-- Two symbols, their requests interleaved. -/
def interleaved : List MatchingEngineClientRequest :=
  [⟨.new, 1, 0, 1, .sell, 105, 5⟩, ⟨.new, 2, 1, 1, .sell, 107, 2⟩, ⟨.new, 3, 0, 1, .buy, 105, 3⟩,
    ⟨.canceled, 2, 1, 1, .unset, 0, 0⟩]

theorem run_shards_interleaved :
    ((∃ m, run interleaved = .ok m) ↔ ∀ s, s < kMaxSymbols →
      ∃ b, BookCore.run s kDefaultPriceBand (callsOf s interleaved) = .ok b) ∧
    ∀ m, run interleaved = .ok m → ∀ s, s < kMaxSymbols →
      ∃ b, BookCore.run s kDefaultPriceBand (callsOf s interleaved) = .ok b ∧
        m.outgoingClientResponses.filter (fun r => r.symbolId = s) = b.outgoingClientResponses ∧
        m.outgoingMarketUpdates.filter (fun u => u.symbolId = s) = b.outgoingMarketUpdates :=
  run_shards (by decide)

end MatchingEngine

end YQuant
