/-
# Runs of the order book

A run of documented calls never faults while the pool has room, represents the indexed book after
the same calls and emits the same messages (`BookCore.run_sim`).  When no id is reused while its
order rests, the indexed book is the plain list, and the run refines the reference book of
`ListBook.lean` message by message (`BookCore.refines_listBook`).

There are two reasons for a call to be refused, and both are in the invariant's hands.  The calls
are documented, which is asked of every caller; and the pool has a node for the order that comes to
rest, which `Admits` asks of each call in the state in which it comes.  A run that is known to have
returned had room for every call (`Simulates.foldlM_admits`), so results about returning runs need
no such condition.

The comparison with the plain list is made last and only here.  Everything else in this development
rests on the indexed book, which is faithful in the runs as well in which ids are used again.
-/
import YQuant.Matcher.Ownership
import YQuant.Matcher.Simulation

namespace YQuant

/-! ## 1. Runs of any documented calls -/

/-- A documented call that leaves no more resting orders than the pool holds. -/
def IndexedBook.Admits (band : PriceBand) (x : IndexedBook) (call : BookCall) : Prop :=
  call.Documented band ∧ (x.step call).book.resting.length ≤ kMaxOrderIds

namespace BookCore

/-- The book a run reaches, beside the indexed book after the same calls. -/
structure Simulates (symbolId : Nat) (band : PriceBand) (b : BookCore) (x : IndexedBook) :
    Prop where
  rep : ∃ addr, b.Rep addr x
  inv : IndexedBook.Inv band x
  band : b.band = band
  symbolId : b.symbolId = symbolId

theorem empty_simulates (symbolId : Nat) {band : PriceBand} (hband : band.isValid = true) :
    Simulates symbolId band (empty symbolId band) IndexedBook.empty where
  rep := ⟨id, empty_rep symbolId hband⟩
  inv := IndexedBook.Inv.empty
  band := rfl
  symbolId := rfl

theorem Simulates.step {symbolId : Nat} {band : PriceBand} {b : BookCore} {x : IndexedBook}
    (h : Simulates symbolId band b x) {call : BookCall} (hadmits : x.Admits band call) :
    ∃ b', b.apply call = .ok b' ∧ Simulates symbolId band b' (x.step call) ∧
      Emits b b' (x.responses symbolId call) (x.updates symbolId call) := by
  obtain ⟨addr, hrep⟩ := h.rep
  obtain ⟨rfl, rfl⟩ := h.band, h.symbolId
  obtain ⟨b', addr', happly, hrep', hemits⟩ := apply_sim h.inv hrep hadmits.1 hadmits.2
  exact ⟨b', happly, ⟨⟨addr', hrep'⟩, h.inv.step hadmits.1, hemits.band, hemits.symbolId⟩, hemits⟩

/-- A call that returns was admissible. -/
theorem Simulates.admits {symbolId : Nat} {band : PriceBand} {b b' : BookCore} {x : IndexedBook}
    (h : Simulates symbolId band b x) {call : BookCall} (hdoc : call.Documented band)
    (happly : b.apply call = .ok b') : x.Admits band call := by
  obtain ⟨addr, hrep⟩ := h.rep
  obtain ⟨rfl⟩ := h.band
  exact ⟨hdoc, room_of_apply h.inv hrep hdoc happly⟩

/-- **A documented call** goes through, or the pool has no node for the order. -/
theorem Simulates.step_or_full {symbolId : Nat} {band : PriceBand} {b : BookCore} {x : IndexedBook}
    (h : Simulates symbolId band b x) {call : BookCall} (hdoc : call.Documented band) :
    x.Admits band call ∨ b.apply call = .error (.assertion "Memory pool exhausted") := by
  obtain ⟨addr, hrep⟩ := h.rep
  obtain ⟨rfl⟩ := h.band
  rcases Nat.lt_or_ge kMaxOrderIds (x.step call).book.resting.length with hfull | hroom
  · exact .inr (apply_full h.inv hrep hdoc hfull)
  · exact .inl ⟨hdoc, hroom⟩

/-- **A run of documented calls** simulates the indexed book. -/
theorem run_sim (symbolId : Nat) {band : PriceBand} {calls : List BookCall}
    (hband : band.isValid = true)
    (hcalls : Run.AlongRun IndexedBook.step (IndexedBook.Admits band) .empty calls) :
    ∃ b, run symbolId band calls = .ok b ∧
      Simulates symbolId band b (calls.foldl IndexedBook.step .empty) ∧
      b.outgoingClientResponses =
        Run.outputs IndexedBook.step (IndexedBook.responses symbolId) .empty calls ∧
      b.outgoingMarketUpdates =
        Run.outputs IndexedBook.step (IndexedBook.updates symbolId) .empty calls := by
  obtain ⟨b, hrun, hsim, hemits⟩ := Run.foldlM_ok_of_sim (E := Emits) Emits.refl
    (fun h h' => h.trans h') (fun _ _ _ h hadmits => h.step hadmits)
    (empty_simulates symbolId hband) hcalls
  refine ⟨b, ?_, hsim, hemits.responses, hemits.updates⟩
  rw [run, init, hband]
  exact hrun

/-- **A run of documented calls that returns** had room for every call. -/
theorem Simulates.foldlM_admits {symbolId : Nat} {band : PriceBand} :
    ∀ {calls : List BookCall} {b b' : BookCore} {x : IndexedBook}, Simulates symbolId band b x →
      (∀ call ∈ calls, call.Documented band) → calls.foldlM apply b = .ok b' →
      Run.AlongRun IndexedBook.step (IndexedBook.Admits band) x calls
  | [], _, _, _, _, _, _ => trivial
  | call :: calls, b, b', x, h, hdoc, hrun => by
    obtain ⟨m, hm, hrest⟩ := Run.foldlM_cons_ok.mp hrun
    have hadmits := h.admits (hdoc call (by simp)) hm
    obtain ⟨m', hm', h', -⟩ := h.step hadmits
    obtain rfl := Except.ok.inj (hm.symm.trans hm')
    exact ⟨hadmits, foldlM_admits h' (fun c hc => hdoc c (by simp [hc])) hrest⟩

theorem admits_of_run {symbolId : Nat} {band : PriceBand} {calls : List BookCall} {b : BookCore}
    (hband : band.isValid = true) (hdoc : ∀ call ∈ calls, call.Documented band)
    (hrun : run symbolId band calls = .ok b) :
    Run.AlongRun IndexedBook.step (IndexedBook.Admits band) .empty calls := by
  rw [run, init, hband] at hrun
  exact (empty_simulates symbolId hband).foldlM_admits hdoc hrun

end BookCore

/-! ## 2. Runs in which no id is reused -/

namespace ListBook

/-- What the reference book asks of a call: the documented preconditions, no reuse of the id of a
resting order, and room for the order. -/
def Admits (band : PriceBand) (b : ListBook) (call : BookCall) : Prop :=
  call.Documented band ∧
    (match call with
      | .add clientId clientOrderId _ _ _ => ∀ r ∈ b.resting, ¬ r.HasKey clientId clientOrderId
      | .cancel .. => True) ∧
    (b.step call).resting.length ≤ kMaxOrderIds

instance (band : PriceBand) (b : ListBook) : (call : BookCall) → Decidable (b.Admits band call)
  | .add .. => inferInstanceAs (Decidable (_ ∧ _))
  | .cancel .. => inferInstanceAs (Decidable (_ ∧ _))

end ListBook

namespace IndexedBook.Complete

variable {band : PriceBand} {x : IndexedBook}

/-- With a complete index, one call is a call of the reference book. -/
theorem step_book (hc : Complete x) (h : Inv band x) (call : BookCall) :
    (x.step call).book = x.book.step call := by
  cases call with
  | add => rfl
  | cancel clientId clientOrderId =>
    simp only [IndexedBook.step, ListBook.step, hc.find_eq h]

theorem responses_eq (hc : Complete x) (h : Inv band x) (symbolId : Nat) (call : BookCall) :
    x.responses symbolId call = x.book.responses symbolId call := by
  cases call with
  | add => rfl
  | cancel clientId clientOrderId =>
    simp only [IndexedBook.responses, ListBook.responses, hc.find_eq h]

theorem updates_eq (hc : Complete x) (h : Inv band x) (symbolId : Nat) (call : BookCall) :
    x.updates symbolId call = x.book.updates symbolId call := by
  cases call with
  | add => rfl
  | cancel clientId clientOrderId =>
    simp only [IndexedBook.updates, ListBook.updates, hc.find_eq h]

theorem step (hc : Complete x) (h : Inv band x) {call : BookCall}
    (hadmits : x.book.Admits band call) : Complete (x.step call) := by
  cases call with
  | add clientId clientOrderId side price quantity =>
    exact (hc.step_add_iff h).mpr (Or.inr fun r hr hkey => absurd hkey (hadmits.2.1 r hr))
  | cancel clientId clientOrderId => exact hc.cancel h clientId clientOrderId

/-- **Without reuse of ids a run of the indexed book is a run of the reference book.** -/
theorem run_book (symbolId : Nat) :
    ∀ {calls : List BookCall} {x : IndexedBook}, Complete x → Inv band x →
      Run.AlongRun ListBook.step (ListBook.Admits band) x.book calls →
      Run.AlongRun IndexedBook.step (IndexedBook.Admits band) x calls ∧
        Run.outputs IndexedBook.step (IndexedBook.responses symbolId) x calls =
          Run.outputs ListBook.step (ListBook.responses symbolId) x.book calls ∧
        Run.outputs IndexedBook.step (IndexedBook.updates symbolId) x calls =
          Run.outputs ListBook.step (ListBook.updates symbolId) x.book calls
  | [], _, _, _, _ => ⟨trivial, rfl, rfl⟩
  | call :: calls, x, hc, h, hcalls => by
    obtain ⟨hadmits, hrest⟩ := hcalls
    have hstep := hc.step_book h call
    rw [← hstep] at hrest
    obtain ⟨h₁, h₂, h₃⟩ := run_book symbolId (hc.step h hadmits) (h.step hadmits.1) hrest
    refine ⟨⟨⟨hadmits.1, by rw [hstep]; exact hadmits.2.2⟩, h₁⟩, ?_, ?_⟩
    · rw [Run.outputs_cons, Run.outputs_cons, h₂, hc.responses_eq h, hstep]
    · rw [Run.outputs_cons, Run.outputs_cons, h₃, hc.updates_eq h, hstep]

end IndexedBook.Complete

namespace BookCore

/-- **The order book refines the plain list of resting orders.**  For any calls that the list
admits, and whatever the band, the arrays, bitmaps, links and tables of the book emit what the list
emits, message by message.  Any run of the book is a run of the indexed book (`run_sim`), whose
table is written the way the code writes its own; `ListBook.Admits` asks that no id is used again
while its order rests, and then that table finds the order that a search of the list finds.
Without it they part ways, because the entry of an id names the newer order only
(`Cancellable.lean`). -/
theorem refines_listBook (symbolId : Nat) (band : PriceBand) (calls : List BookCall)
    (hband : band.isValid = true)
    (hcalls : Run.AlongRun ListBook.step (ListBook.Admits band) .empty calls) :
    ∃ b, run symbolId band calls = .ok b ∧
      b.outgoingClientResponses =
        Run.outputs ListBook.step (ListBook.responses symbolId) .empty calls ∧
      b.outgoingMarketUpdates =
        Run.outputs ListBook.step (ListBook.updates symbolId) .empty calls := by
  obtain ⟨hadmits, hresponses, hupdates⟩ := IndexedBook.Complete.run_book symbolId
    (x := .empty) IndexedBook.Complete.empty IndexedBook.Inv.empty hcalls
  obtain ⟨b, hrun, -, hr, hu⟩ := run_sim symbolId hband hadmits
  exact ⟨b, hrun, hr.trans hresponses, hu.trans hupdates⟩

/-- Two resting sells, a buy that takes the better one and part of the other, and a cancel. -/
theorem refines_listBook_sweep :
    ∃ b, run 0 kDefaultPriceBand [.add 1 1 .sell 105 10, .add 2 1 .sell 103 4,
        .add 3 1 .buy 105 9, .cancel 1 1] = .ok b ∧
      b.outgoingClientResponses = Run.outputs ListBook.step (ListBook.responses 0) .empty
        [.add 1 1 .sell 105 10, .add 2 1 .sell 103 4, .add 3 1 .buy 105 9, .cancel 1 1] ∧
      b.outgoingMarketUpdates = Run.outputs ListBook.step (ListBook.updates 0) .empty
        [.add 1 1 .sell 105 10, .add 2 1 .sell 103 4, .add 3 1 .buy 105 9, .cancel 1 1] :=
  refines_listBook 0 kDefaultPriceBand _ (by decide) (by decide +kernel)

end BookCore

end YQuant
