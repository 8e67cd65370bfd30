/-
# Who entered an order

An order that rests was entered by a request of the client that owns it, so an order that a cancel
takes out of a book was entered by the client that cancels it, however often client order ids are
used again (`canceled_entered`).

The index of a book is no help in this: a client that uses an id again finds the newer order under
it.  What is followed is the order itself.  Every order that rests is known by the number of its
arrival at the book of its symbol, and `Entered` says which request came as that number
(`EnteredBy`); a trade changes quantities only (`Entered.kept`), so the request stays the one that
entered it for as long as the order rests.

The requests are those of the engine's queue, in the order in which it takes them.  Which socket a
request came from is not known here; the two are put together in `Sessions.lean`.
-/
import YQuant.Matcher.MatchingEngine

namespace YQuant

/-- A new order for a symbol. -/
def MatchingEngineClientRequest.Enters (symbolId : Nat) (r : MatchingEngineClientRequest) : Bool :=
  decide (r.type = .new ∧ r.symbolId = symbolId)

/-- Among the requests, `e` enters the order that is number `arrival` of its symbol. -/
def EnteredBy (requests : List MatchingEngineClientRequest) (symbolId arrival : Nat)
    (e : MatchingEngineClientRequest) : Prop :=
  ∃ earlier later, requests = earlier ++ e :: later ∧ e.Enters symbolId = true ∧
    earlier.countP (·.Enters symbolId) + 1 = arrival

variable {requests : List MatchingEngineClientRequest} {r e : MatchingEngineClientRequest}
  {symbolId arrival : Nat}

theorem EnteredBy.mem (h : EnteredBy requests symbolId arrival e) : e ∈ requests := by
  obtain ⟨earlier, later, rfl, -⟩ := h
  simp

theorem EnteredBy.snoc (h : EnteredBy requests symbolId arrival e) :
    EnteredBy (requests ++ [r]) symbolId arrival e := by
  obtain ⟨earlier, later, rfl, henters, hcount⟩ := h
  exact ⟨earlier, later ++ [r], by simp, henters, hcount⟩

namespace IndexedBooks

/-- **The orders of all books**, known by the requests that entered them. -/
structure Entered (requests : List MatchingEngineClientRequest) (xs : IndexedBooks) : Prop where
  arrivals : ∀ s, (xs s).book.arrivals = requests.countP (·.Enters s)
  owner : ∀ s, ∀ o ∈ (xs s).book.resting, ∃ e, EnteredBy requests s o.arrival e ∧
    o.HasKey e.clientId e.orderId

theorem Entered.empty : Entered [] .empty where
  arrivals _ := rfl
  owner _ _ ho := absurd ho List.not_mem_nil

/-- An order that has kept its identity keeps its provenance. -/
theorem Entered.kept {xs : IndexedBooks} (h : Entered requests xs) {s : Nat} {o o' : Resting}
    (ho' : o' ∈ (xs s).book.resting) {q : Nat} (heq : o = { o' with quantity := q }) :
    ∃ e, EnteredBy (requests ++ [r]) s o.arrival e ∧ o.HasKey e.clientId e.orderId := by
  obtain ⟨e, hentered, hkey⟩ := h.owner s o' ho'
  rw [heq]
  exact ⟨e, hentered.snoc, hkey⟩

theorem Entered.step {xs : IndexedBooks} (h : Entered requests xs) (hdoc : r.Documented) :
    Entered (requests ++ [r]) (xs.step r) := by
  obtain ⟨-, call, hcall, -⟩ := hdoc
  have hstep := IndexedBooks.step_call xs hcall
  rw [hstep]
  -- a request of another symbol enters nothing here
  have hother : ∀ s, s ≠ r.symbolId → r.Enters s = false := fun s hne => by
    simp [MatchingEngineClientRequest.Enters, Ne.symm hne]
  unfold MatchingEngineClientRequest.call? at hcall
  refine ⟨fun s => ?_, fun s => ?_⟩
  · rw [List.countP_append, List.countP_singleton]
    rcases eq_or_ne s r.symbolId with rfl | hne
    · rw [Function.update_self, ← h.arrivals]
      cases htype : r.type <;> rw [htype] at hcall <;> cases hcall
      · rw [IndexedBook.arrivals_add]
        simp [MatchingEngineClientRequest.Enters, htype]
      · rw [IndexedBook.arrivals_cancel]
        simp [MatchingEngineClientRequest.Enters, htype]
    · rw [Function.update_of_ne hne, hother s hne, h.arrivals]
      rfl
  · rcases eq_or_ne s r.symbolId with rfl | hne
    · rw [Function.update_self]
      intro o ho
      cases htype : r.type <;> rw [htype] at hcall <;> cases hcall
      · rcases IndexedBook.mem_step_add ho with ⟨o', ho', heq⟩ | ⟨harrival, hkey, -⟩
        · exact h.kept ho' heq
        · refine ⟨r, ⟨requests, [], rfl, ?_, ?_⟩, hkey⟩
          · simp [MatchingEngineClientRequest.Enters, htype]
          · rw [harrival, h.arrivals]
      · exact h.kept (IndexedBook.mem_step_cancel ho) rfl
    · rw [Function.update_of_ne hne]
      exact fun o ho => h.kept ho rfl

theorem Entered.foldl {rs : List MatchingEngineClientRequest} :
    ∀ {requests : List MatchingEngineClientRequest} {xs : IndexedBooks}, Entered requests xs →
      (∀ r ∈ rs, r.Documented) → Entered (requests ++ rs) (rs.foldl IndexedBooks.step xs) := by
  induction rs with
  | nil => exact fun h _ => by rwa [List.append_nil]
  | cons r rs ih =>
    intro requests xs h hdoc
    have h' := ih (h.step (hdoc r List.mem_cons_self)) fun r' hr' =>
      hdoc r' (List.mem_cons_of_mem r hr')
    rwa [List.append_assoc, List.singleton_append] at h'

end IndexedBooks

namespace MatchingEngine

/-- **Only the client that entered an order can cancel it.**  A response `CANCELED` answers a
request to cancel; the order that has left was entered by a request of the same client. -/
theorem canceled_entered {m m' : MatchingEngine} (hdoc : ∀ r ∈ requests, r.Documented)
    (hr : r.Documented) (hrun : run requests = .ok m) (hprocess : m.processClientRequest r = .ok m')
    {x : MatchingEngineClientResponse} (hx : x ∈ m'.newResponses m) (htype : x.type = .canceled) :
    r.type = .canceled ∧ ∃ arrival e, EnteredBy requests r.symbolId arrival e ∧
      x.marketOrderId = arrival % kWord64 ∧ e.clientId = r.clientId := by
  obtain ⟨hsim, -⟩ := run_simulates hdoc hrun
  have hentered := IndexedBooks.Entered.empty.foldl hdoc
  rw [List.nil_append] at hentered
  have hadmits := hsim.admits hr hprocess
  obtain ⟨m₁, hprocess', -, hemits⟩ := process_sim hsim hadmits
  obtain rfl := Except.ok.inj (hprocess.symm.trans hprocess')
  rw [hemits.newResponses] at hx
  generalize requests.foldl IndexedBooks.step .empty = xs at *
  obtain ⟨hsymbol, call, hcall, -⟩ := hr
  obtain ⟨b, -, hbook⟩ := hsim r.symbolId hsymbol
  rw [IndexedBooks.responses, Option.mem_def.mp hcall] at hx
  unfold MatchingEngineClientRequest.call? at hcall
  cases hrtype : r.type <;> rw [hrtype] at hcall <;> cases hcall
  · -- a new order is never answered by a cancel
    rcases List.mem_cons.mp hx with rfl | hx
    · cases htype
    · obtain ⟨f, -, hf⟩ := List.mem_flatMap.mp hx
      simp only [Fill.responses, List.mem_cons, List.not_mem_nil, or_false] at hf
      rcases hf with rfl | rfl <;> cases htype
  · refine ⟨rfl, ?_⟩
    simp only [IndexedBook.responses] at hx
    cases hfind : (xs r.symbolId).find r.clientId r.orderId with
    | none =>
      rw [hfind] at hx
      rw [List.mem_singleton.mp hx] at htype
      cases htype
    | some o =>
      rw [hfind] at hx
      obtain ⟨ho, -, hkey⟩ := hbook.inv.find_some hfind
      obtain ⟨e, he, hekey⟩ := hentered.owner r.symbolId o ho
      refine ⟨o.arrival, e, he, ?_, hekey.1.symm.trans hkey.1⟩
      rw [List.mem_singleton.mp hx]
      rfl

end MatchingEngine

end YQuant
