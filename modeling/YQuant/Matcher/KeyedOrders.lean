/-
# A call, as one order of one client sees it

Of all that a book answers to a call, a client hears what concerns its own order ids.  `tellsOf`
reads the responses that concern one id, and `restingQuantity` is what rests under it.  For a client
that uses no id again while an order rests under it, a call of anybody else fills its orders
(`fills_of_other`), its own new order is accepted and filled (`accepted_of_add`), and its own cancel
returns what rests or comes too late (`cancel_working`, `cancel_late`).

All of it is about the indexed books.  Whether an order can be found by its id depends on the entry
of the index, so the lemmas ask that the entries of this one client are complete (`CompleteFor`);
what other clients do with their ids does not matter, as an entry belongs to one client.  A client
that enters no order under an id still in use keeps its entries complete (`CompleteFor.step`).

The last section lifts each of them from one book to the books of all symbols, where a request is a
call on one of them.  What a client does between its calls, and when it hears the answers, is the
subject of `TradingSystem.lean`.
-/
import YQuant.Lib.OrderSession
import YQuant.Matcher.Ownership
import YQuant.Matcher.MatchingEngine

namespace YQuant

open OrderSession (Tell Fills)

/-! ## 1. What a client hears -/

/-- What a response tells the client. -/
def MatchingEngineClientResponse.tell? (r : MatchingEngineClientResponse) : Option Tell :=
  match r.type with
  | .accepted => some .accepted
  | .filled => some (.filled r.executedQuantity r.remainingQuantity)
  | .canceled => some (.canceled r.remainingQuantity)
  | .cancelRejected => some .rejected
  | .invalid | .other _ => none

theorem MatchingEngineClientResponse.tell?_eq_canceled {r : MatchingEngineClientResponse}
    {left : Nat} : r.tell? = some (.canceled left) ↔
      r.type = .canceled ∧ r.remainingQuantity = left := by
  unfold tell?
  cases r.type <;> simp

/-- The response concerns an order id of a client in a book. -/
def MatchingEngineClientResponse.Concerns (r : MatchingEngineClientResponse)
    (symbolId clientId clientOrderId : Nat) : Prop :=
  r.symbolId = symbolId ∧ r.clientId = clientId ∧ r.clientOrderId = clientOrderId

instance (r : MatchingEngineClientResponse) (s c n : Nat) : Decidable (r.Concerns s c n) :=
  inferInstanceAs (Decidable (_ ∧ _))

/-- What responses tell a client about one of its order ids. -/
def tellsOf (rs : List MatchingEngineClientResponse) (symbolId clientId clientOrderId : Nat) :
    List Tell :=
  rs.filterMap fun r => if r.Concerns symbolId clientId clientOrderId then r.tell? else none

section TellsOf

variable {rs rs' : List MatchingEngineClientResponse} {r : MatchingEngineClientResponse}
  {s c n : Nat}

@[simp] theorem tellsOf_nil : tellsOf [] s c n = [] := rfl

theorem tellsOf_append : tellsOf (rs ++ rs') s c n = tellsOf rs s c n ++ tellsOf rs' s c n :=
  List.filterMap_append

theorem tellsOf_cons_of_pos {t : Tell} (hr : r.Concerns s c n) (ht : r.tell? = some t) :
    tellsOf (r :: rs) s c n = t :: tellsOf rs s c n := by
  rw [tellsOf, List.filterMap_cons_some (by rw [if_pos hr, ht])]
  rfl

theorem tellsOf_cons_of_neg (hr : ¬ r.Concerns s c n) :
    tellsOf (r :: rs) s c n = tellsOf rs s c n :=
  List.filterMap_cons_none (if_neg hr)

theorem tellsOf_cons_of_none (hr : r.tell? = none) :
    tellsOf (r :: rs) s c n = tellsOf rs s c n :=
  List.filterMap_cons_none (by rw [hr, ite_self])

theorem tellsOf_eq_nil (h : ∀ r ∈ rs, ¬ r.Concerns s c n) : tellsOf rs s c n = [] := by
  induction rs with
  | nil => rfl
  | cons r rs ih =>
    rw [tellsOf_cons_of_neg (h r List.mem_cons_self)]
    exact ih fun r' hr' => h r' (List.mem_cons_of_mem r hr')

/-- The responses of other clients do not count. -/
theorem tellsOf_filter : tellsOf (rs.filter fun r => r.clientId = c) s c n = tellsOf rs s c n := by
  induction rs with
  | nil => rfl
  | cons r rs ih =>
    by_cases hc : r.clientId = c
    · rw [List.filter_cons_of_pos (by simpa using hc), ← List.singleton_append, tellsOf_append, ih,
        ← tellsOf_append, List.singleton_append]
    · rw [List.filter_cons_of_neg (by simpa using hc), ih, tellsOf_cons_of_neg]
      exact fun hr => hc hr.2.1

theorem mem_tellsOf {t : Tell} :
    t ∈ tellsOf rs s c n ↔ ∃ r ∈ rs, r.Concerns s c n ∧ r.tell? = some t := by
  unfold tellsOf
  rw [List.mem_filterMap]
  refine exists_congr fun r => and_congr_right fun _ => ?_
  split
  · next hr => simp [hr]
  · next hr => simp [hr]

end TellsOf

/-! ## 2. What rests under an id -/

/-- The quantity that rests under an order id of a client. -/
def restingQuantity (l : List Resting) (clientId clientOrderId : Nat) : Nat :=
  quantityOf (fun o => o.HasKey clientId clientOrderId) l

/-- No two orders rest under the id. -/
def SingleKey (l : List Resting) (clientId clientOrderId : Nat) : Prop :=
  ∀ o ∈ l, ∀ o' ∈ l, o.HasKey clientId clientOrderId → o'.HasKey clientId clientOrderId →
    o.arrival = o'.arrival

section RestingQuantity

variable {band : PriceBand} {l l' : List Resting} {m : Resting} {e c n : Nat}

theorem SingleKey.takeFrom (h : SingleKey l c n) : SingleKey (takeFrom l m e) c n := by
  intro o ho o' ho' hkey hkey'
  obtain ⟨r, hr, heq, -⟩ := mem_takeFrom ho
  obtain ⟨r', hr', heq', -⟩ := mem_takeFrom ho'
  rw [heq] at hkey
  rw [heq'] at hkey'
  rw [heq, heq']
  exact h r hr r' hr' hkey hkey'

theorem restingQuantity_append (l₁ l₂ : List Resting) :
    restingQuantity (l₁ ++ l₂) c n = restingQuantity l₁ c n + restingQuantity l₂ c n :=
  quantityOf_append _ l₁ l₂

theorem restingQuantity_single (o : Resting) :
    restingQuantity [o] c n = if o.HasKey c n then o.quantity else 0 := by
  unfold restingQuantity
  rw [quantityOf_cons]
  simp [quantityOf]

theorem restingQuantity_eq_zero (h : ∀ o ∈ l, ¬ o.HasKey c n) : restingQuantity l c n = 0 :=
  quantityOf_eq_zero (by simpa using h)

theorem restingQuantity_takeFrom (hl : Orderly band l) (hm : m ∈ l) (he : e ≤ m.quantity) :
    restingQuantity (takeFrom l m e) c n + (if m.HasKey c n then e else 0) =
      restingQuantity l c n := by
  have htake := quantityOf_takeFrom (p := fun o => decide (o.HasKey c n)) (fun _ _ => rfl)
    hl.arrivals hm he
  simpa only [restingQuantity, decide_eq_true_eq] using htake

/-- The only order of an id rests with its own quantity. -/
theorem restingQuantity_of_mem (hl : Orderly band l) (hs : SingleKey l c n) (hm : m ∈ l)
    (hkey : m.HasKey c n) : restingQuantity l c n = m.quantity := by
  have htake := restingQuantity_takeFrom (c := c) (n := n) hl hm le_rfl
  rw [if_pos hkey, restingQuantity_eq_zero, Nat.zero_add] at htake
  · exact htake.symm
  · intro o ho hkey'
    obtain ⟨o', ho', heq, -, hne⟩ := mem_takeFrom ho
    rw [heq] at hkey'
    have harrival := hs o' ho' m hm hkey' hkey
    rw [heq] at hne
    exact (hne harrival).1 rfl

theorem exists_of_restingQuantity_pos (h : 0 < restingQuantity l c n) :
    ∃ o ∈ l, o.HasKey c n := by
  by_contra hnone
  rw [restingQuantity_eq_zero fun o ho hkey => hnone ⟨o, ho, hkey⟩] at h
  exact Nat.lt_irrefl 0 h

theorem restingQuantity_pos (hl : Orderly band l) (hm : m ∈ l) (hkey : m.HasKey c n) :
    0 < restingQuantity l c n := by
  have htake := restingQuantity_takeFrom (c := c) (n := n) hl hm le_rfl
  rw [if_pos hkey] at htake
  have := hl.positive m hm
  omega

end RestingQuantity

/-! ## 3. The trades of a taker -/

section Trades

variable {band : PriceBand} {l l' : List Resting} {q q' : Nat} {fs : List Fill} {side : Side}
  {limit : Int} {c n symbolId taker takerId number : Nat}

/-- **The fills of resting orders.** -/
theorem Sweeps.fills_maker (hs : Sweeps side limit l q fs l' q') (hl : Orderly band l)
    (hkey : SingleKey l c n) (hother : ¬ (taker = c ∧ takerId = n)) :
    Fills (restingQuantity l c n)
      (tellsOf (fs.flatMap (Fill.responses symbolId taker takerId number side)) symbolId c n)
      (restingQuantity l' c n) := by
  induction hs with
  | done => exact .nil
  | @trade l l' q q' m fs hq hm _ ih =>
    obtain ⟨hmem, -⟩ := bestMaker_mem hm
    have hle : min q m.quantity ≤ m.quantity := min_le_right _ _
    have hrest := ih (hl.takeFrom hmem hle) hkey.takeFrom
    have htake := restingQuantity_takeFrom (c := c) (n := n) hl hmem hle
    rw [List.flatMap_cons, tellsOf_append, Fill.responses,
      tellsOf_cons_of_neg fun hr => hother ⟨hr.2.1, hr.2.2⟩]
    by_cases hmaker : m.HasKey c n
    · rw [if_pos hmaker, restingQuantity_of_mem hl hkey hmem hmaker] at htake
      rw [tellsOf_cons_of_pos ⟨rfl, hmaker.1, hmaker.2⟩ rfl, tellsOf_nil,
        restingQuantity_of_mem hl hkey hmem hmaker]
      have hleft : restingQuantity (takeFrom l m (min q m.quantity)) c n =
          m.quantity - min q m.quantity := by omega
      rw [hleft] at hrest
      have hpos := hl.positive m hmem
      exact .cons (lt_min hq hpos) (Nat.sub_add_cancel hle) hrest
    · rw [if_neg hmaker, Nat.add_zero] at htake
      rw [tellsOf_cons_of_neg fun hr => hmaker ⟨hr.2.1, hr.2.2⟩, tellsOf_nil, List.nil_append,
        ← htake]
      exact hrest

/-- **The fills of the taker**, when no order rests under its id. -/
theorem Sweeps.fills_taker (hs : Sweeps side limit l q fs l' q') (hl : Orderly band l)
    (hfresh : ∀ o ∈ l, ¬ o.HasKey c n) :
    Fills q (tellsOf (fs.flatMap (Fill.responses symbolId c n number side)) symbolId c n) q' := by
  induction hs with
  | done => exact .nil
  | @trade l l' q q' m fs hq hm _ ih =>
    obtain ⟨hmem, -⟩ := bestMaker_mem hm
    have hpos := hl.positive m hmem
    rw [List.flatMap_cons, tellsOf_append, Fill.responses, tellsOf_cons_of_pos ⟨rfl, rfl, rfl⟩ rfl,
      tellsOf_cons_of_neg fun hr => hfresh m hmem ⟨hr.2.1, hr.2.2⟩, tellsOf_nil]
    refine .cons (lt_min hq hpos) (Nat.sub_add_cancel (min_le_left _ _))
      (ih (hl.takeFrom hmem (min_le_right _ _)) fun o ho hkey => ?_)
    obtain ⟨o', ho', heq, -⟩ := mem_takeFrom ho
    rw [heq] at hkey
    exact hfresh o' ho' hkey

/-- The makers rested before the trades. -/
theorem Sweeps.maker_of_mem (hs : Sweeps side limit l q fs l' q') {f : Fill} (hf : f ∈ fs) :
    ∃ o ∈ l, f.maker = { o with quantity := f.maker.quantity } := by
  induction hs with
  | done => cases hf
  | trade _ hm _ ih =>
    rcases List.mem_cons.mp hf with rfl | hf
    · exact ⟨_, (bestMaker_mem hm).1, rfl⟩
    · obtain ⟨o, ho, heq⟩ := ih hf
      obtain ⟨o', ho', heq', -⟩ := mem_takeFrom ho
      exact ⟨o', ho', by rw [heq, heq']⟩

end Trades

/-! ## 4. Calls -/

/-- The client that makes a call. -/
def BookCall.clientId : BookCall → Nat
  | .add clientId _ _ _ _ => clientId
  | .cancel clientId _ => clientId

/-- The call is about an order id of a client. -/
def BookCall.HasKey (clientId clientOrderId : Nat) : BookCall → Prop
  | .add c n _ _ _ => c = clientId ∧ n = clientOrderId
  | .cancel c n => c = clientId ∧ n = clientOrderId

namespace IndexedBook

variable {band : PriceBand} {x : IndexedBook} {c n symbolId quantity : Nat} {side : Side}
  {price : Int}

theorem CompleteFor.singleKey (hc : CompleteFor c x) (h : Inv band x) (n : Nat) :
    SingleKey x.book.resting c n := by
  intro o ho o' ho' hkey hkey'
  rw [hc.eq_of_key h ho ho' hkey.1 (by rwa [hkey.1, hkey.2])]

/-- What is left of a new order comes to rest. -/
theorem restingQuantity_add (x : IndexedBook) (clientId clientOrderId : Nat) (side : Side)
    (price : Int) (quantity : Nat) :
    restingQuantity (x.step (.add clientId clientOrderId side price quantity)).book.resting c n =
      restingQuantity (x.traded side price quantity).book.resting c n +
        if clientId = c ∧ clientOrderId = n then x.book.left side price quantity else 0 := by
  rw [step_add]
  split
  · next hleft => simp [hleft]
  · exact (restingQuantity_append _ _).trans (congrArg _ (restingQuantity_single _))

/-- What rests under the other ids when an order is cancelled. -/
theorem restingQuantity_cancel (h : Inv band x) {clientId clientOrderId : Nat}
    (hother : ¬ (clientId = c ∧ clientOrderId = n)) :
    restingQuantity (x.step (.cancel clientId clientOrderId)).book.resting c n =
      restingQuantity x.book.resting c n := by
  cases hf : x.find clientId clientOrderId with
  | none => rw [h.step_cancel_none hf]
  | some o =>
    obtain ⟨ho, -, hkey⟩ := h.find_some hf
    have htake := restingQuantity_takeFrom (c := c) (n := n) h.orderly ho le_rfl
    have hnot : ¬ o.HasKey c n := fun hk =>
      hother ⟨hkey.1.symm.trans hk.1, hkey.2.symm.trans hk.2⟩
    rw [takeFrom, if_pos rfl, if_neg hnot] at htake
    simpa only [step, hf, ListBook.remove, Nat.add_zero] using htake

/-- **A call about another order** fills the orders of an id, and is heard of no otherwise. -/
theorem fills_of_other (h : Inv band x) (hc : CompleteFor c x) {call : BookCall}
    (hother : ¬ call.HasKey c n) :
    Fills (restingQuantity x.book.resting c n) (tellsOf (x.responses symbolId call) symbolId c n)
      (restingQuantity (x.step call).book.resting c n) := by
  cases call with
  | add clientId clientOrderId side price quantity =>
    have hkey : ¬ (clientId = c ∧ clientOrderId = n) := hother
    rw [restingQuantity_add, if_neg hkey, Nat.add_zero, responses, ListBook.addResponses,
      tellsOf_cons_of_neg fun hr => hkey ⟨hr.2.1, hr.2.2⟩]
    exact (sweep_sweeps side price x.book.resting quantity).fills_maker h.orderly
      (hc.singleKey h n) hkey
  | cancel clientId clientOrderId =>
    have hkey : ¬ (clientId = c ∧ clientOrderId = n) := hother
    have hnone : tellsOf (x.responses symbolId (.cancel clientId clientOrderId)) symbolId c n =
        [] := by
      refine tellsOf_eq_nil fun r hr hconcerns => hkey ?_
      simp only [responses, ListBook.cancelResponses] at hr
      split at hr <;> rw [List.mem_singleton.mp hr] at hconcerns <;> exact hconcerns.2
    rw [hnone, restingQuantity_cancel h hkey]
    exact .nil

/-- **A new order** under an id that is free is accepted and filled, and the rest comes to rest. -/
theorem accepted_of_add (h : Inv band x) (hfresh : ∀ o ∈ x.book.resting, ¬ o.HasKey c n) :
    ∃ fills, tellsOf (x.responses symbolId (.add c n side price quantity)) symbolId c n =
        .accepted :: fills ∧
      Fills quantity fills
        (restingQuantity (x.step (.add c n side price quantity)).book.resting c n) := by
  have hs := sweep_sweeps side price x.book.resting quantity
  refine ⟨_, tellsOf_cons_of_pos ⟨rfl, rfl, rfl⟩ rfl, ?_⟩
  rw [restingQuantity_add, if_pos ⟨rfl, rfl⟩, restingQuantity_eq_zero, Nat.zero_add]
  · exact hs.fills_taker h.orderly hfresh
  · intro o ho hkey
    obtain ⟨o', ho', heq⟩ := hs.mem_of_mem ho
    rw [heq] at hkey
    exact hfresh o' ho' hkey

/-- **A cancel of an order at work** returns what rests. -/
theorem cancel_working (symbolId : Nat) (h : Inv band x) (hc : CompleteFor c x)
    (hpos : 0 < restingQuantity x.book.resting c n) :
    tellsOf (x.responses symbolId (.cancel c n)) symbolId c n =
        [.canceled (restingQuantity x.book.resting c n)] ∧
      restingQuantity (x.step (.cancel c n)).book.resting c n = 0 := by
  obtain ⟨o, ho, hkey⟩ := exists_of_restingQuantity_pos hpos
  have hquantity := restingQuantity_of_mem h.orderly (hc.singleKey h n) ho hkey
  have hfind : x.find c n = some o := by
    rw [← hkey.1, ← hkey.2]
    exact h.find_of_index ho (hc o ho hkey.1)
  constructor
  · rw [responses, hfind, hquantity]
    exact tellsOf_cons_of_pos ⟨rfl, rfl, rfl⟩ rfl
  · have htake := restingQuantity_takeFrom (c := c) (n := n) h.orderly ho le_rfl
    rw [takeFrom, if_pos rfl, if_pos hkey, hquantity] at htake
    simp only [step, hfind, ListBook.remove]
    omega

/-- **A cancel of an order that is not at work** is rejected. -/
theorem cancel_late (symbolId : Nat) (h : Inv band x)
    (hzero : restingQuantity x.book.resting c n = 0) :
    tellsOf (x.responses symbolId (.cancel c n)) symbolId c n = [.rejected] ∧
      restingQuantity (x.step (.cancel c n)).book.resting c n = 0 := by
  have hfind : x.find c n = none := by
    by_contra hsome
    obtain ⟨o, hf⟩ := Option.ne_none_iff_exists'.mp hsome
    obtain ⟨ho, -, hkey⟩ := h.find_some hf
    exact Nat.ne_of_gt (restingQuantity_pos h.orderly ho hkey) hzero
  constructor
  · rw [responses, hfind]
    exact tellsOf_cons_of_pos ⟨rfl, rfl, rfl⟩ rfl
  · rw [h.step_cancel_none hfind]
    exact hzero

/-! ## 5. Whose fills, and on which side -/

/-- An order that rests after a call rested before or was entered by the call. -/
theorem mem_step {call : BookCall} {o : Resting} (ho : o ∈ (x.step call).book.resting) :
    (∃ o' ∈ x.book.resting, o = { o' with quantity := o.quantity }) ∨
      ∃ price quantity, call = .add o.clientId o.clientOrderId o.side price quantity := by
  cases call with
  | add clientId clientOrderId side price quantity =>
    rcases mem_step_add ho with hold | ⟨-, hkey, hside⟩
    · exact .inl hold
    · exact .inr ⟨price, quantity, by rw [hkey.1, hkey.2, hside]⟩
  | cancel clientId clientOrderId => exact .inl ⟨o, mem_step_cancel ho, rfl⟩

/-- **A fill is of an order that rested before the call, or of the order the call enters**, and
names its side. -/
theorem filled_of_mem {call : BookCall} {r : MatchingEngineClientResponse}
    (hr : r ∈ x.responses symbolId call) (htype : r.type = .filled) :
    (∃ o ∈ x.book.resting, o.HasKey r.clientId r.clientOrderId ∧ o.side = r.side) ∨
      ∃ price quantity, call = .add r.clientId r.clientOrderId r.side price quantity := by
  cases call with
  | add clientId clientOrderId side price quantity =>
    rcases List.mem_cons.mp hr with rfl | hr
    · cases htype
    · obtain ⟨f, hf, hr⟩ := List.mem_flatMap.mp hr
      simp only [Fill.responses, List.mem_cons, List.not_mem_nil, or_false] at hr
      rcases hr with rfl | rfl
      · exact .inr ⟨price, quantity, rfl⟩
      · obtain ⟨o, ho, heq⟩ := (sweep_sweeps side price x.book.resting quantity).maker_of_mem hf
        rw [heq]
        exact .inl ⟨o, ho, ⟨rfl, rfl⟩, rfl⟩
  | cancel clientId clientOrderId =>
    simp only [responses, ListBook.cancelResponses] at hr
    split at hr <;> rw [List.mem_singleton.mp hr] at htype <;> cases htype

/-- The responses of a call name the symbol of the book. -/
theorem responses_symbol {call : BookCall} {r : MatchingEngineClientResponse}
    (hr : r ∈ x.responses symbolId call) : r.symbolId = symbolId := by
  cases call with
  | add clientId clientOrderId side price quantity =>
    rcases List.mem_cons.mp hr with rfl | hr
    · rfl
    · obtain ⟨f, -, hr⟩ := List.mem_flatMap.mp hr
      simp only [Fill.responses, List.mem_cons, List.not_mem_nil, or_false] at hr
      rcases hr with rfl | rfl <;> rfl
  | cancel clientId clientOrderId =>
    simp only [responses, ListBook.cancelResponses] at hr
    split at hr <;> rw [List.mem_singleton.mp hr]

/-- A response names the client of the call, or the client of an order that rested before it. -/
theorem client_of_mem {call : BookCall} {r : MatchingEngineClientResponse}
    (hr : r ∈ x.responses symbolId call) :
    (∃ o ∈ x.book.resting, r.clientId = o.clientId) ∨ r.clientId = call.clientId := by
  cases call with
  | add clientId clientOrderId side price quantity =>
    rcases List.mem_cons.mp hr with rfl | hr
    · exact .inr rfl
    · obtain ⟨f, hf, hr⟩ := List.mem_flatMap.mp hr
      simp only [Fill.responses, List.mem_cons, List.not_mem_nil, or_false] at hr
      rcases hr with rfl | rfl
      · exact .inr rfl
      · obtain ⟨o, ho, heq⟩ := (sweep_sweeps side price x.book.resting quantity).maker_of_mem hf
        rw [heq]
        exact .inl ⟨o, ho, rfl⟩
  | cancel clientId clientOrderId =>
    simp only [responses, ListBook.cancelResponses] at hr
    split at hr
    · rw [List.mem_singleton.mp hr]
      exact .inr rfl
    · rw [List.mem_singleton.mp hr]
      exact .inr rfl

end IndexedBook

/-! ## 6. Requests -/

/-- The two kinds of calls. -/
theorem MatchingEngineClientRequest.call?_cases {r : MatchingEngineClientRequest} {call : BookCall}
    (h : r.call? = some call) :
    (r.type = .new ∧ call = .add r.clientId r.orderId r.side r.price r.quantity) ∨
      (r.type = .canceled ∧ call = .cancel r.clientId r.orderId) := by
  unfold call? at h
  cases htype : r.type <;> rw [htype] at h <;> cases h
  · exact .inl ⟨rfl, rfl⟩
  · exact .inr ⟨rfl, rfl⟩

namespace IndexedBooks

variable {xs : IndexedBooks} {r : MatchingEngineClientRequest} {b c n : Nat}

/-- What rests under an order id of a client in the book of a symbol. -/
def working (xs : IndexedBooks) (symbolId clientId clientOrderId : Nat) : Nat :=
  restingQuantity (xs symbolId).book.resting clientId clientOrderId

/-- Every resting order of a client is named by the entry of its own id. -/
def CompleteFor (client : Nat) (xs : IndexedBooks) : Prop :=
  ∀ s, s < kMaxSymbols → (xs s).CompleteFor client

theorem CompleteFor.empty : CompleteFor c .empty := fun _ _ => IndexedBook.CompleteFor.empty

/-- A free id is used by no resting order. -/
theorem Inv.free_of_working (h : Inv xs) (hb : b < kMaxSymbols) (hzero : xs.working b c n = 0) :
    ∀ o ∈ (xs b).book.resting, ¬ o.HasKey c n := fun _ ho hkey =>
  Nat.ne_of_gt (restingQuantity_pos (h b hb).orderly ho hkey) hzero

/-- The responses to a request name its symbol. -/
theorem responses_symbol {x : MatchingEngineClientResponse} (hx : x ∈ xs.responses r) :
    x.symbolId = r.symbolId := by
  unfold responses at hx
  split at hx
  · cases hx
  · exact IndexedBook.responses_symbol hx

/-- A response to a request names its client, or the client of an order that rested before it. -/
theorem client_of_mem {x : MatchingEngineClientResponse} (hx : x ∈ xs.responses r) :
    (∃ o ∈ (xs r.symbolId).book.resting, x.clientId = o.clientId) ∨ x.clientId = r.clientId := by
  cases hcall : r.call? with
  | none =>
    rw [responses, hcall] at hx
    cases hx
  | some call =>
    rw [responses_call _ hcall] at hx
    rcases IndexedBook.client_of_mem hx with hold | hclient
    · exact .inl hold
    · rcases MatchingEngineClientRequest.call?_cases hcall with ⟨-, rfl⟩ | ⟨-, rfl⟩
      · exact .inr hclient
      · exact .inr hclient

/-- **A request keeps the entries of a client** that enters no order under an id still in use. -/
theorem CompleteFor.step (hc : CompleteFor c xs) (h : Inv xs) (hdoc : r.Documented)
    (hfree : r.type = .new → r.clientId = c → xs.working r.symbolId c r.orderId = 0) :
    CompleteFor c (xs.step r) := by
  obtain ⟨hsymbol, call, hcall, -⟩ := hdoc
  rw [step_call _ hcall]
  intro s hs
  rcases eq_or_ne s r.symbolId with rfl | hne
  · rw [Function.update_self]
    refine (hc r.symbolId hs).step (h r.symbolId hs) ?_
    rintro n side price quantity rfl
    rcases MatchingEngineClientRequest.call?_cases hcall with ⟨htype, heq⟩ | ⟨-, heq⟩
    · cases heq
      exact h.free_of_working hs (hfree htype rfl)
    · cases heq
  · rw [Function.update_of_ne hne]
    exact hc s hs

/-- **A request about another order** fills the orders of an id, and is heard of no otherwise. -/
theorem fills_of_other (h : Inv xs) (hc : CompleteFor c xs) (hdoc : r.Documented)
    (hother : ¬ (b = r.symbolId ∧ r.clientId = c ∧ r.orderId = n)) :
    Fills (xs.working b c n) (tellsOf (xs.responses r) b c n) ((xs.step r).working b c n) := by
  obtain ⟨hsymbol, call, hcall, -⟩ := hdoc
  rcases eq_or_ne b r.symbolId with rfl | hne
  · rw [working, working, step_call _ hcall, responses_call _ hcall, Function.update_self]
    refine IndexedBook.fills_of_other (h _ hsymbol) (hc _ hsymbol) fun hkey => hother ⟨rfl, ?_⟩
    rcases MatchingEngineClientRequest.call?_cases hcall with ⟨-, rfl⟩ | ⟨-, rfl⟩ <;> exact hkey
  · have hnone : tellsOf (xs.responses r) b c n = [] :=
      tellsOf_eq_nil fun x hx hconcerns => hne (hconcerns.1.symm.trans (responses_symbol hx))
    rw [hnone, working, working, step_call _ hcall, Function.update_of_ne hne]
    exact .nil

/-- **A new order** under a free id is accepted and filled, and the rest comes to rest. -/
theorem accepted_of_new (h : Inv xs) (hdoc : r.Documented) (htype : r.type = .new)
    (hfree : xs.working r.symbolId r.clientId r.orderId = 0) :
    ∃ fills, tellsOf (xs.responses r) r.symbolId r.clientId r.orderId = .accepted :: fills ∧
      Fills r.quantity fills ((xs.step r).working r.symbolId r.clientId r.orderId) := by
  obtain ⟨hsymbol, -⟩ := hdoc
  have hcall : r.call? = some (.add r.clientId r.orderId r.side r.price r.quantity) := by
    rw [MatchingEngineClientRequest.call?, htype]
  rw [working, step_call _ hcall, responses_call _ hcall, Function.update_self]
  exact IndexedBook.accepted_of_add (h _ hsymbol) (h.free_of_working hsymbol hfree)

theorem call?_of_canceled (htype : r.type = .canceled) :
    r.call? = some (.cancel r.clientId r.orderId) := by
  rw [MatchingEngineClientRequest.call?, htype]

/-- **A cancel of an order at work** returns what rests. -/
theorem cancel_working (h : Inv xs) (hc : CompleteFor r.clientId xs) (hdoc : r.Documented)
    (htype : r.type = .canceled) (hpos : 0 < xs.working r.symbolId r.clientId r.orderId) :
    tellsOf (xs.responses r) r.symbolId r.clientId r.orderId =
        [.canceled (xs.working r.symbolId r.clientId r.orderId)] ∧
      (xs.step r).working r.symbolId r.clientId r.orderId = 0 := by
  obtain ⟨hsymbol, -⟩ := hdoc
  have hcall := call?_of_canceled htype
  have hcancel := IndexedBook.cancel_working r.symbolId (h _ hsymbol) (hc _ hsymbol) hpos
  rw [responses_call _ hcall]
  refine ⟨hcancel.1, ?_⟩
  rw [working, step_call _ hcall, Function.update_self]
  exact hcancel.2

/-- **A cancel of an order that is not at work** is rejected. -/
theorem cancel_late (h : Inv xs) (hdoc : r.Documented) (htype : r.type = .canceled)
    (hzero : xs.working r.symbolId r.clientId r.orderId = 0) :
    tellsOf (xs.responses r) r.symbolId r.clientId r.orderId = [.rejected] ∧
      (xs.step r).working r.symbolId r.clientId r.orderId = 0 := by
  obtain ⟨hsymbol, -⟩ := hdoc
  have hcall := call?_of_canceled htype
  have hcancel := IndexedBook.cancel_late r.symbolId (h _ hsymbol) hzero
  rw [responses_call _ hcall]
  refine ⟨hcancel.1, ?_⟩
  rw [working, step_call _ hcall, Function.update_self]
  exact hcancel.2

/-- An order that rests after a request rested before or was entered by the request. -/
theorem mem_step {o : Resting} (ho : o ∈ (xs.step r b).book.resting) :
    (∃ o' ∈ (xs b).book.resting, o = { o' with quantity := o.quantity }) ∨
      b = r.symbolId ∧ r.type = .new ∧ o.HasKey r.clientId r.orderId ∧ o.side = r.side := by
  cases hcall : r.call? with
  | none =>
    rw [step, hcall] at ho
    exact .inl ⟨o, ho, rfl⟩
  | some call =>
    rw [step_call _ hcall] at ho
    rcases eq_or_ne b r.symbolId with rfl | hne
    · rw [Function.update_self] at ho
      rcases IndexedBook.mem_step ho with hold | ⟨price, quantity, rfl⟩
      · exact .inl hold
      · rcases MatchingEngineClientRequest.call?_cases hcall with ⟨htype, heq⟩ | ⟨-, heq⟩
        · obtain ⟨hclient, hid, hside, -⟩ := BookCall.add.inj heq
          exact .inr ⟨rfl, htype, ⟨hclient, hid⟩, hside⟩
        · cases heq
    · rw [Function.update_of_ne hne] at ho
      exact .inl ⟨o, ho, rfl⟩

/-- **A fill is of an order that rested before the request, or of the order the request enters**,
and names its side. -/
theorem filled_of_mem {x : MatchingEngineClientResponse} (hx : x ∈ xs.responses r)
    (htype : x.type = .filled) :
    (∃ o ∈ (xs r.symbolId).book.resting, o.HasKey x.clientId x.clientOrderId ∧ o.side = x.side) ∨
      r.type = .new ∧ x.clientId = r.clientId ∧ x.clientOrderId = r.orderId ∧ x.side = r.side := by
  cases hcall : r.call? with
  | none =>
    rw [responses, hcall] at hx
    cases hx
  | some call =>
    rw [responses_call _ hcall] at hx
    rcases IndexedBook.filled_of_mem hx htype with hold | ⟨price, quantity, rfl⟩
    · exact .inl hold
    · rcases MatchingEngineClientRequest.call?_cases hcall with ⟨hnew, heq⟩ | ⟨-, heq⟩
      · obtain ⟨hclient, hid, hside, -⟩ := BookCall.add.inj heq
        exact .inr ⟨hnew, hclient, hid, hside⟩
      · cases heq

end IndexedBooks

end YQuant
