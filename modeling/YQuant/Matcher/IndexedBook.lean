/-
# What the indexed book keeps

`IndexedBook.Inv` holds of the empty book and is kept by every documented call: the list is
orderly, arrivals are counted, and every entry of the index names a resting order of exactly
that client and id.  The converse, that every resting order is named, is not among its parts:
an id used again while its order rests takes the entry away.

A call is cut into the steps the code takes: the arrival is counted (`accepted`), single trades
(`afterFill`), and the remainder comes to rest (`rest`).

Arrivals rather than ids tell the orders apart: an arrival is used once, so `Inv` can say that the
list is in the order of arrivals and that no two orders share one.  What an entry of the index
names is then an order or nothing, never one of two.

A rejected cancel changes nothing, and one that is not rejected takes out the order that the entry
names.  The invariant does not bound the number of orders, and arrivals grow without end; the
bounds of the code come in where a book of the code is compared (`BookRep.lean`).
-/
import YQuant.Matcher.Sweep

namespace YQuant

/-! ## 1. The index -/

namespace OrderIndex

variable {ix : OrderIndex} {c o c' o' : Nat} {entry : Option Nat}

theorem set_apply : ix.set c o entry c' o' = if c' = c ∧ o' = o then entry else ix c' o' := by
  unfold set
  by_cases hc : c' = c
  · subst hc
    by_cases ho : o' = o
    · subst ho; simp
    · simp [ho]
  · simp [hc]

end OrderIndex

namespace IndexedBook

/-! ## 2. The steps of a call -/

/-- A new order is counted. -/
def accepted (x : IndexedBook) : IndexedBook :=
  { x with book := { x.book with arrivals := x.book.arrivals + 1 } }

/-- One trade. -/
def afterFill (x : IndexedBook) (f : Fill) : IndexedBook :=
  ⟨{ x.book with resting := takeFrom x.book.resting f.maker f.executed }, x.index.afterFill f⟩

/-- A run of trades that leaves the orders `resting`. -/
def afterFills (x : IndexedBook) (fs : List Fill) (resting : List Resting) : IndexedBook :=
  ⟨{ x.book with resting := resting }, fs.foldl OrderIndex.afterFill x.index⟩

/-- The remainder of a new order comes to rest. -/
def rest (x : IndexedBook) (clientId clientOrderId : Nat) (side : Side) (price : Int)
    (quantity : Nat) : IndexedBook :=
  ⟨x.book.rest clientId clientOrderId side price quantity,
    x.index.set clientId clientOrderId (some x.book.arrivals)⟩

/-- The book after the trades of a new order. -/
def traded (x : IndexedBook) (side : Side) (price : Int) (quantity : Nat) : IndexedBook :=
  x.accepted.afterFills (x.book.fills side price quantity)
    (sweep side price x.book.resting quantity).2.1

theorem step_add (x : IndexedBook) (clientId clientOrderId : Nat) (side : Side) (price : Int)
    (quantity : Nat) :
    x.step (.add clientId clientOrderId side price quantity) =
      if x.book.left side price quantity = 0 then x.traded side price quantity
      else (x.traded side price quantity).rest clientId clientOrderId side price
        (x.book.left side price quantity) := by
  change IndexedBook.mk _ _ = _
  unfold ListBook.add indexAfterAdd
  split <;> rfl

theorem arrivals_add (x : IndexedBook) (clientId clientOrderId : Nat) (side : Side) (price : Int)
    (quantity : Nat) :
    (x.step (.add clientId clientOrderId side price quantity)).book.arrivals =
      x.book.arrivals + 1 := by
  rw [step_add]
  split <;> rfl

theorem arrivals_cancel (x : IndexedBook) (clientId clientOrderId : Nat) :
    (x.step (.cancel clientId clientOrderId)).book.arrivals = x.book.arrivals := by
  simp only [IndexedBook.step]
  cases x.find clientId clientOrderId <;> rfl

/-- After a new order, the orders that rest are what is left of the old ones and the new one. -/
theorem mem_step_add {x : IndexedBook} {clientId clientOrderId quantity : Nat} {side : Side}
    {price : Int} {o : Resting}
    (ho : o ∈ (x.step (.add clientId clientOrderId side price quantity)).book.resting) :
    (∃ o' ∈ x.book.resting, o = { o' with quantity := o.quantity }) ∨
      o.arrival = x.book.arrivals + 1 ∧ o.HasKey clientId clientOrderId ∧ o.side = side := by
  have hold : ∀ o ∈ (x.traded side price quantity).book.resting,
      ∃ o' ∈ x.book.resting, o = { o' with quantity := o.quantity } := fun o ho =>
    (sweep_sweeps side price x.book.resting quantity).mem_of_mem ho
  rw [step_add] at ho
  split at ho
  · exact .inl (hold o ho)
  · rcases List.mem_append.mp ho with ho | ho
    · exact .inl (hold o ho)
    · rw [List.mem_singleton.mp ho]
      exact .inr ⟨rfl, ⟨rfl, rfl⟩, rfl⟩

theorem mem_step_cancel {x : IndexedBook} {clientId clientOrderId : Nat} {o : Resting}
    (ho : o ∈ (x.step (.cancel clientId clientOrderId)).book.resting) : o ∈ x.book.resting := by
  simp only [IndexedBook.step] at ho
  cases hf : x.find clientId clientOrderId with
  | none => rwa [hf] at ho
  | some o' =>
    rw [hf] at ho
    exact (List.mem_filter.mp ho).1

/-! ## 3. The invariant -/

/-- **The invariant of the indexed book.** -/
structure Inv (band : PriceBand) (x : IndexedBook) : Prop where
  orderly : Orderly band x.book.resting
  bounded : ∀ o ∈ x.book.resting, o.arrival ≤ x.book.arrivals
  keys : ∀ o ∈ x.book.resting, o.clientId < kMaxNumClients ∧ o.clientOrderId < kMaxOrderIds
  sound : ∀ c o a, x.index c o = some a → ∃ r ∈ x.book.resting, r.arrival = a ∧ r.HasKey c o

namespace Inv

variable {band : PriceBand} {x : IndexedBook}

theorem empty : Inv band IndexedBook.empty where
  orderly := Orderly.nil
  bounded := by simp [IndexedBook.empty, ListBook.empty]
  keys := by simp [IndexedBook.empty, ListBook.empty]
  sound := fun _ _ _ h => by simp [IndexedBook.empty] at h

theorem accepted (h : Inv band x) : Inv band x.accepted where
  orderly := h.orderly
  bounded := fun o ho => Nat.le_succ_of_le (h.bounded o ho)
  keys := h.keys
  sound := h.sound

/-- An order that the index names leaves together with its entry. -/
theorem sound_without (h : Inv band x) {m : Resting} (hm : m ∈ x.book.resting) {c o a : Nat}
    (hix : x.index.set m.clientId m.clientOrderId none c o = some a) :
    ∃ r ∈ without x.book.resting m, r.arrival = a ∧ r.HasKey c o := by
  rw [OrderIndex.set_apply] at hix
  split at hix
  · cases hix
  · next hkey =>
    obtain ⟨r, hr, ha, hk⟩ := h.sound c o a hix
    refine ⟨r, List.mem_filter.mpr ⟨hr, ?_⟩, ha, hk⟩
    simp only [decide_eq_true_eq]
    intro he
    obtain rfl := h.orderly.eq_of_arrival hr hm he
    exact hkey ⟨hk.1.symm, hk.2.symm⟩

theorem afterFill (h : Inv band x) {f : Fill} (hm : f.maker ∈ x.book.resting)
    (he : f.executed ≤ f.maker.quantity) : Inv band (x.afterFill f) where
  orderly := h.orderly.takeFrom hm he
  bounded := fun o ho => by
    obtain ⟨o', ho', heq, -⟩ := mem_takeFrom ho
    rw [heq]; exact h.bounded o' ho'
  keys := fun o ho => by
    obtain ⟨o', ho', heq, -⟩ := mem_takeFrom ho
    rw [heq]; exact h.keys o' ho'
  sound := fun c o a hix => by
    simp only [IndexedBook.afterFill, OrderIndex.afterFill, takeFrom] at hix ⊢
    split at hix
    · next hex =>
      rw [if_pos hex]
      exact h.sound_without hm hix
    · next hex =>
      rw [if_neg hex]
      obtain ⟨r, hr, ha, hk⟩ := h.sound c o a hix
      refine ⟨_, List.mem_map.mpr ⟨r, hr, rfl⟩, ?_, ?_⟩
      · split <;> exact ha
      · split <;> exact hk

theorem afterSweep {side : Side} {limit : Int} {l l' : List Resting} {q q' : Nat}
    {fs : List Fill} (hs : Sweeps side limit l q fs l' q') :
    ∀ {x : IndexedBook}, x.book.resting = l → Inv band x → Inv band (x.afterFills fs l') := by
  induction hs with
  | done =>
    rintro x rfl h
    exact h
  | @trade l l' q q' m fs hq hm _ ih =>
    rintro x rfl h
    exact ih (x := x.afterFill ⟨m, min q m.quantity, q - min q m.quantity⟩) rfl
      (h.afterFill (bestMaker_mem hm).1 (min_le_right _ _))

theorem rest (h : Inv band x) {clientId clientOrderId quantity : Nat} {side : Side} {price : Int}
    (hdoc : (BookCall.add clientId clientOrderId side price quantity).Documented band)
    (hlast : ∀ o ∈ x.book.resting, o.arrival < x.book.arrivals)
    (hcross : ∀ o ∈ x.book.resting, ¬ o.CrossedBy side price) :
    Inv band (x.rest clientId clientOrderId side price quantity) where
  orderly := h.orderly.snoc hlast hdoc.2.2.1 hdoc.2.2.2.1 hdoc.2.2.2.2 hcross
  bounded := by
    change ∀ o ∈ x.book.resting ++ [_], o.arrival ≤ x.book.arrivals
    simpa [or_imp, forall_and] using h.bounded
  keys := by
    change ∀ o ∈ x.book.resting ++ [_], _
    have hkeys := h.keys
    simp only [List.mem_append, List.mem_singleton, or_imp, forall_and, forall_eq] at hkeys ⊢
    exact ⟨⟨hkeys.1, hdoc.1⟩, hkeys.2, hdoc.2.1⟩
  sound := fun c o a hix => by
    simp only [IndexedBook.rest, OrderIndex.set_apply] at hix
    simp only [IndexedBook.rest, ListBook.rest, List.mem_append, List.mem_singleton]
    split at hix
    · next hkey =>
      exact ⟨_, Or.inr rfl, Option.some.inj hix, hkey.1.symm, hkey.2.symm⟩
    · obtain ⟨r, hr, ha⟩ := h.sound c o a hix
      exact ⟨r, Or.inl hr, ha⟩

/-- The book after the trades of a documented new order. -/
theorem traded (h : Inv band x) (side : Side) (price : Int) (quantity : Nat) :
    Inv band (x.traded side price quantity) :=
  afterSweep (sweep_sweeps side price x.book.resting quantity) (x := x.accepted) rfl h.accepted

/-- Every order that rests after the trades arrived before the new one. -/
theorem traded_lt (h : Inv band x) (side : Side) (price : Int) (quantity : Nat) :
    ∀ o ∈ (x.traded side price quantity).book.resting, o.arrival < x.book.arrivals + 1 := by
  intro o ho
  obtain ⟨o', ho', heq⟩ := (sweep_sweeps side price x.book.resting quantity).mem_of_mem ho
  rw [heq]
  exact Nat.lt_succ_of_le (h.bounded o' ho')

/-- What is left of a new order crosses nothing. -/
theorem traded_not_crossed {side : Side} {price : Int} {quantity : Nat}
    (hleft : x.book.left side price quantity ≠ 0) :
    ∀ o ∈ (x.traded side price quantity).book.resting, ¬ o.CrossedBy side price :=
  bestMaker_eq_none.mp
    ((sweep_settled side price x.book.resting quantity).resolve_left hleft)

/-- The order a cancel finds rests under that id. -/
theorem find_some (h : Inv band x) {clientId clientOrderId : Nat} {o : Resting}
    (hf : x.find clientId clientOrderId = some o) :
    o ∈ x.book.resting ∧ x.index clientId clientOrderId = some o.arrival ∧
      o.HasKey clientId clientOrderId := by
  obtain ⟨a, hix, hfind⟩ := Option.bind_eq_some_iff.mp hf
  have hmem := List.mem_of_find?_eq_some hfind
  have harr : o.arrival = a := by simpa using List.find?_some hfind
  obtain ⟨r, hr, hra, hk⟩ := h.sound _ _ _ hix
  obtain rfl := h.orderly.eq_of_arrival hr hmem (hra.trans harr.symm)
  exact ⟨hmem, by rw [hix, harr], hk⟩

/-- A cancel is rejected only when the index has no entry. -/
theorem find_none (h : Inv band x) {clientId clientOrderId : Nat}
    (hf : x.find clientId clientOrderId = none) : x.index clientId clientOrderId = none := by
  cases hix : x.index clientId clientOrderId with
  | none => rfl
  | some a =>
    obtain ⟨r, hr, hra, -⟩ := h.sound _ _ _ hix
    rw [find, hix, Option.bind_some, List.find?_eq_none] at hf
    exact absurd hra (by simpa using hf r hr)

/-- An order under whose id the index has its arrival is found. -/
theorem find_of_index (h : Inv band x) {o : Resting} (ho : o ∈ x.book.resting)
    (hindex : x.index o.clientId o.clientOrderId = some o.arrival) :
    x.find o.clientId o.clientOrderId = some o := by
  cases hf : x.find o.clientId o.clientOrderId with
  | none =>
    rw [h.find_none hf] at hindex
    cases hindex
  | some r =>
    obtain ⟨hr, hindex', -⟩ := h.find_some hf
    rw [hindex'] at hindex
    rw [h.orderly.eq_of_arrival hr ho (Option.some.inj hindex)]

/-- A rejected cancel changes nothing. -/
theorem step_cancel_none (h : Inv band x) {clientId clientOrderId : Nat}
    (hf : x.find clientId clientOrderId = none) :
    x.step (.cancel clientId clientOrderId) = x := by
  have hset : x.index.set clientId clientOrderId none = x.index := by
    funext c o
    rw [OrderIndex.set_apply]
    split
    · next hk => rw [hk.1, hk.2, h.find_none hf]
    · rfl
  simp only [IndexedBook.step, hf, ListBook.remove, hset]

theorem cancelled (h : Inv band x) (clientId clientOrderId : Nat) :
    Inv band (x.step (.cancel clientId clientOrderId)) := by
  cases hf : x.find clientId clientOrderId with
  | none =>
    rw [h.step_cancel_none hf]
    exact h
  | some r =>
    obtain ⟨hr, -, hk⟩ := h.find_some hf
    simp only [IndexedBook.step, hf, ListBook.remove]
    refine ⟨h.orderly.filter _, fun o ho => h.bounded o (List.mem_filter.mp ho).1,
      fun o ho => h.keys o (List.mem_filter.mp ho).1, fun c o a hix => ?_⟩
    refine h.sound_without hr ?_
    rw [hk.1, hk.2]
    exact hix

/-- **Every documented call keeps the invariant.** -/
theorem step (h : Inv band x) {call : BookCall} (hdoc : call.Documented band) :
    Inv band (x.step call) := by
  cases call with
  | add clientId clientOrderId side price quantity =>
    rw [step_add]
    split
    · exact h.traded side price quantity
    · next hleft =>
      refine (h.traded side price quantity).rest ?_ (h.traded_lt side price quantity)
        (traded_not_crossed hleft)
      exact ⟨hdoc.1, hdoc.2.1, hdoc.2.2.1, hdoc.2.2.2.1, Nat.pos_of_ne_zero hleft⟩
  | cancel clientId clientOrderId => exact h.cancelled clientId clientOrderId

end Inv

end IndexedBook

end YQuant
