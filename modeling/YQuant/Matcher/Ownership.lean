/-
# Which orders the index still names

`IndexedBook.Complete`: every resting order is named by the entry of its own client and id.
Together with `Inv.sound` the index is then exact, and ids of resting orders are unique.  Each
client can rely on it as far as its own orders go (`CompleteFor`).

Trades and cancels keep an index complete.  A new order keeps it complete exactly when nothing of
it comes to rest or no order with its id survives its trades (`Complete.step_add_iff`), and both
can be read off the book before the call: `crossedQuantity` is the resting quantity the order can
reach.

`crossedQuantity` is the one quantity that decides: what rests within the reach of an order.  A
sweep takes from the taker what it takes from there (`Sweeps.crossedQuantity`), so nothing is left
of the order exactly when there is enough (`ListBook.left_eq_zero_iff`); and then a taker that has
something left has emptied everything within its reach, whoever it belonged to.

The results for one client are stated first.  A book may well be incomplete for one client and
exact for all others, and a client that keeps its ids apart does not have to trust anybody.
-/
import Mathlib.Algebra.BigOperators.Group.List.Basic
import YQuant.Matcher.IndexedBook

namespace YQuant

/-! ## 1. The quantity a taker can reach -/

/-- The resting quantity of the orders of a kind. -/
def quantityOf (p : Resting → Bool) (l : List Resting) : Nat :=
  ((l.filter p).map Resting.quantity).sum

theorem quantityOf_append (p : Resting → Bool) (l₁ l₂ : List Resting) :
    quantityOf p (l₁ ++ l₂) = quantityOf p l₁ + quantityOf p l₂ := by
  simp [quantityOf]

theorem quantityOf_cons (p : Resting → Bool) (o : Resting) (l : List Resting) :
    quantityOf p (o :: l) = (if p o then o.quantity else 0) + quantityOf p l := by
  unfold quantityOf
  rw [List.filter_cons]
  split <;> simp

theorem quantityOf_eq_zero {p : Resting → Bool} {l : List Resting} (h : ∀ o ∈ l, ¬ p o = true) :
    quantityOf p l = 0 := by
  rw [quantityOf, List.filter_eq_nil_iff.mpr h]
  rfl

/-- A trade takes its quantity from the kind of its maker. -/
theorem quantityOf_takeFrom {p : Resting → Bool} (hp : ∀ o q, p { o with quantity := q } = p o)
    {l : List Resting} {m : Resting} {e : Nat} (h : l.Pairwise fun o o' => o.arrival < o'.arrival)
    (hm : m ∈ l) (he : e ≤ m.quantity) :
    quantityOf p (takeFrom l m e) + (if p m then e else 0) = quantityOf p l := by
  obtain ⟨l₁, l₂, rfl⟩ := List.append_of_mem hm
  obtain ⟨-, h₂, h₁₂⟩ := List.pairwise_append.mp h
  have h₁ : ∀ o ∈ l₁, o.arrival ≠ m.arrival := fun o ho => Nat.ne_of_lt (h₁₂ o ho m (by simp))
  have h₃ : ∀ o ∈ l₂, o.arrival ≠ m.arrival := fun o ho =>
    Nat.ne_of_gt ((List.pairwise_cons.mp h₂).1 o ho)
  rw [quantityOf_append, quantityOf_cons]
  unfold takeFrom
  split
  · rw [without, List.filter_append, List.filter_cons_of_neg (by simp),
      List.filter_eq_self.mpr (by simpa using h₁), List.filter_eq_self.mpr (by simpa using h₃),
      quantityOf_append]
    split <;> omega
  · have hid : ∀ {k : List Resting}, (∀ o ∈ k, o.arrival ≠ m.arrival) →
        reduce k m e = k := by
      intro k hk
      conv_rhs => rw [← List.map_id k]
      exact List.map_congr_left fun o ho => if_neg (hk o ho)
    have hreduce : reduce (l₁ ++ m :: l₂) m e =
        l₁ ++ { m with quantity := m.quantity - e } :: l₂ := by
      have : reduce (l₁ ++ m :: l₂) m e =
          reduce l₁ m e ++ { m with quantity := m.quantity - e } :: reduce l₂ m e := by
        simp [reduce]
      rw [this, hid h₁, hid h₃]
    rw [hreduce, quantityOf_append, quantityOf_cons, hp]
    split
    · dsimp only
      omega
    · omega

/-- The quantity that rests within reach of a taker. -/
def crossedQuantity (l : List Resting) (side : Side) (limit : Int) : Nat :=
  ((l.filter fun o => o.CrossedBy side limit).map Resting.quantity).sum

section CrossedQuantity

variable {l l' : List Resting} {side : Side} {limit : Int} {q q' : Nat} {fs : List Fill}

/-- A trade takes its quantity from what is within reach. -/
theorem crossedQuantity_takeFrom {m : Resting} {e : Nat}
    (h : l.Pairwise fun o o' => o.arrival < o'.arrival) (hm : m ∈ l)
    (hc : m.CrossedBy side limit) (he : e ≤ m.quantity) :
    crossedQuantity (takeFrom l m e) side limit + e = crossedQuantity l side limit := by
  have htake := quantityOf_takeFrom (p := fun o => decide (o.CrossedBy side limit))
    (fun _ _ => rfl) h hm he
  rwa [decide_eq_true hc, if_pos rfl] at htake

/-- What a run of trades takes from the taker it takes from the book. -/
theorem Sweeps.crossedQuantity (h : Sweeps side limit l q fs l' q')
    (hl : l.Pairwise fun o o' => o.arrival < o'.arrival) :
    q + crossedQuantity l' side limit = q' + crossedQuantity l side limit := by
  induction h with
  | done => rfl
  | @trade l l' q q' m fs hq hm _ ih =>
    obtain ⟨hmem, hc⟩ := bestMaker_mem hm
    have htake := crossedQuantity_takeFrom hl hmem hc (min_le_right q m.quantity)
    have := ih (takeFrom_pairwise hl)
    omega

theorem crossedQuantity_eq_zero (h : ∀ o ∈ l, ¬ o.CrossedBy side limit) :
    YQuant.crossedQuantity l side limit = 0 :=
  quantityOf_eq_zero (by simpa using h)

/-- **Nothing of an order is left exactly when enough rests within its reach.** -/
theorem ListBook.left_eq_zero_iff {b : ListBook}
    (hl : b.resting.Pairwise fun o o' => o.arrival < o'.arrival) :
    b.left side limit q = 0 ↔ q ≤ YQuant.crossedQuantity b.resting side limit := by
  have hsum := (sweep_sweeps side limit b.resting q).crossedQuantity hl
  have hsettled := sweep_settled side limit b.resting q
  unfold ListBook.left
  constructor
  · intro hz
    omega
  · intro hle
    rcases hsettled with hz | hnone
    · exact hz
    · have := crossedQuantity_eq_zero (bestMaker_eq_none.mp hnone)
      omega

/-- An order out of reach keeps its place. -/
theorem Sweeps.mem_of_not_crossed (h : Sweeps side limit l q fs l' q')
    (hl : l.Pairwise fun o o' => o.arrival < o'.arrival) {o : Resting} (ho : o ∈ l)
    (hc : ¬ o.CrossedBy side limit) : o ∈ l' := by
  induction h with
  | done => exact ho
  | @trade l _ _ _ m _ hq hm _ ih =>
    refine ih (takeFrom_pairwise hl) (mem_takeFrom_of_ne ho fun he => hc ?_)
    obtain ⟨hmem, hcm⟩ := bestMaker_mem hm
    have hnd : (l.map Resting.arrival).Nodup :=
      List.pairwise_map.mpr (hl.imp fun hlt => Nat.ne_of_lt hlt)
    rwa [List.inj_on_of_nodup_map hnd ho hmem he]

end CrossedQuantity

/-! ## 2. Complete indexes -/

namespace IndexedBook

/-- **Every resting order of a client is named by the entry of its own id.** -/
def CompleteFor (client : Nat) (x : IndexedBook) : Prop :=
  ∀ r ∈ x.book.resting, r.clientId = client → x.index r.clientId r.clientOrderId = some r.arrival

namespace CompleteFor

variable {band : PriceBand} {x : IndexedBook} {client : Nat}

theorem empty : CompleteFor client IndexedBook.empty := by
  simp [CompleteFor, IndexedBook.empty, ListBook.empty]

/-- The ids of the client's resting orders are unique. -/
theorem eq_of_key (hc : CompleteFor client x) (h : Inv band x) {r r' : Resting}
    (hr : r ∈ x.book.resting) (hr' : r' ∈ x.book.resting) (hclient : r.clientId = client)
    (hkey : r'.HasKey r.clientId r.clientOrderId) : r' = r := by
  have h₁ := hc r hr hclient
  have h₂ := hc r' hr' (hkey.1.trans hclient)
  rw [hkey.1, hkey.2, h₁] at h₂
  exact h.orderly.eq_of_arrival hr' hr (Option.some.inj h₂).symm

/-- An order leaves together with its entry. -/
theorem without (hc : CompleteFor client x) (h : Inv band x) {m : Resting}
    (hm : m ∈ x.book.resting) :
    CompleteFor client ⟨{ x.book with resting := YQuant.without x.book.resting m },
      x.index.set m.clientId m.clientOrderId none⟩ := by
  intro r hr hclient
  obtain ⟨hr, hne⟩ := List.mem_filter.mp hr
  change x.index.set m.clientId m.clientOrderId none r.clientId r.clientOrderId = _
  rw [OrderIndex.set_apply, if_neg]
  · exact hc r hr hclient
  · intro hkey
    obtain rfl := hc.eq_of_key h hm hr (hkey.1.symm.trans hclient) hkey
    simp at hne

theorem afterFill (hc : CompleteFor client x) (h : Inv band x) {f : Fill}
    (hm : f.maker ∈ x.book.resting) : CompleteFor client (x.afterFill f) := by
  by_cases hex : f.executed = f.maker.quantity
  · have heq : x.afterFill f = ⟨{ x.book with resting := YQuant.without x.book.resting f.maker },
        x.index.set f.maker.clientId f.maker.clientOrderId none⟩ := by
      simp [IndexedBook.afterFill, takeFrom, OrderIndex.afterFill, hex]
    rw [heq]
    exact hc.without h hm
  · intro r hr hclient
    obtain ⟨r', hr', heq, -⟩ := mem_takeFrom hr
    have hix : (x.afterFill f).index = x.index := by
      simp [IndexedBook.afterFill, OrderIndex.afterFill, hex]
    rw [heq] at hclient
    rw [hix, heq]
    exact hc r' hr' hclient

theorem afterSweep {side : Side} {limit : Int} {l l' : List Resting} {q q' : Nat}
    {fs : List Fill} (hs : Sweeps side limit l q fs l' q') :
    ∀ {x : IndexedBook}, x.book.resting = l → Inv band x → CompleteFor client x →
      CompleteFor client (x.afterFills fs l') := by
  induction hs with
  | done =>
    rintro x rfl _ hc
    exact hc
  | @trade l l' q q' m fs hq hm _ ih =>
    rintro x rfl h hc
    have hmem := (bestMaker_mem hm).1
    exact ih (x := x.afterFill ⟨m, min q m.quantity, q - min q m.quantity⟩) rfl
      (h.afterFill hmem (min_le_right _ _)) (hc.afterFill h hmem)

theorem traded (hc : CompleteFor client x) (h : Inv band x) (side : Side) (price : Int)
    (quantity : Nat) : CompleteFor client (x.traded side price quantity) :=
  afterSweep (sweep_sweeps side price x.book.resting quantity) (x := x.accepted) rfl h.accepted hc

/-- A new order comes to rest under an id that its client does not use. -/
theorem rest (hc : CompleteFor client x) {clientId clientOrderId quantity : Nat} {side : Side}
    {price : Int} (hfresh : clientId = client →
      ∀ r ∈ x.book.resting, ¬ r.HasKey clientId clientOrderId) :
    CompleteFor client (x.rest clientId clientOrderId side price quantity) := by
  intro r hr hclient
  have hix : (x.rest clientId clientOrderId side price quantity).index r.clientId
      r.clientOrderId = if r.HasKey clientId clientOrderId then some x.book.arrivals
        else x.index r.clientId r.clientOrderId := OrderIndex.set_apply
  rw [hix]
  rcases List.mem_append.mp hr with hr | hr
  · rw [if_neg fun hkey => hfresh (hkey.1.symm.trans hclient) r hr hkey]
    exact hc r hr hclient
  · rw [List.mem_singleton.mp hr, if_pos ⟨rfl, rfl⟩]

theorem cancel (hc : CompleteFor client x) (h : Inv band x) (clientId clientOrderId : Nat) :
    CompleteFor client (x.step (.cancel clientId clientOrderId)) := by
  cases hf : x.find clientId clientOrderId with
  | none =>
    rw [h.step_cancel_none hf]
    exact hc
  | some m =>
    obtain ⟨hm, -, hk⟩ := h.find_some hf
    have := hc.without h hm
    rw [hk.1, hk.2] at this
    simpa only [IndexedBook.step, hf, ListBook.remove] using this

/-- **A call keeps the entries of a client** unless it enters an order under an id of the client
that an order already rests under. -/
theorem step (hc : CompleteFor client x) (h : Inv band x) {call : BookCall}
    (hfresh : ∀ clientOrderId side price quantity,
      call = .add client clientOrderId side price quantity →
        ∀ r ∈ x.book.resting, ¬ r.HasKey client clientOrderId) :
    CompleteFor client (x.step call) := by
  cases call with
  | cancel clientId clientOrderId => exact hc.cancel h clientId clientOrderId
  | add clientId clientOrderId side price quantity =>
    have htraded := hc.traded h side price quantity
    rw [step_add]
    split
    · exact htraded
    · refine htraded.rest ?_
      rintro rfl r hr hkey
      obtain ⟨r', hr', heq⟩ := (sweep_sweeps side price x.book.resting quantity).mem_of_mem hr
      rw [heq] at hkey
      exact hfresh clientOrderId side price quantity rfl r' hr' hkey

/-- A cancel of the client finds the order the list finds. -/
theorem find_eq (hc : CompleteFor client x) (h : Inv band x) (clientOrderId : Nat) :
    x.book.find client clientOrderId = x.find client clientOrderId := by
  cases hf : x.find client clientOrderId with
  | none =>
    have hix := h.find_none hf
    refine List.find?_eq_none.mpr fun r hr => ?_
    simp only [decide_eq_true_eq]
    rintro ⟨rfl, rfl⟩
    rw [hc r hr rfl] at hix
    cases hix
  | some m =>
    obtain ⟨hm, hix, hk⟩ := h.find_some hf
    cases hl : x.book.find client clientOrderId with
    | none =>
      have := List.find?_eq_none.mp hl m hm
      exact absurd hk (by simpa using this)
    | some r =>
      have hr := List.mem_of_find?_eq_some hl
      have hk' : r.HasKey client clientOrderId := by simpa using List.find?_some hl
      rw [← hk.1, ← hk.2] at hk'
      rw [hc.eq_of_key h hm hr hk.1 hk']

end CompleteFor

/-- **Every resting order is named by the entry of its own client and id.** -/
def Complete (x : IndexedBook) : Prop :=
  ∀ r ∈ x.book.resting, x.index r.clientId r.clientOrderId = some r.arrival

theorem complete_iff {x : IndexedBook} : Complete x ↔ ∀ client, CompleteFor client x :=
  ⟨fun h _ r hr _ => h r hr, fun h r hr => h r.clientId r hr rfl⟩

namespace Complete

variable {band : PriceBand} {x : IndexedBook}

theorem empty : Complete IndexedBook.empty := complete_iff.mpr fun _ => CompleteFor.empty

/-- With a complete index, ids of resting orders are unique. -/
theorem eq_of_key (hc : Complete x) (h : Inv band x) {r r' : Resting} (hr : r ∈ x.book.resting)
    (hr' : r' ∈ x.book.resting) (hkey : r'.HasKey r.clientId r.clientOrderId) : r' = r :=
  (complete_iff.mp hc r.clientId).eq_of_key h hr hr' rfl hkey

theorem traded (hc : Complete x) (h : Inv band x) (side : Side) (price : Int) (quantity : Nat) :
    Complete (x.traded side price quantity) :=
  complete_iff.mpr fun client => (complete_iff.mp hc client).traded h side price quantity

/-- A new resting order takes the entry of every other resting order of its id. -/
theorem rest_iff (hc : Complete x) {clientId clientOrderId quantity : Nat} {side : Side}
    {price : Int} (hlast : ∀ o ∈ x.book.resting, o.arrival < x.book.arrivals) :
    Complete (x.rest clientId clientOrderId side price quantity) ↔
      ∀ r ∈ x.book.resting, ¬ r.HasKey clientId clientOrderId := by
  have hix : ∀ r : Resting, (x.rest clientId clientOrderId side price quantity).index r.clientId
      r.clientOrderId = if r.HasKey clientId clientOrderId then some x.book.arrivals
        else x.index r.clientId r.clientOrderId := fun r => OrderIndex.set_apply
  constructor
  · intro h r hr hkey
    have := h r (List.mem_append_left _ hr)
    rw [hix, if_pos hkey] at this
    exact absurd (hlast r hr) (by simp [Option.some.inj this])
  · intro h r hr
    rw [hix]
    rcases List.mem_append.mp hr with hr | hr
    · rw [if_neg (h r hr)]
      exact hc r hr
    · rw [List.mem_singleton.mp hr, if_pos ⟨rfl, rfl⟩]

theorem cancel (hc : Complete x) (h : Inv band x) (clientId clientOrderId : Nat) :
    Complete (x.step (.cancel clientId clientOrderId)) :=
  complete_iff.mpr fun client => (complete_iff.mp hc client).cancel h clientId clientOrderId

/-- **When a new order keeps the index complete**: nothing of it comes to rest, or every resting
order of its id is within its reach and so does not survive. -/
theorem step_add_iff (hc : Complete x) (h : Inv band x) {clientId clientOrderId quantity : Nat}
    {side : Side} {price : Int} :
    Complete (x.step (.add clientId clientOrderId side price quantity)) ↔
      quantity ≤ crossedQuantity x.book.resting side price ∨
        ∀ r ∈ x.book.resting, r.HasKey clientId clientOrderId → r.CrossedBy side price := by
  rw [step_add, ← ListBook.left_eq_zero_iff h.orderly.arrivals]
  by_cases hleft : x.book.left side price quantity = 0
  · simp only [hleft, if_true, true_or, iff_true]
    exact hc.traded h side price quantity
  · rw [if_neg hleft, (hc.traded h side price quantity).rest_iff (h.traded_lt side price quantity)]
    simp only [hleft, false_or]
    have hs := sweep_sweeps side price x.book.resting quantity
    constructor
    · intro hnone r hr hkey
      by_contra hcross
      exact hnone r (hs.mem_of_not_crossed h.orderly.arrivals hr hcross) hkey
    · intro hall r hr hkey
      obtain ⟨r', hr', heq⟩ := hs.mem_of_mem hr
      have hcross : r'.CrossedBy side price := hall r' hr' (by rw [heq] at hkey; exact hkey)
      refine Inv.traded_not_crossed hleft r hr ?_
      rw [heq]
      exact hcross

/-- With a complete index a cancel finds the order the list finds. -/
theorem find_eq (hc : Complete x) (h : Inv band x) (clientId clientOrderId : Nat) :
    x.book.find clientId clientOrderId = x.find clientId clientOrderId :=
  (complete_iff.mp hc clientId).find_eq h clientOrderId

end Complete

end IndexedBook

end YQuant
