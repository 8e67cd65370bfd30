/-
# The life of an order, as its responses tell it

`LifeCycle original rs stage` is the grammar of the responses that carry one market order id: an
`ACCEPTED` with the original quantity, `FILLED`s that each take their executed quantity off the
remaining one, and possibly a `CANCELED`.  `Accounts` says that the responses of a book follow the
grammar for every id, and that the orders still at work are exactly those of a given set; during a
call the taker is one of them.

A single response moves one order (`Accounts.respond`), a trade is two responses, and a call is an
`ACCEPTED` and its trades, or the answer to a cancel.

The grammar has stages and not only words, so that it can be followed response by response: an
order at work has a remaining quantity, and the next response has to fit it.  `Accounts` has one
such stage for every order entered so far, and the orders at work are those that rest, and during a
call the taker; as each call ends with the taker at rest or used up, the two agree again between
calls.

Client order ids are not looked at.  Market order ids are counters of 64 bits, and the results are
about runs in which they do not wrap; a rejected cancel carries the id 0, which no order has.
-/
import YQuant.Matcher.Cancellable
import YQuant.MarketData.Stream

namespace YQuant

/-! ## 1. The grammar -/

/-- Where an order is in its life. -/
inductive Stage where
  | working (remaining : Nat)
  | gone
deriving DecidableEq, Repr

/-- **The responses of one order.** -/
inductive LifeCycle (original : Nat) : List MatchingEngineClientResponse → Stage → Prop
  | accepted {r : MatchingEngineClientResponse} (htype : r.type = .accepted)
      (hexecuted : r.executedQuantity = 0) (hremaining : r.remainingQuantity = original) :
      LifeCycle original [r] (.working original)
  | filled {rs : List MatchingEngineClientResponse} {r : MatchingEngineClientResponse} {q : Nat}
      (h : LifeCycle original rs (.working q)) (htype : r.type = .filled)
      (hexecuted : 0 < r.executedQuantity)
      (hremaining : r.remainingQuantity + r.executedQuantity = q) :
      LifeCycle original (rs ++ [r])
        (if r.remainingQuantity = 0 then .gone else .working r.remainingQuantity)
  | canceled {rs : List MatchingEngineClientResponse} {r : MatchingEngineClientResponse} {q : Nat}
      (h : LifeCycle original rs (.working q)) (htype : r.type = .canceled)
      (hremaining : r.remainingQuantity = q) : LifeCycle original (rs ++ [r]) .gone

/-- The quantities of the orders that a list of calls enters. -/
def entered (calls : List BookCall) : List Nat :=
  calls.flatMap fun call => match call with
    | .add _ _ _ _ quantity => [quantity]
    | .cancel .. => []

/-- Trades and the pairs of fills that report them: the taker's, then the maker's. -/
def Paired : List MatchingEngineMarketUpdate → List MatchingEngineClientResponse → Prop
  | [], [] => True
  | trade :: trades, taker :: maker :: fills =>
    (taker.executedQuantity = trade.quantity ∧ maker.executedQuantity = trade.quantity ∧
      taker.price = trade.price ∧ maker.price = trade.price ∧ taker.side = maker.side.opposite ∧
      maker.side = trade.side ∧ maker.marketOrderId = trade.orderId) ∧ Paired trades fills
  | _, _ => False

theorem Paired.append {trades trades' : List MatchingEngineMarketUpdate} :
    ∀ {fills fills' : List MatchingEngineClientResponse}, Paired trades fills →
      Paired trades' fills' → Paired (trades ++ trades') (fills ++ fills') := by
  induction trades with
  | nil =>
    intro fills fills' h h'
    cases fills with
    | nil => exact h'
    | cons => exact h.elim
  | cons trade trades ih =>
    intro fills fills' h h'
    match fills, h with
    | taker :: maker :: fills, h => exact ⟨h.1, ih h.2 h'⟩

/-! ## 2. The accounts of a book -/

/-- The responses so far, for the orders entered so far: `isOpen id remaining` holds of the orders
that are still at work. -/
structure Accounts (quantities : List Nat) (rs : List MatchingEngineClientResponse)
    (isOpen : Nat → Nat → Prop) : Prop where
  known : ∀ r ∈ rs, r.marketOrderId ≤ quantities.length
  bound : ∀ id remaining, isOpen id remaining → ∃ i, id = i + 1 ∧ i < quantities.length
  life : ∀ i original, quantities[i]? = some original → ∃ stage,
    LifeCycle original (rs.filter fun r => r.marketOrderId = i + 1) stage ∧
      ∀ remaining, stage = .working remaining ↔ isOpen (i + 1) remaining

/-- An order of the list is at work. -/
def OpenIn (l : List Resting) (id remaining : Nat) : Prop :=
  ∃ o ∈ l, o.arrival = id ∧ o.quantity = remaining

/-- An order of the list is at work, or the taker while something is left of it. -/
def OpenWith (l : List Resting) (taker left : Nat) (id remaining : Nat) : Prop :=
  OpenIn l id remaining ∨ id = taker ∧ remaining = left ∧ 0 < left

section Accounts

variable {quantities : List Nat} {rs : List MatchingEngineClientResponse}
  {isOpen isOpen' : Nat → Nat → Prop} {r : MatchingEngineClientResponse}

theorem Accounts.congr (h : Accounts quantities rs isOpen)
    (hopen : ∀ id remaining, isOpen' id remaining ↔ isOpen id remaining) :
    Accounts quantities rs isOpen' where
  known := h.known
  bound := fun id remaining ho => h.bound id remaining ((hopen id remaining).mp ho)
  life := fun i original hi => by
    obtain ⟨stage, hlife, hstage⟩ := h.life i original hi
    exact ⟨stage, hlife, fun remaining => (hstage remaining).trans (hopen _ _).symm⟩

theorem Accounts.empty : Accounts [] [] (OpenIn []) where
  known := fun r hr => absurd hr List.not_mem_nil
  bound := fun id remaining ⟨o, ho, _⟩ => absurd ho List.not_mem_nil
  life := fun i original hi => by simp at hi

/-- A rejected cancel belongs to no order. -/
theorem Accounts.ignore (h : Accounts quantities rs isOpen) (hid : r.marketOrderId = 0) :
    Accounts quantities (rs ++ [r]) isOpen where
  known := by simpa [or_imp, forall_and, hid] using h.known
  bound := h.bound
  life := fun i original hi => by
    rw [List.filter_append, List.filter_cons_of_neg (by simp [hid]), List.filter_nil,
      List.append_nil]
    exact h.life i original hi

/-- **A new order.** -/
theorem Accounts.accept {quantity : Nat} (h : Accounts quantities rs isOpen)
    (hid : r.marketOrderId = quantities.length + 1) (htype : r.type = .accepted)
    (hexecuted : r.executedQuantity = 0) (hremaining : r.remainingQuantity = quantity)
    (hopen : ∀ id remaining, isOpen' id remaining ↔ isOpen id remaining ∨
      id = quantities.length + 1 ∧ remaining = quantity) :
    Accounts (quantities ++ [quantity]) (rs ++ [r]) isOpen' where
  known := by
    intro r' hr'
    rw [List.length_append, List.length_singleton]
    rcases List.mem_append.mp hr' with hr' | hr'
    · exact Nat.le_succ_of_le (h.known r' hr')
    · rw [List.mem_singleton.mp hr', hid]
  bound := fun id remaining ho => by
    rw [List.length_append, List.length_singleton]
    rcases (hopen id remaining).mp ho with ho | ⟨rfl, -⟩
    · obtain ⟨i, hi, hlt⟩ := h.bound id remaining ho
      exact ⟨i, hi, by omega⟩
    · exact ⟨quantities.length, rfl, by omega⟩
  life := fun i original hi => by
    rcases Nat.lt_or_ge i quantities.length with hlt | hge
    · rw [List.getElem?_append_left hlt] at hi
      obtain ⟨stage, hlife, hstage⟩ := h.life i original hi
      refine ⟨stage, ?_, fun remaining => (hstage remaining).trans ?_⟩
      · rw [List.filter_append, List.filter_cons_of_neg (by simp [hid]; omega), List.filter_nil,
          List.append_nil]
        exact hlife
      · rw [hopen]
        exact ⟨Or.inl, fun ho => ho.resolve_right fun hnew => by omega⟩
    · obtain ⟨hlt, hget⟩ := List.getElem?_eq_some_iff.mp hi
      rw [List.length_append, List.length_singleton] at hlt
      obtain rfl : i = quantities.length := by omega
      obtain rfl : quantity = original := by simpa using hget
      have hnone : rs.filter (fun r => r.marketOrderId = quantities.length + 1) = [] :=
        List.filter_eq_nil_iff.mpr fun r' hr' => by
          have := h.known r' hr'
          simp
          omega
      refine ⟨.working quantity, ?_, fun remaining => ?_⟩
      · rw [List.filter_append, hnone, List.nil_append, List.filter_cons_of_pos (by simp [hid]),
          List.filter_nil]
        exact .accepted htype hexecuted hremaining
      · rw [hopen, Stage.working.injEq]
        constructor
        · exact fun heq => .inr ⟨rfl, heq.symm⟩
        · rintro (ho | ⟨-, rfl⟩)
          · obtain ⟨i, hid', hlt'⟩ := h.bound _ _ ho
            omega
          · rfl

/-- **One response to an order at work** moves that order and no other. -/
theorem Accounts.respond {q : Nat} (h : Accounts quantities rs isOpen)
    (hq : isOpen r.marketOrderId q)
    (hframe : ∀ id, id ≠ r.marketOrderId → ∀ remaining, isOpen' id remaining ↔ isOpen id remaining)
    (hmove : (r.type = .filled ∧ 0 < r.executedQuantity ∧
        r.remainingQuantity + r.executedQuantity = q ∧ ∀ remaining,
          isOpen' r.marketOrderId remaining ↔ remaining = r.remainingQuantity ∧ remaining ≠ 0) ∨
      (r.type = .canceled ∧ r.remainingQuantity = q ∧
        ∀ remaining, ¬ isOpen' r.marketOrderId remaining)) :
    Accounts quantities (rs ++ [r]) isOpen' where
  known := fun r' hr' => by
    rcases List.mem_append.mp hr' with hr' | hr'
    · exact h.known r' hr'
    · obtain ⟨i, hid, hlt⟩ := h.bound _ _ hq
      rw [List.mem_singleton.mp hr', hid]
      exact hlt
  bound := fun id remaining ho => by
    by_cases hid : id = r.marketOrderId
    · exact hid ▸ h.bound _ _ hq
    · exact h.bound id remaining ((hframe id hid remaining).mp ho)
  life := fun i original hi => by
    obtain ⟨stage, hlife, hstage⟩ := h.life i original hi
    rw [List.filter_append]
    by_cases hid : i + 1 = r.marketOrderId
    · rw [List.filter_cons_of_pos (by simp [hid]), List.filter_nil]
      rw [← hid] at hq hmove
      obtain rfl := (hstage q).mpr hq
      rcases hmove with ⟨htype, hexecuted, hremaining, hopen⟩ | ⟨htype, hremaining, hopen⟩
      · refine ⟨_, .filled hlife htype hexecuted hremaining, fun remaining => ?_⟩
        rw [hopen]
        split
        · next hzero => simp [hzero]
        · next hzero =>
          rw [Stage.working.injEq]
          constructor
          · rintro rfl
            exact ⟨rfl, hzero⟩
          · exact fun heq => heq.1.symm
      · exact ⟨_, .canceled hlife htype hremaining, fun remaining =>
          iff_of_false (by simp) (hopen remaining)⟩
    · rw [List.filter_cons_of_neg (by simpa using Ne.symm hid), List.filter_nil, List.append_nil]
      exact ⟨stage, hlife, fun remaining => (hstage remaining).trans (hframe _ hid remaining).symm⟩

end Accounts

/-! ## 3. A trade, a sweep, a call -/

section Trades

variable {band : PriceBand} {l : List Resting} {m : Resting} {e id remaining : Nat}

/-- The maker of a partial trade stays, with less. -/
theorem reduced_mem_takeFrom (hm : m ∈ l) (hne : e ≠ m.quantity) :
    { m with quantity := m.quantity - e } ∈ takeFrom l m e := by
  rw [takeFrom, if_neg hne, reduce]
  exact List.mem_map.mpr ⟨m, hm, if_pos rfl⟩

theorem openIn_maker (hl : Orderly band l) (hm : m ∈ l) :
    OpenIn (takeFrom l m e) m.arrival remaining ↔
      e ≠ m.quantity ∧ remaining = m.quantity - e := by
  constructor
  · rintro ⟨o, ho, harrival, rfl⟩
    obtain ⟨o', ho', heq, -, hmaker⟩ := mem_takeFrom ho
    obtain ⟨hne, hq⟩ := hmaker harrival
    have harrival' : o'.arrival = m.arrival := by rw [← harrival, heq]
    obtain rfl := hl.eq_of_arrival ho' hm harrival'
    exact ⟨hne, hq⟩
  · rintro ⟨hne, rfl⟩
    exact ⟨_, reduced_mem_takeFrom hm hne, rfl, rfl⟩

theorem openIn_other (hid : id ≠ m.arrival) :
    OpenIn (takeFrom l m e) id remaining ↔ OpenIn l id remaining := by
  constructor
  · rintro ⟨o, ho, rfl, rfl⟩
    obtain ⟨o', ho', -, hother, -⟩ := mem_takeFrom ho
    obtain rfl := hother hid
    exact ⟨o, ho', rfl, rfl⟩
  · rintro ⟨o, ho, rfl, rfl⟩
    exact ⟨o, mem_takeFrom_of_ne ho hid, rfl, rfl⟩

theorem openIn_snoc {o : Resting} : OpenIn (l ++ [o]) id remaining ↔
    OpenIn l id remaining ∨ o.arrival = id ∧ o.quantity = remaining := by
  simp [OpenIn, or_and_right, exists_or]

theorem not_openIn (hlt : ∀ o ∈ l, o.arrival < id) : ¬ OpenIn l id remaining :=
  fun ⟨o, ho, harrival, _⟩ => Nat.ne_of_lt (hlt o ho) harrival

/-- **A trade is two responses**: one to the taker and one to the maker. -/
theorem Accounts.fill {quantities : List Nat} {rs : List MatchingEngineClientResponse}
    {taker q : Nat} (symbolId clientId clientOrderId : Nat) (side : Side)
    (h : Accounts quantities rs (OpenWith l taker q)) (hl : Orderly band l) (hm : m ∈ l)
    (hlt : ∀ o ∈ l, o.arrival < taker) (htaker : taker < kWord64) (hq : e ≤ q)
    (hmaker : e ≤ m.quantity) (he : 0 < e) :
    Accounts quantities
      (rs ++ Fill.responses symbolId clientId clientOrderId taker side ⟨m, e, q - e⟩)
      (OpenWith (takeFrom l m e) taker (q - e)) := by
  have hm_lt := hlt m hm
  have hmid : m.marketOrderId = m.arrival := Nat.mod_eq_of_lt (hm_lt.trans htaker)
  rw [Fill.responses, ← List.singleton_append, ← List.append_assoc]
  refine Accounts.respond (q := m.quantity)
    (?_ : Accounts quantities _ (OpenWith l taker (q - e))) ?_ ?_ ?_
  · refine h.respond (q := q) (.inr ⟨rfl, rfl, by omega⟩) ?_ (.inl ⟨rfl, he, ?_, ?_⟩)
    · intro id hid remaining
      simp only [OpenWith, show id ≠ taker from hid, false_and, or_false]
    · exact Nat.sub_add_cancel hq
    · intro remaining
      simp only [OpenWith, not_openIn hlt, false_or, true_and]
      omega
  · simp only [hmid]
    exact .inl ⟨m, hm, rfl, rfl⟩
  · simp only [hmid]
    intro id hid remaining
    simp only [OpenWith, openIn_other hid]
  · simp only [hmid]
    refine .inl ⟨trivial, he, Nat.sub_add_cancel hmaker, fun remaining => ?_⟩
    simp only [OpenWith, openIn_maker hl hm, show m.arrival ≠ taker by omega, false_and, or_false]
    omega

/-- **The trades of a taker.** -/
theorem Accounts.sweeps {quantities : List Nat} {rs : List MatchingEngineClientResponse}
    {taker q q' : Nat} {l' : List Resting} {fs : List Fill} {side : Side} {limit : Int}
    (symbolId clientId clientOrderId : Nat) (hs : Sweeps side limit l q fs l' q')
    (h : Accounts quantities rs (OpenWith l taker q)) (hl : Orderly band l)
    (hlt : ∀ o ∈ l, o.arrival < taker) (htaker : taker < kWord64) :
    Accounts quantities
      (rs ++ fs.flatMap (Fill.responses symbolId clientId clientOrderId taker side))
      (OpenWith l' taker q') := by
  induction hs generalizing rs with
  | done => simpa using h
  | @trade l l' q q' m fs hq hm _ ih =>
    have hmem := (bestMaker_mem hm).1
    have hpos := hl.positive m hmem
    have hfill := h.fill symbolId clientId clientOrderId side hl hmem hlt htaker
      (min_le_left q m.quantity) (min_le_right _ _) (by omega)
    rw [List.flatMap_cons, ← List.append_assoc]
    refine ih hfill (hl.takeFrom hmem (min_le_right _ _)) fun o ho => ?_
    obtain ⟨o', ho', heq, -⟩ := mem_takeFrom ho
    rw [heq]
    exact hlt o' ho'

theorem Fill.updates_trade (symbolId : Nat) (f : Fill) :
    (f.updates symbolId).filter (fun u => u.type = .trade) =
      [⟨.trade, symbolId, f.maker.marketOrderId, f.maker.side, f.maker.price, f.executed, 0⟩] := by
  rw [updates, List.filter_cons_of_pos (by simp), List.filter_cons_of_neg, List.filter_nil]
  split <;> simp

theorem Fill.responses_filled (symbolId clientId clientOrderId taker : Nat) (side : Side)
    (f : Fill) :
    (f.responses symbolId clientId clientOrderId taker side).filter (fun r => r.type = .filled) =
      f.responses symbolId clientId clientOrderId taker side := by
  simp [responses]

/-- The fills of a run of trades are paired with its trades. -/
theorem Sweeps.paired {q q' : Nat} {l' : List Resting} {fs : List Fill} {side : Side} {limit : Int}
    (symbolId clientId clientOrderId taker : Nat) (hside : side.Directional)
    (hs : Sweeps side limit l q fs l' q') :
    Paired ((fs.flatMap (Fill.updates symbolId)).filter fun u => u.type = .trade)
      ((fs.flatMap (Fill.responses symbolId clientId clientOrderId taker side)).filter
        fun r => r.type = .filled) := by
  induction hs with
  | done => trivial
  | @trade l l' q q' m fs hq hm _ ih =>
    rw [List.flatMap_cons, List.flatMap_cons, List.filter_append, List.filter_append]
    refine Paired.append ?_ ih
    have hopp : side = m.side.opposite := by
      rw [(bestMaker_mem hm).2.1]
      rcases hside with rfl | rfl <;> rfl
    rw [Fill.updates_trade, Fill.responses_filled]
    exact ⟨⟨rfl, rfl, rfl, rfl, hopp, rfl, rfl⟩, trivial⟩

end Trades

namespace IndexedBook

variable {band : PriceBand} {x : IndexedBook} {quantities : List Nat}
  {rs : List MatchingEngineClientResponse}

/-- The quantity a call enters, if any. -/
theorem entered_cons (call : BookCall) (calls : List BookCall) :
    entered (call :: calls) = entered [call] ++ entered calls := by
  simp [entered]

theorem Inv.add_accounts (symbolId clientId clientOrderId : Nat) {side : Side} {price : Int}
    {quantity : Nat} (hinv : Inv band x) (h : Accounts quantities rs (OpenIn x.book.resting))
    (hcount : quantities.length = x.book.arrivals) (hfew : x.book.arrivals + 1 < kWord64)
    (hpos : 0 < quantity) :
    Accounts (quantities ++ [quantity])
      (rs ++ x.book.addResponses symbolId clientId clientOrderId side price quantity)
      (OpenIn (x.step (.add clientId clientOrderId side price quantity)).book.resting) := by
  have hlt : ∀ o ∈ x.book.resting, o.arrival < x.book.arrivals + 1 := fun o ho =>
    Nat.lt_succ_of_le (hinv.bounded o ho)
  have hresponses : x.book.addResponses symbolId clientId clientOrderId side price quantity =
      [⟨.accepted, clientId, symbolId, clientOrderId, x.book.arrivals + 1, side, price, 0,
        quantity⟩] ++ (sweep side price x.book.resting quantity).1.flatMap
          (Fill.responses symbolId clientId clientOrderId (x.book.arrivals + 1) side) := by
    rw [ListBook.addResponses, Nat.mod_eq_of_lt hfew]
    rfl
  rw [hresponses, ← List.append_assoc]
  have haccepted : Accounts (quantities ++ [quantity])
      (rs ++ [⟨.accepted, clientId, symbolId, clientOrderId, x.book.arrivals + 1, side, price, 0,
        quantity⟩]) (OpenWith x.book.resting (x.book.arrivals + 1) quantity) :=
    h.accept (by rw [hcount]) rfl rfl rfl fun id remaining => by
      rw [OpenWith, hcount]
      exact or_congr_right (and_congr_right fun _ => ⟨fun hr => hr.1, fun hr => ⟨hr, hpos⟩⟩)
  have htraded := haccepted.sweeps symbolId clientId clientOrderId
    (sweep_sweeps side price x.book.resting quantity) hinv.orderly hlt hfew
  refine htraded.congr fun id remaining => ?_
  rw [step_add]
  by_cases hleft : x.book.left side price quantity = 0
  · have hnone : ¬ 0 < (sweep side price x.book.resting quantity).2.2 := by
      rw [← ListBook.left, hleft]
      exact Nat.lt_irrefl 0
    rw [if_pos hleft]
    simp only [OpenWith, hnone, and_false, or_false]
    rfl
  · rw [if_neg hleft]
    refine openIn_snoc.trans (or_congr_right ?_)
    constructor
    · rintro ⟨rfl, rfl⟩
      exact ⟨rfl, rfl, Nat.pos_of_ne_zero hleft⟩
    · rintro ⟨rfl, rfl, -⟩
      exact ⟨rfl, rfl⟩

theorem Inv.cancel_accounts (symbolId clientId clientOrderId : Nat) (hinv : Inv band x)
    (h : Accounts quantities rs (OpenIn x.book.resting)) (hfew : x.book.arrivals < kWord64) :
    Accounts quantities (rs ++ x.responses symbolId (.cancel clientId clientOrderId))
      (OpenIn (x.step (.cancel clientId clientOrderId)).book.resting) := by
  cases hf : x.find clientId clientOrderId with
  | none =>
    rw [hinv.step_cancel_none hf]
    simp only [responses, hf, ListBook.cancelResponses]
    exact h.ignore rfl
  | some m =>
    obtain ⟨hm, -, -⟩ := hinv.find_some hf
    have hmid : m.marketOrderId = m.arrival :=
      Nat.mod_eq_of_lt ((hinv.bounded m hm).trans_lt hfew)
    simp only [responses, IndexedBook.step, hf, ListBook.cancelResponses, ListBook.remove]
    -- the order leaves as it would after a trade that takes all of it
    have hwithout : without x.book.resting m = takeFrom x.book.resting m m.quantity :=
      (if_pos rfl).symm
    rw [hwithout]
    refine h.respond (q := m.quantity) ?_ ?_ (.inr ⟨rfl, rfl, fun remaining => ?_⟩)
    · exact ⟨m, hm, hmid.symm, rfl⟩
    · intro id hid remaining
      exact openIn_other (hmid ▸ hid)
    · simp only [hmid, openIn_maker hinv.orderly hm, ne_eq, not_true_eq_false, false_and,
        not_false_eq_true]

theorem length_entered (calls : List BookCall) : (entered calls).length = adds calls := by
  induction calls with
  | nil => rfl
  | cons call calls ih =>
    rw [entered_cons, List.length_append, ih, adds_cons]
    cases call <;> rfl

/-- **One call keeps the accounts**, and its fills are paired with its trades. -/
theorem Inv.call_accounts (symbolId : Nat) (hinv : Inv band x)
    (h : Accounts quantities rs (OpenIn x.book.resting))
    (hcount : quantities.length = x.book.arrivals) {call : BookCall}
    (hdoc : call.Documented band)
    (hfew : (quantities ++ entered [call]).length < kWord64) :
    Accounts (quantities ++ entered [call]) (rs ++ x.responses symbolId call)
        (OpenIn (x.step call).book.resting) ∧
      Paired ((x.updates symbolId call).filter fun u => u.type = .trade)
        ((x.responses symbolId call).filter fun r => r.type = .filled) := by
  cases call with
  | add clientId clientOrderId side price quantity =>
    refine ⟨hinv.add_accounts symbolId clientId clientOrderId h hcount ?_ hdoc.2.2.2.2, ?_⟩
    · simpa [entered, hcount] using hfew
    · have hpaired := (sweep_sweeps side price x.book.resting quantity).paired symbolId clientId
        clientOrderId ((x.book.arrivals + 1) % kWord64) hdoc.2.2.1
      simp only [updates, responses, ListBook.addUpdates, ListBook.addResponses, List.filter_append]
      rw [List.filter_cons_of_neg (by simp)]
      refine (congrArg (Paired · _) ?_).mpr hpaired
      split <;> simp [ListBook.fills]
  | cancel clientId clientOrderId =>
    have hfew' : x.book.arrivals < kWord64 := by simpa [entered, hcount] using hfew
    refine ⟨?_, ?_⟩
    · simpa [entered] using hinv.cancel_accounts symbolId clientId clientOrderId h hfew'
    · simp only [updates, responses]
      cases x.find clientId clientOrderId <;> trivial

/-- **A run of documented calls keeps the accounts.** -/
theorem Inv.run_accounts (symbolId : Nat) :
    ∀ {calls : List BookCall} {x : IndexedBook} {quantities : List Nat}
      {rs : List MatchingEngineClientResponse}, Inv band x →
      Accounts quantities rs (OpenIn x.book.resting) → quantities.length = x.book.arrivals →
      (∀ call ∈ calls, call.Documented band) → (quantities ++ entered calls).length < kWord64 →
      Accounts (quantities ++ entered calls)
          (rs ++ Run.outputs IndexedBook.step (responses symbolId) x calls)
          (OpenIn (calls.foldl IndexedBook.step x).book.resting) ∧
        Paired
          ((Run.outputs IndexedBook.step (updates symbolId) x calls).filter fun u => u.type =
            .trade)
          ((Run.outputs IndexedBook.step (responses symbolId) x calls).filter
            fun r => r.type = .filled)
  | [], _, quantities, rs, _, h, _, _, _ => by
    simpa [entered] using ⟨h, (trivial : Paired [] [])⟩
  | call :: calls, x, quantities, rs, hinv, h, hcount, hdoc, hfew => by
    rw [entered_cons, ← List.append_assoc] at hfew
    have hd := hdoc call List.mem_cons_self
    have hfew' : (quantities ++ entered [call]).length < kWord64 := by
      rw [List.length_append] at hfew
      omega
    obtain ⟨hcall, hpaired⟩ := hinv.call_accounts symbolId h hcount hd hfew'
    obtain ⟨hrest, hpaired'⟩ := run_accounts symbolId (hinv.step hd) hcall
      (by rw [List.length_append, hcount, length_entered, arrivals_step])
      (fun c hc => hdoc c (List.mem_cons_of_mem _ hc)) hfew
    rw [entered_cons, Run.outputs_cons, Run.outputs_cons, List.filter_append, List.filter_append,
      ← List.append_assoc, ← List.append_assoc]
    exact ⟨hrest, hpaired.append hpaired'⟩

end IndexedBook

namespace BookCore

/-- Some resting order has this market order id and this remaining quantity. -/
def RestsWith (b : BookCore) (id remaining : Nat) : Prop :=
  ∃ side tick a node, b.RestsAt side tick a node ∧ node.marketOrderId = id ∧
    node.remainingQuantity = remaining

theorem Rep.restsWith_iff {b : BookCore} {addr : Nat → Nat} {x : IndexedBook} (h : b.Rep addr x)
    (hinv : IndexedBook.Inv b.band x) (hfew : x.book.arrivals < kWord64) {id remaining : Nat} :
    b.RestsWith id remaining ↔ OpenIn x.book.resting id remaining := by
  have hid : ∀ o ∈ x.book.resting, o.marketOrderId = o.arrival := fun o ho =>
    Nat.mod_eq_of_lt ((hinv.bounded o ho).trans_lt hfew)
  constructor
  · rintro ⟨side, tick, a, node, hrests, rfl, rfl⟩
    obtain ⟨-, -, hnode, o, ho, -, rfl⟩ := h.restsAt_iff.mp hrests
    obtain ⟨n, hn, hstored⟩ := h.node o ho
    obtain rfl := Option.some.inj (hnode.symm.trans hn)
    exact ⟨o, ho, by rw [hstored.marketOrderId, hid o ho], hstored.remainingQuantity.symm⟩
  · rintro ⟨o, ho, rfl, rfl⟩
    obtain ⟨tick, node, hrests, hstored, -⟩ := h.exists_restsAt hinv ho
    exact ⟨o.side, tick, _, node, hrests, by rw [hstored.marketOrderId, hid o ho],
      hstored.remainingQuantity⟩

/-- **The life of every order.**  The `i`-th order entered, of quantity `original`, has the market
order id `i + 1`; the responses with that id follow the grammar, and it is at work with a remaining
quantity exactly when an order with that id and that quantity rests.  No response carries another
id but 0, and the fills come in pairs that match the trades.  Client order ids play no part, so it
does not matter whether they are used again; the market order ids must not wrap, so fewer than
`2 ^ 64` orders are entered. -/
theorem order_life_cycle (symbolId : Nat) {band : PriceBand} {calls : List BookCall} {b : BookCore}
    (hband : band.isValid = true) (hdoc : ∀ call ∈ calls, call.Documented band)
    (hfew : (entered calls).length < kWord64) (hrun : run symbolId band calls = .ok b) :
    (∀ i original, (entered calls)[i]? = some original → ∃ stage,
        LifeCycle original (b.outgoingClientResponses.filter fun r => r.marketOrderId = i + 1)
          stage ∧
        ∀ remaining, stage = .working remaining ↔ b.RestsWith (i + 1) remaining) ∧
      (∀ r ∈ b.outgoingClientResponses, r.marketOrderId ≤ (entered calls).length) ∧
      Paired (b.outgoingMarketUpdates.filter fun u => u.type = .trade)
        (b.outgoingClientResponses.filter fun r => r.type = .filled) := by
  obtain ⟨b₂, hrun₂, hsim, hresponses, hupdates⟩ :=
    run_sim symbolId hband (admits_of_run hband hdoc hrun)
  obtain rfl := Except.ok.inj (hrun.symm.trans hrun₂)
  obtain ⟨addr, hrep⟩ := hsim.rep
  have hinv := hsim.inv
  rw [← hsim.band] at hinv
  obtain ⟨haccounts, hpaired⟩ := IndexedBook.Inv.empty.run_accounts symbolId Accounts.empty rfl hdoc
    (by simpa using hfew)
  rw [List.nil_append, List.nil_append, ← hresponses] at haccounts
  rw [← hresponses, ← hupdates] at hpaired
  refine ⟨fun i original hi => ?_, haccounts.known, hpaired⟩
  obtain ⟨stage, hlife, hstage⟩ := haccounts.life i original hi
  refine ⟨stage, hlife, fun remaining => (hstage remaining).trans (hrep.restsWith_iff hinv ?_).symm⟩
  rw [IndexedBook.arrivals_foldl, ← IndexedBook.length_entered]
  simpa [IndexedBook.empty, ListBook.empty] using hfew

/-- A partial trade, then a cancel of the rest. -/
theorem order_life_cycle_canceled :
    ∃ b, run 0 kDefaultPriceBand [.add 1 1 .sell 10 5, .add 2 1 .buy 10 2, .cancel 1 1] = .ok b ∧
      (∀ i original, [5, 2][i]? = some original → ∃ stage,
        LifeCycle original (b.outgoingClientResponses.filter fun r => r.marketOrderId = i + 1)
          stage ∧
        ∀ remaining, stage = .working remaining ↔ b.RestsWith (i + 1) remaining) ∧
      (∀ r ∈ b.outgoingClientResponses, r.marketOrderId ≤ 2) ∧
      Paired (b.outgoingMarketUpdates.filter fun u => u.type = .trade)
        (b.outgoingClientResponses.filter fun r => r.type = .filled) := by
  have hband : kDefaultPriceBand.isValid = true := by decide
  have hdoc : ∀ call ∈ [BookCall.add 1 1 .sell 10 5, .add 2 1 .buy 10 2, .cancel 1 1],
      call.Documented kDefaultPriceBand := by decide
  obtain ⟨b, -, hrun, -⟩ := run_published 0 hband hdoc (by decide)
  exact ⟨b, hrun, order_life_cycle 0 hband hdoc (by decide) hrun⟩

end BookCore

end YQuant
