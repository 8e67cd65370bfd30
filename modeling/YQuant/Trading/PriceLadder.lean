/-
# The price levels of one side

The levels of a side form a ring, strictly sorted from the best price to the worst one.  `Ladder`
says so of a list of rungs, a price and the slot of its level each.  `addOrdersAtPrice` walks the
ring to the place of a new price and links the level in on one side of the level it found;
`addOrdersAtPrice_spec` says that the ring is then the sorted one with the new rung in its place,
whatever the walk found.  `removeOrdersAtPrice_spec` is the same for taking a level out.

The walk is where the cases are.  It starts at the best level and stops at the first one that is
not ahead of the new price, or when it is back (`searchLoop_spec`); then the new level goes before
or after what was found, and may have to become the best one.  Four shapes of the ring come out of
this, and all of them are the same ring with another head.

`addOrdersAtPrice_sorted` states the result for itself, for any levels of a side, with what is
framed: of the levels only the links are written.  That no level has the price already is asked;
the callers know it from the table (`Ladders.lean`).
-/
import Mathlib.Data.List.Perm.Subperm
import Mathlib.Data.List.TakeWhile
import YQuant.Trading.MarketOrderBook

namespace YQuant

/-- A price level: its price and its slot. -/
structure Rung where
  price : Int
  slot : Nat
deriving DecidableEq, Repr

namespace MarketOrderBook

/-! ## 1. Prices from best to worst -/

section Order

variable {side : Side} {p t u : Int}

theorem addAfter_iff (hs : side.Directional) :
    addAfter side p t = true ↔ if side = .buy then p < t else t < p := by
  rcases hs with rfl | rfl <;> simp [addAfter]

theorem addAfter_trans (hs : side.Directional) (h : addAfter side p t = true)
    (h' : addAfter side t u = true) : addAfter side p u = true := by
  rw [addAfter_iff hs] at *
  rcases hs with rfl | rfl
  · simp only [if_true] at *; omega
  · simp only [reduceCtorEq, if_false] at *; omega

theorem addAfter_irrefl : addAfter side p p = false := by
  simp [addAfter]

/-- Of two different prices of a side, one is behind the other. -/
theorem addAfter_of_not (hs : side.Directional) (hne : p ≠ t) (h : addAfter side p t = false) :
    addAfter side t p = true := by
  rw [← Bool.not_eq_true, addAfter_iff hs] at h
  rw [addAfter_iff hs]
  rcases hs with rfl | rfl
  · simp only [if_true] at *; omega
  · simp only [reduceCtorEq, if_false] at *; omega

theorem addAfter_asymm (hs : side.Directional) (h : addAfter side p t = true) :
    addAfter side t p = false := by
  rw [← Bool.not_eq_true]
  intro h'
  have := addAfter_trans hs h h'
  rw [addAfter_irrefl] at this
  cases this

/-- The condition under which a new level becomes the best one. -/
theorem improves_eq : ((decide (side = .buy) && decide (p > t)) ||
    (decide (side = .sell) && decide (p < t))) = addAfter side t p := by
  rw [addAfter, Bool.or_comm]

end Order

/-! ## 2. Ladders -/

/-- The rungs that are ahead of a price. -/
def ahead (side : Side) (price : Int) (r : Rung) : Bool := addAfter side price r.price

/-- A new rung takes its place. -/
def enter (side : Side) (new : Rung) (rungs : List Rung) : List Rung :=
  rungs.takeWhile (ahead side new.price) ++ new :: rungs.dropWhile (ahead side new.price)

/-- **The levels of one side.** -/
structure Ladder (p : MemPool MarketOrdersAtPrice) (side : Side) (best : Option Nat)
    (rungs : List Rung) : Prop where
  best : best = (rungs.map Rung.slot).head?
  ring : Links.Ring (entryLinks.nx p) (entryLinks.pv p) (rungs.map Rung.slot)
  sorted : rungs.Pairwise fun r s => addAfter side s.price r.price = true
  entry : ∀ r ∈ rungs, ∃ v, p.object? r.slot = some v ∧ v.side = side ∧ v.price = r.price

section Sorted

variable {side : Side} {new : Rung} {rungs : List Rung}

theorem mem_enter {r : Rung} : r ∈ enter side new rungs ↔ r = new ∨ r ∈ rungs := by
  conv_rhs => rw [← List.takeWhile_append_dropWhile (p := ahead side new.price) (l := rungs)]
  simp only [enter, List.mem_append, List.mem_cons]
  tauto

variable (side new rungs) in
theorem enter_perm : (enter side new rungs).Perm (new :: rungs) := by
  refine List.perm_middle.trans (List.Perm.cons _ ?_)
  rw [List.takeWhile_append_dropWhile]

/-- In a sorted ladder everything from the first rung that is not ahead is not ahead. -/
theorem not_ahead_of_mem_dropWhile (hs : side.Directional)
    (hsorted : rungs.Pairwise fun r s => addAfter side s.price r.price = true) {price : Int} :
    ∀ r ∈ rungs.dropWhile (ahead side price), ahead side price r = false := by
  induction rungs with
  | nil => simp
  | cons a rungs ih =>
    obtain ⟨ha, hrest⟩ := List.pairwise_cons.mp hsorted
    rw [List.dropWhile_cons]
    split
    · exact ih hrest
    · next hna =>
      intro r hr
      rw [Bool.not_eq_true] at hna
      rcases List.mem_cons.mp hr with rfl | hr
      · exact hna
      · rw [← Bool.not_eq_true]
        intro hahead
        have := addAfter_trans hs hahead (ha r hr)
        exact Bool.noConfusion (this.symm.trans hna)

/-- **Entering keeps a ladder sorted.** -/
theorem enter_sorted (hs : side.Directional)
    (hsorted : rungs.Pairwise fun r s => addAfter side s.price r.price = true)
    (hnew : ∀ r ∈ rungs, r.price ≠ new.price) :
    (enter side new rungs).Pairwise fun r s => addAfter side s.price r.price = true := by
  have hbehind : ∀ r ∈ rungs.dropWhile (ahead side new.price),
      addAfter side r.price new.price = true := fun r hr =>
    addAfter_of_not hs (Ne.symm (hnew r ((List.dropWhile_sublist _).mem hr)))
      (not_ahead_of_mem_dropWhile hs hsorted r hr)
  have hahead : ∀ r ∈ rungs.takeWhile (ahead side new.price),
      ahead side new.price r = true := fun r hr => List.mem_takeWhile_imp hr
  rw [enter, List.pairwise_append, List.pairwise_cons]
  refine ⟨hsorted.sublist (List.takeWhile_sublist _), ⟨hbehind,
    hsorted.sublist (List.dropWhile_sublist _)⟩, fun r hr s hsm => ?_⟩
  rcases List.mem_cons.mp hsm with rfl | hsm
  · exact hahead r hr
  · exact addAfter_trans hs (hbehind s hsm) (hahead r hr)

end Sorted

/-- What a level keeps when links are rewritten. -/
theorem entry_of_core {p p' : MemPool MarketOrdersAtPrice} {a : Nat} {v : MarketOrdersAtPrice}
    (hcore : entryLinks.core p' a = entryLinks.core p a) (hv : p.object? a = some v) :
    ∃ v', p'.object? a = some v' ∧ v'.side = v.side ∧ v'.price = v.price ∧
      v'.firstMktOrder = v.firstMktOrder := by
  obtain ⟨v', hv', hbare⟩ := LinkFields.object_of_core hcore hv
  have hfields := MarketOrdersAtPrice.mk.injEq .. ▸ hbare
  exact ⟨v', hv', hfields.1, hfields.2.1, hfields.2.2.1⟩

/-- A ladder only reads its own levels. -/
theorem Ladder.congr {p p' : MemPool MarketOrdersAtPrice} {side : Side} {best : Option Nat}
    {rungs : List Rung} (h : Ladder p side best rungs)
    (hlinks : ∀ r ∈ rungs, entryLinks.nx p' r.slot = entryLinks.nx p r.slot ∧
      entryLinks.pv p' r.slot = entryLinks.pv p r.slot)
    (hcore : ∀ r ∈ rungs, entryLinks.core p' r.slot = entryLinks.core p r.slot) :
    Ladder p' side best rungs where
  best := h.best
  ring := h.ring.congr fun x hx => by
    obtain ⟨r, hr, rfl⟩ := List.mem_map.mp hx
    exact hlinks r hr
  sorted := h.sorted
  entry := fun r hr => by
    obtain ⟨v, hv, hside, hprice⟩ := h.entry r hr
    obtain ⟨v', hv', hside', hprice', -⟩ := entry_of_core (hcore r hr) hv
    exact ⟨v', hv', hside'.trans hside, hprice'.trans hprice⟩

/-! ## 3. The search for a place -/

section Search

variable {p : MemPool MarketOrdersAtPrice} {side : Side} {b : Rung} {rungs : List Rung}
  {price : Int}

theorem read_price (h : Ladder p side (some b.slot) rungs) {r : Rung} (hr : r ∈ rungs) :
    p.read (some r.slot) (·.price) = .ok r.price := by
  obtain ⟨v, hv, -, hprice⟩ := h.entry r hr
  simp [MemPool.read, MemPool.deref_some hv, hprice]

/-- Behind a level of the ring comes the next one, and the best one behind the last. -/
theorem read_nextEntry {l s : List Rung} {r : Rung} {best : Option Nat}
    (h : Ladder p side best (l ++ r :: s)) :
    p.read (some r.slot) (·.nextEntry) = .ok ((s.map Rung.slot).head?.or best) := by
  obtain ⟨v, hv, -, -⟩ := h.entry r (by simp)
  have hring := h.ring
  rw [List.map_append, List.map_cons] at hring
  have hnx := (Links.seg_append.mp hring).2.2.1
  rw [LinkFields.nx_of_object hv] at hnx
  simp only [MemPool.read, MemPool.deref_some hv, ok_bind]
  rw [h.best, List.map_append, List.map_cons]
  exact congrArg Except.ok hnx

/-- **The walk stops at the first level that is not ahead of the price**, or comes back to the
best one. -/
theorem searchLoop_spec (s : List Rung) (price : Int) : ∀ {l : List Rung} {fuel : Nat}, l ≠ [] →
    Ladder p side (some b.slot) (l ++ s) → ((l ++ s).map Rung.slot).Nodup → s.length < fuel →
    searchLoop p side price (some b.slot) fuel ((s.map Rung.slot).head?.or (some b.slot)) true =
      .ok (((s.dropWhile (ahead side price)).map Rung.slot).head?.or (some b.slot),
        (s.dropWhile (ahead side price)).isEmpty) := by
  induction s with
  | nil =>
    intro l fuel _ _ _ hfuel
    obtain ⟨k, rfl⟩ := Nat.exists_eq_add_of_lt hfuel
    simp [searchLoop]
  | cons t s ih =>
    intro l fuel hl h hnd hfuel
    obtain ⟨k, rfl⟩ : ∃ k, fuel = k + 2 :=
      ⟨fuel - 2, by rw [List.length_cons] at hfuel; omega⟩
    -- the walk has left the best level
    have hne : some t.slot ≠ some b.slot := by
      intro hts
      have hb := h.best
      rw [List.map_append, List.head?_append_of_ne_nil _ (by simpa using hl)] at hb
      have hmem : b.slot ∈ l.map Rung.slot := List.mem_of_head? hb.symm
      rw [List.map_append] at hnd
      exact (List.nodup_append.mp hnd).2.2 _ hmem t.slot (by simp) (Option.some.inj hts).symm
    have hprice : p.read (some t.slot) (·.price) = .ok t.price := read_price h (by simp)
    have hnext := read_nextEntry h
    rw [List.map_cons, List.head?_cons, Option.some_or, searchLoop]
    rw [if_pos (by simp [hne]), hprice, ok_bind]
    cases hah : addAfter side price t.price with
    | true =>
      have hdrop : (t :: s).dropWhile (ahead side price) = s.dropWhile (ahead side price) := by
        rw [List.dropWhile_cons, ahead, if_pos hah]
      rw [hdrop]
      simp only [advanceIf, if_true, hnext, ok_bind]
      refine ih (l := l ++ [t]) (by simp) (by simpa using h) (by simpa using hnd) ?_
      rw [List.length_cons] at hfuel
      omega
    | false =>
      have hdrop : (t :: s).dropWhile (ahead side price) = t :: s := by
        rw [List.dropWhile_cons, if_neg (by rw [ahead, hah]; simp)]
      rw [hdrop]
      simp [advanceIf, searchLoop]

/-- **The place of a new price**: before the first level that is not ahead of it, or after the
best one again when there is none. -/
theorem searchTarget_spec (price : Int) (h : Ladder p side (some b.slot) (b :: rungs))
    (hnd : ((b :: rungs).map Rung.slot).Nodup) (hlen : rungs.length ≤ kMaxPriceLevels) :
    searchTarget p side price (some b.slot) =
      .ok ((((b :: rungs).dropWhile (ahead side price)).map Rung.slot).head?.or (some b.slot),
        ((b :: rungs).dropWhile (ahead side price)).isEmpty) := by
  have hprice : p.read (some b.slot) (·.price) = .ok b.price := read_price h (by simp)
  have hnext := read_nextEntry (l := []) h
  rw [searchTarget, hprice, ok_bind, List.dropWhile_cons]
  cases hah : addAfter side price b.price with
  | false => simp [ahead, hah]
  | true =>
    simp only [ahead, hah, if_true, hnext, ok_bind]
    have hloop := searchLoop_spec rungs price (l := [b]) (by simp) h hnd
      (Nat.lt_succ_of_le hlen)
    cases rungs with
    | nil =>
      simp only [List.map_nil, List.head?_nil, Option.none_or] at hloop ⊢
      rw [hprice, ok_bind, hah, hloop]
    | cons t s =>
      have htprice : p.read (some t.slot) (·.price) = .ok t.price := read_price h (by simp)
      simp only [List.map_cons, List.head?_cons, Option.some_or, htprice, ok_bind] at hloop ⊢
      cases hat : addAfter side price t.price with
      | true => exact hloop
      | false => simp [searchLoop, ahead, hat]

end Search

/-! ## 4. A new level takes its place -/

section Enter

variable {p p' : MemPool MarketOrdersAtPrice} {side : Side} {live : List Nat} {e : Nat}
  {q q' : List Nat}

/-- `p'` is `p` with the cell `e` linked into the ring `q`, which has become `q'`. -/
structure Placed (p p' : MemPool MarketOrdersAtPrice) (live : List Nat) (e : Nat)
    (q q' : List Nat) : Prop where
  inv : p'.Inv live
  capacity : p'.capacity = p.capacity
  core : ∀ x, entryLinks.core p' x = entryLinks.core p x
  ring : Links.Ring (entryLinks.nx p') (entryLinks.pv p') q'
  frame : ∀ x, x ≠ e → x ∉ q →
    entryLinks.nx p' x = entryLinks.nx p x ∧ entryLinks.pv p' x = entryLinks.pv p x

theorem Placed.of_relinked {n v : Nat → Option Nat} (h : entryLinks.Relinked p p' live n v)
    (hring : Links.Ring n v q')
    (hframe : ∀ x, x ≠ e → x ∉ q → n x = entryLinks.nx p x ∧ v x = entryLinks.pv p x) :
    Placed p p' live e q q' where
  inv := h.inv
  capacity := h.capacity
  core := h.core_eq
  ring := by rw [h.nx_eq, h.pv_eq]; exact hring
  frame := by rw [h.nx_eq, h.pv_eq]; exact hframe

theorem Placed.trans_core {p'' : MemPool MarketOrdersAtPrice} (h : Placed p p' live e q q')
    (h' : entryLinks.Relinked p' p'' live (entryLinks.nx p') (entryLinks.pv p')) :
    Placed p p'' live e q q' where
  inv := h'.inv
  capacity := h'.capacity.trans h.capacity
  core := fun x => (h'.core_eq x).trans (h.core x)
  ring := by rw [h'.nx_eq, h'.pv_eq]; exact h.ring
  frame := by rw [h'.nx_eq, h'.pv_eq]; exact h.frame

/-- Past the last level: the new one goes between the last and the best one. -/
theorem addAfterTarget_spec (hinv : p.Inv live) (hsub : ∀ x ∈ q, x ∈ live) (he : e ∈ live)
    (heq : e ∉ q) (hnd : q.Nodup) {b : Nat} (hb : q.head? = some b)
    (hring : Links.Ring (entryLinks.nx p) (entryLinks.pv p) q) :
    ∃ p', addAfterTarget p (some e) (some b) (some b) = .ok p' ∧
      Placed p p' live e q (q ++ [e]) := by
  have hbq : b ∈ q := List.mem_of_head? hb
  obtain ⟨z, hz⟩ : ∃ z, q.getLast? = some z :=
    Option.ne_none_iff_exists'.mp (by simpa using List.ne_nil_of_mem hbq)
  obtain ⟨p', n, v, hp', hrel, hring', hframe⟩ :=
    LinkFields.insertAfter_spec (L := entryLinks) hinv hsub he heq hnd hz hring
  refine ⟨p', ?_, .of_relinked hrel hring' hframe⟩
  have hprev : p.read (some b) (·.prevEntry) = .ok (some z) := by
    have := LinkFields.read_prev (L := entryLinks) hinv (hsub b hbq)
    rw [(LinkFields.ring_ends hring hz hb).2] at this
    exact this
  simp only [addAfterTarget, if_true, hprev, ok_bind, hp']

/-- Before a level inside the ring. -/
theorem insertBefore_mid (hinv : p.Inv live) {l r : List Nat} {t : Nat}
    (hsub : ∀ x ∈ l ++ t :: r, x ∈ live) (he : e ∈ live) (heq : e ∉ l ++ t :: r)
    (hnd : (l ++ t :: r).Nodup)
    (hring : Links.Ring (entryLinks.nx p) (entryLinks.pv p) (l ++ t :: r)) :
    ∃ p', entryLinks.insertBefore p (some e) (some t) = .ok p' ∧
      Placed p p' live e (l ++ t :: r) (l ++ e :: t :: r) := by
  have hperm : (t :: r ++ l).Perm (l ++ t :: r) := List.perm_append_comm
  obtain ⟨p', n, v, hp', hrel, hring', hframe⟩ :=
    LinkFields.insertBefore_spec (L := entryLinks) (q := t :: r ++ l) (t := t) hinv
      (fun x hx => hsub x (hperm.mem_iff.mp hx)) he (fun h => heq (hperm.mem_iff.mp h))
      (hperm.nodup_iff.mpr hnd) rfl hring.rotate
  refine ⟨p', hp', .of_relinked hrel ?_ fun x hxe hx => hframe x hxe fun h =>
    hx (hperm.mem_iff.mp h)⟩
  rw [List.append_assoc] at hring'
  have := hring'.rotate
  rwa [List.append_assoc] at this

variable {m : MarketOrderBook} {new : Rung} {rungs : List Rung}

theorem setBestOrdersByPrice_self {best : Option Nat} (h : m.bestOrdersByPrice side = best) :
    m.setBestOrdersByPrice side best = m := by
  subst h
  unfold setBestOrdersByPrice bestOrdersByPrice
  split <;> rfl

/-- A level behind the best one leaves it the best one. -/
theorem improveBest_of_behind {b : Rung} (target : Option Nat)
    (hb : m.ordersAtPricePool.read (some b.slot) (·.price) = .ok b.price)
    (hbehind : addAfter side b.price new.price = false) :
    m.improveBest side new.price (some new.slot) (some b.slot) target = .ok m := by
  simp only [improveBest, hb, ok_bind, improves_eq, hbehind, Bool.false_eq_true, if_false]

/-- A level in front of the best one becomes the best one: the links are already right. -/
theorem improveBest_of_ahead (side : Side) {b : Rung} {q : List Nat}
    (hb : m.ordersAtPricePool.read (some b.slot) (·.price) = .ok b.price)
    (hahead : addAfter side b.price new.price = true)
    (hplaced : Placed p m.ordersAtPricePool live new.slot q (new.slot :: b.slot :: q'))
    (hlive : b.slot ∈ live) (hnd : (new.slot :: b.slot :: q').Nodup) :
    ∃ p', m.improveBest side new.price (some new.slot) (some b.slot) (some b.slot) =
        .ok ({ m with ordersAtPricePool := p' }.setBestOrdersByPrice side (some new.slot)) ∧
      Placed p p' live new.slot q (new.slot :: b.slot :: q') := by
  have hnx : entryLinks.nx m.ordersAtPricePool b.slot = q'.head?.or (some new.slot) :=
    hplaced.ring.2.2.2.1
  -- the best one is not alone, so its forward link leads elsewhere
  have hne : q'.head?.or (some new.slot) ≠ some b.slot := by
    have hrot : Links.Ring _ _ (b.slot :: (q' ++ [new.slot])) :=
      @Links.Ring.rotate _ _ _ [new.slot] (b.slot :: q') hplaced.ring
    have hperm : (new.slot :: b.slot :: q').Perm (b.slot :: (q' ++ [new.slot])) :=
      @List.perm_append_comm _ [new.slot] (b.slot :: q')
    have hnd' : (b.slot :: (q' ++ [new.slot])).Nodup := hperm.nodup_iff.mp hnd
    rw [← hnx]
    exact (hrot.links_ne_self (by simp) hnd').2
  have hread : m.ordersAtPricePool.read (some b.slot) (·.nextEntry) =
      .ok (q'.head?.or (some new.slot)) := by
    rw [← hnx]
    exact LinkFields.read_next (L := entryLinks) hplaced.inv hlive
  obtain ⟨p', hp', hrel⟩ := LinkFields.modify_setNext (L := entryLinks) hplaced.inv hlive
    (q'.head?.or (some new.slot))
  rw [← hnx, Function.update_eq_self] at hrel
  refine ⟨p', ?_, hplaced.trans_core hrel⟩
  simp only [improveBest, hb, ok_bind, improves_eq, hahead, if_true, hread, if_neg hne, hp']

/-- Before `t`, the first level that is not ahead, the new one becomes the best one exactly when it
has become the first of its side. -/
theorem improveBest_spec (hs : side.Directional) {b t : Rung} {l r : List Rung} {q : List Nat}
    (hsplit : l ++ t :: r = b :: rungs)
    (hb : m.ordersAtPricePool.read (some b.slot) (·.price) = .ok b.price)
    (hbest : m.bestOrdersByPrice side = some b.slot)
    (hl : ∀ x ∈ l, ahead side new.price x = true) (ht : ahead side new.price t = false)
    (hne : t.price ≠ new.price)
    (hplaced : Placed p m.ordersAtPricePool live new.slot q ((l ++ new :: t :: r).map Rung.slot))
    (hlive : t.slot ∈ live) (hnd : ((l ++ new :: t :: r).map Rung.slot).Nodup) :
    ∃ p', m.improveBest side new.price (some new.slot) (some b.slot) (some t.slot) =
        .ok ({ m with ordersAtPricePool := p' }.setBestOrdersByPrice side
          ((l ++ new :: t :: r).map Rung.slot).head?) ∧
      Placed p p' live new.slot q ((l ++ new :: t :: r).map Rung.slot) := by
  cases l with
  | nil =>
    -- no level is ahead: the new one becomes the best one
    obtain ⟨rfl, rfl⟩ := List.cons.inj hsplit
    have hah : addAfter side t.price new.price = true := addAfter_of_not hs (Ne.symm hne) ht
    exact improveBest_of_ahead side hb hah hplaced hlive hnd
  | cons a l =>
    -- the best one is ahead and stays the best one
    obtain ⟨rfl, rfl⟩ := List.cons.inj hsplit
    have hbehind : addAfter side a.price new.price = false :=
      addAfter_asymm hs (hl a List.mem_cons_self)
    refine ⟨m.ordersAtPricePool, ?_, hplaced⟩
    rw [improveBest_of_behind (some t.slot) hb hbehind]
    exact congrArg Except.ok (setBestOrdersByPrice_self hbest).symm

variable (new) in
/-- **A new level takes its place** in the table and in the list of its side. -/
theorem addOrdersAtPrice_spec (hs : side.Directional) (hinv : m.ordersAtPricePool.Inv live)
    (hsub : ∀ r ∈ rungs, r.slot ∈ live) (hlive : new.slot ∈ live)
    (hnew : new.slot ∉ rungs.map Rung.slot) (hprice : ∀ r ∈ rungs, r.price ≠ new.price)
    (hnd : (rungs.map Rung.slot).Nodup) (hlen : rungs.length ≤ kMaxPriceLevels)
    {entry : MarketOrdersAtPrice} (hentry : m.ordersAtPricePool.object? new.slot = some entry)
    (hside : entry.side = side) (heprice : entry.price = new.price)
    (h : Ladder m.ordersAtPricePool side (m.bestOrdersByPrice side) rungs) :
    ∃ p', m.addOrdersAtPrice (some new.slot) =
        .ok ({ m with
          priceOrdersAtPrice :=
            Function.update m.priceOrdersAtPrice (priceToIndex new.price) (some new.slot)
          ordersAtPricePool := p' }.setBestOrdersByPrice side
            ((enter side new rungs).map Rung.slot).head?) ∧
      Placed m.ordersAtPricePool p' live new.slot (rungs.map Rung.slot)
        ((enter side new rungs).map Rung.slot) := by
  have hreadS : m.ordersAtPricePool.read (some new.slot) (·.side) = .ok side := by
    simp [MemPool.read, MemPool.deref_some hentry, hside]
  have hreadP : m.ordersAtPricePool.read (some new.slot) (·.price) = .ok new.price := by
    simp [MemPool.read, MemPool.deref_some hentry, heprice]
  have hbest : ∀ t, MarketOrderBook.bestOrdersByPrice { m with priceOrdersAtPrice := t } side =
      m.bestOrdersByPrice side := fun _ => rfl
  cases rungs with
  | nil =>
    have hnone : m.bestOrdersByPrice side = none := h.best
    obtain ⟨p', n, v, hp', hrel, hring, hframe⟩ :=
      LinkFields.linkToSelf_spec (L := entryLinks) hinv hlive
    refine ⟨p', ?_, .of_relinked hrel hring fun x hx _ => hframe x hx⟩
    simp only [addOrdersAtPrice, hreadS, hreadP, ok_bind, hbest, hnone, if_true, hp']
    rfl
  | cons b rungs =>
    have hb : m.bestOrdersByPrice side = some b.slot := h.best
    rw [hb] at h
    have hsearch := searchTarget_spec new.price h hnd
      (by rw [List.length_cons] at hlen; omega)
    have hsubq : ∀ x ∈ (b :: rungs).map Rung.slot, x ∈ live := fun x hx => by
      obtain ⟨r, hr, rfl⟩ := List.mem_map.mp hx
      exact hsub r hr
    have hsplit := List.takeWhile_append_dropWhile (p := ahead side new.price) (l := b :: rungs)
    cases hdrop : (b :: rungs).dropWhile (ahead side new.price) with
    | nil =>
      -- every level is ahead: the new one goes last
      rw [hdrop, List.append_nil] at hsplit
      rw [hdrop] at hsearch
      obtain ⟨p', hp', hplaced⟩ := addAfterTarget_spec hinv hsubq hlive hnew hnd
        (b := b.slot) rfl h.ring
      have henter : enter side new (b :: rungs) = b :: rungs ++ [new] := by
        rw [enter, hdrop, hsplit]
      rw [henter, List.map_append]
      refine ⟨p', ?_, hplaced⟩
      simp only [addOrdersAtPrice, hreadS, hreadP, ok_bind, hbest, hb, reduceCtorEq, if_false,
        hsearch, List.map_nil, List.head?_nil, Option.none_or, List.isEmpty_nil, if_true, hp']
      refine congrArg Except.ok (Eq.symm (setBestOrdersByPrice_self ?_))
      exact hb
    | cons t r =>
      rw [hdrop] at hsearch
      have henter : enter side new (b :: rungs) =
          (b :: rungs).takeWhile (ahead side new.price) ++ new :: t :: r := by rw [enter, hdrop]
      rw [hdrop] at hsplit
      rw [henter]
      have hmap : (b :: rungs).map Rung.slot =
          ((b :: rungs).takeWhile (ahead side new.price)).map Rung.slot ++
            t.slot :: r.map Rung.slot := by
        conv_lhs => rw [← hsplit]
        rw [List.map_append, List.map_cons]
      obtain ⟨p', hp', hplaced⟩ := insertBefore_mid (e := new.slot) hinv
        (hmap ▸ hsubq) hlive (hmap ▸ hnew) (hmap ▸ hnd) (hmap ▸ h.ring)
      rw [← hmap] at hplaced
      have hreadB : p'.read (some b.slot) (·.price) = .ok b.price := by
        obtain ⟨v, hv, -, hvp⟩ := h.entry b (by simp)
        obtain ⟨v', hv', -, hpr, -⟩ := entry_of_core (hplaced.core _) hv
        simp [MemPool.read, MemPool.deref_some hv', hpr, hvp]
      have hl : ∀ x ∈ (b :: rungs).takeWhile (ahead side new.price),
          ahead side new.price x = true :=
        fun x hx => List.mem_takeWhile_imp hx
      have ht : ahead side new.price t = false := by
        have := List.head?_dropWhile_not (ahead side new.price) (b :: rungs)
        rwa [hdrop] at this
      have htmem : t ∈ b :: rungs := by
        rw [← hsplit]
        simp
      have hnd' : (((b :: rungs).takeWhile (ahead side new.price) ++ new :: t :: r).map
          Rung.slot).Nodup := by
        have := (List.perm_middle.nodup_iff).mpr (List.nodup_cons.mpr ⟨hmap ▸ hnew, hmap ▸ hnd⟩)
        rwa [List.map_append, List.map_cons, List.map_cons]
      obtain ⟨p'', hp'', hplaced'⟩ := improveBest_spec hs
        (m := { m with
          priceOrdersAtPrice :=
            Function.update m.priceOrdersAtPrice (priceToIndex new.price) (some new.slot)
          ordersAtPricePool := p' })
        hsplit hreadB hb hl ht (hprice t htmem)
        (by rwa [List.map_append, List.map_cons, List.map_cons]) (hsub t htmem) hnd'
      refine ⟨p'', ?_, hplaced'⟩
      simp only [addOrdersAtPrice, hreadS, hreadP, ok_bind, hbest, hb, reduceCtorEq, if_false,
        hsearch, List.map_cons, List.head?_cons, Option.some_or, List.isEmpty_cons,
        Bool.false_eq_true, hp', hp'']

/-- The ladder with the new level in its place. -/
theorem Ladder.of_placed {best : Option Nat} (hs : side.Directional) (h : Ladder p side best rungs)
    (hplaced : Placed p p' live new.slot (rungs.map Rung.slot)
      ((enter side new rungs).map Rung.slot))
    {entry : MarketOrdersAtPrice} (hentry : p.object? new.slot = some entry)
    (hside : entry.side = side) (heprice : entry.price = new.price)
    (hprice : ∀ r ∈ rungs, r.price ≠ new.price) :
    Ladder p' side ((enter side new rungs).map Rung.slot).head? (enter side new rungs) where
  best := rfl
  ring := hplaced.ring
  sorted := enter_sorted hs h.sorted hprice
  entry := fun r hr => by
    rcases mem_enter.mp hr with rfl | hr
    · obtain ⟨v', hv', hside', hprice', -⟩ := entry_of_core (hplaced.core _) hentry
      exact ⟨v', hv', hside'.trans hside, hprice'.trans heprice⟩
    · obtain ⟨v, hv, hvs, hvp⟩ := h.entry r hr
      obtain ⟨v', hv', hside', hprice', -⟩ := entry_of_core (hplaced.core _) hv
      exact ⟨v', hv', hside'.trans hvs, hprice'.trans hvp⟩

end Enter

/-! ## 5. A level leaves -/

section Leave

variable {m : MarketOrderBook} {side : Side} {live : List Nat} {l s : List Rung} {r : Rung}

theorem setBestOrdersByPrice_with (m : MarketOrderBook) (side : Side) (best : Option Nat)
    (t : Nat → Option Nat) (p : MemPool MarketOrdersAtPrice) :
    { m.setBestOrdersByPrice side best with priceOrdersAtPrice := t, ordersAtPricePool := p } =
      { m with priceOrdersAtPrice := t, ordersAtPricePool := p }.setBestOrdersByPrice side
        best := by
  unfold setBestOrdersByPrice
  split <;> rfl

@[simp] theorem ordersAtPricePool_setBest (m : MarketOrderBook) (side : Side)
    (best : Option Nat) :
    (m.setBestOrdersByPrice side best).ordersAtPricePool = m.ordersAtPricePool := by
  unfold setBestOrdersByPrice
  split <;> rfl

@[simp] theorem priceOrdersAtPrice_setBest (m : MarketOrderBook) (side : Side)
    (best : Option Nat) :
    (m.setBestOrdersByPrice side best).priceOrdersAtPrice = m.priceOrdersAtPrice := by
  unfold setBestOrdersByPrice
  split <;> rfl

/-- Unlinking a level that is not alone on its side. -/
theorem unlinkOrdersAtPrice_spec (hinv : m.ordersAtPricePool.Inv live)
    (hsub : ∀ x ∈ l ++ r :: s, x.slot ∈ live) (hnd : ((l ++ r :: s).map Rung.slot).Nodup)
    (hne : l ++ s ≠ [])
    (h : Ladder m.ordersAtPricePool side (m.bestOrdersByPrice side) (l ++ r :: s)) :
    ∃ p', m.unlinkOrdersAtPrice side (some r.slot) (m.bestOrdersByPrice side) =
        .ok ({ m with ordersAtPricePool := p' }.setBestOrdersByPrice side
          ((l ++ s).map Rung.slot).head?) ∧
      Placed m.ordersAtPricePool p' live r.slot ((l ++ r :: s).map Rung.slot)
        ((l ++ s).map Rung.slot) := by
  have hperm : (r.slot :: (s ++ l).map Rung.slot).Perm ((l ++ r :: s).map Rung.slot) := by
    rw [← List.map_cons]
    exact (@List.perm_append_comm _ (r :: s) l).map _
  have hring := h.ring
  rw [List.map_append] at hring
  have hrot := hring.rotate
  rw [← List.map_append, List.cons_append, List.map_cons] at hrot
  have hsl : (s ++ l).map Rung.slot ≠ [] := by simpa [and_comm] using hne
  obtain ⟨p₁, p', n, v, hunlink, -, hclear, hrel₁, hrel, hring', hframe⟩ :=
    LinkFields.unlink_spec (L := entryLinks) (e := r.slot) (q := (s ++ l).map Rung.slot) hinv
      (fun x hx => by
        obtain ⟨y, hy, rfl⟩ := List.mem_map.mp (hperm.mem_iff.mp hx)
        exact hsub y hy)
      (hperm.nodup_iff.mpr hnd) hsl hrot
  have hnot : r.slot ∉ (s ++ l).map Rung.slot :=
    (List.nodup_cons.mp (hperm.nodup_iff.mpr hnd)).1
  have hnext : p₁.read (some r.slot) (·.nextEntry) = .ok ((s ++ l).map Rung.slot).head? := by
    have hread := LinkFields.read_next (L := entryLinks) hrel₁.inv (hsub r (by simp))
    rw [hrel₁.nx_eq, (hframe _ hnot).1, (hrot.links_head hsl).2] at hread
    exact hread
  have hringls : Links.Ring n v ((l ++ s).map Rung.slot) := by
    rw [List.map_append] at hring' ⊢
    exact hring'.rotate
  have hnotls : ∀ x ∈ (l ++ s).map Rung.slot, x ≠ r.slot := fun x hx hxr => by
    rw [List.map_append] at hx hnot
    exact hnot (hxr ▸ List.mem_append.mpr (List.mem_append.mp hx).symm)
  refine ⟨p', ?_, .of_relinked hrel ?_ fun x hxr hx => ?_⟩
  · simp only [unlinkOrdersAtPrice, hunlink, ok_bind, hnext, hclear]
    have hbest := h.best
    cases l with
    | nil =>
      have hhead : some r.slot = m.bestOrdersByPrice side := hbest.symm
      rw [if_pos hhead, List.append_nil, List.nil_append]
      unfold setBestOrdersByPrice
      split <;> rfl
    | cons a l =>
      have hne' : ¬ some r.slot = m.bestOrdersByPrice side := by
        rw [hbest]
        exact fun heq => hnotls a.slot (by simp) (Option.some.inj heq).symm
      rw [if_neg hne']
      exact congrArg Except.ok (setBestOrdersByPrice_self (m := { m with ordersAtPricePool := p' })
        hbest).symm
  · exact hringls.congr fun x hx => by simp [hnotls x hx]
  · have hx' : x ∉ (s ++ l).map Rung.slot := fun hmem =>
      hx (hperm.mem_iff.mp (List.mem_cons_of_mem _ hmem))
    rw [Function.update_of_ne hxr, Function.update_of_ne hxr]
    exact hframe x hx'

/-- **A level leaves** the table and the list of its side. -/
theorem removeOrdersAtPrice_spec (hinv : m.ordersAtPricePool.Inv live)
    (hsub : ∀ x ∈ l ++ r :: s, x.slot ∈ live) (hnd : ((l ++ r :: s).map Rung.slot).Nodup)
    (hget : m.getOrdersAtPrice r.price = some r.slot)
    (h : Ladder m.ordersAtPricePool side (m.bestOrdersByPrice side) (l ++ r :: s)) :
    ∃ p', m.removeOrdersAtPrice side r.price =
        .ok ({ m with
          priceOrdersAtPrice :=
            Function.update m.priceOrdersAtPrice (priceToIndex r.price) none
          ordersAtPricePool := p' }.setBestOrdersByPrice side ((l ++ s).map Rung.slot).head?) ∧
      p'.Inv (live.erase r.slot) ∧ p'.capacity = m.ordersAtPricePool.capacity ∧
      Ladder p' side ((l ++ s).map Rung.slot).head? (l ++ s) ∧
      (∀ x, x ≠ r.slot → entryLinks.core p' x = entryLinks.core m.ordersAtPricePool x) ∧
      ∀ x, x ∉ (l ++ r :: s).map Rung.slot →
        entryLinks.nx p' x = entryLinks.nx m.ordersAtPricePool x ∧
          entryLinks.pv p' x = entryLinks.pv m.ordersAtPricePool x := by
  have hrlive : r.slot ∈ live := hsub r (by simp)
  obtain ⟨v, hv, -, -⟩ := h.entry r (by simp)
  have hnext := read_nextEntry h
  have hrest : (l ++ s).Sublist (l ++ r :: s) := (List.sublist_cons_self r s).append_left l
  have hnot : ∀ x ∈ l ++ s, x.slot ≠ r.slot := fun x hx heq => by
    have hperm : (r :: (l ++ s)).Perm (l ++ r :: s) := List.perm_middle.symm
    have := List.nodup_cons.mp ((hperm.map Rung.slot).nodup_iff.mpr hnd)
    exact this.1 (heq ▸ List.mem_map_of_mem hx)
  have hobj : ∀ {p : MemPool MarketOrdersAtPrice} {x : Nat}, x ≠ r.slot →
      (p.deallocate r.slot).object? x = p.object? x := MemPool.object?_deallocate_of_ne
  by_cases hls : l ++ s = []
  · -- the level is alone on its side
    obtain ⟨rfl, rfl⟩ := List.append_eq_nil_iff.mp hls
    have hbest : m.bestOrdersByPrice side = some r.slot := h.best
    rw [hbest] at hnext
    refine ⟨m.ordersAtPricePool.deallocate r.slot, ?_, hinv.deallocate hrlive, rfl,
      ⟨rfl, trivial, List.Pairwise.nil, by simp⟩, fun x hx => ?_, fun x hx => ?_⟩
    · simp only [removeOrdersAtPrice, hget, hnext, ok_bind, List.map_nil, List.head?_nil,
        Option.none_or, if_true, ordersAtPricePool_setBest, MemPool.release_some hv,
        priceOrdersAtPrice_setBest, setBestOrdersByPrice_with, List.append_nil]
    · rw [LinkFields.core, LinkFields.core, hobj hx]
    · have hx' : x ≠ r.slot := fun heq => hx (by simp [heq])
      exact ⟨LinkFields.nx_congr (hobj hx'), LinkFields.pv_congr (hobj hx')⟩
  · obtain ⟨p', hp', hplaced⟩ := unlinkOrdersAtPrice_spec hinv hsub hnd hls h
    obtain ⟨v', hv', -⟩ := LinkFields.object_of_core (hplaced.core r.slot) hv
    have hne : ¬ (s.map Rung.slot).head?.or (m.bestOrdersByPrice side) = some r.slot := by
      intro heq
      have hbest := h.best
      cases s with
      | cons t s =>
        exact hnot t (by simp) (Option.some.inj heq)
      | nil =>
        cases l with
        | nil => exact hls rfl
        | cons a l =>
          rw [hbest] at heq
          exact hnot a (by simp) (Option.some.inj heq)
    refine ⟨p'.deallocate r.slot, ?_, hplaced.inv.deallocate hrlive, hplaced.capacity, ?_,
      fun x hx => ?_, fun x hx => ?_⟩
    · simp only [removeOrdersAtPrice, hget, hnext, ok_bind, if_neg hne, hp',
        ordersAtPricePool_setBest, MemPool.release_some hv', priceOrdersAtPrice_setBest,
        setBestOrdersByPrice_with]
    · refine Ladder.congr (p := p') ⟨rfl, hplaced.ring, h.sorted.sublist hrest, fun x hx => ?_⟩
        (fun x hx => ⟨LinkFields.nx_congr (hobj (hnot x hx)),
          LinkFields.pv_congr (hobj (hnot x hx))⟩)
        (fun x hx => by rw [LinkFields.core, LinkFields.core, hobj (hnot x hx)])
      obtain ⟨w, hw, hws, hwp⟩ := h.entry x (hrest.mem hx)
      obtain ⟨w', hw', hside', hprice', -⟩ := entry_of_core (hplaced.core _) hw
      exact ⟨w', hw', hside'.trans hws, hprice'.trans hwp⟩
    · rw [← hplaced.core x, LinkFields.core, LinkFields.core, hobj hx]
    · have hx' : x ≠ r.slot := fun heq => hx (by simp [heq])
      rw [LinkFields.nx_congr (hobj hx'), LinkFields.pv_congr (hobj hx')]
      exact hplaced.frame x hx' hx

end Leave

/-! ## 6. The list of a side stays sorted -/

section Sorted

variable {m : MarketOrderBook} {side side' : Side} {live : List Nat} {rungs : List Rung}

theorem best_setBest (m : MarketOrderBook) (hs : side.Directional) (hs' : side'.Directional)
    (best : Option Nat) : (m.setBestOrdersByPrice side best).bestOrdersByPrice side' =
      if side' = side then best else m.bestOrdersByPrice side' := by
  rcases hs with rfl | rfl <;> rcases hs' with rfl | rfl <;> rfl

/-- The levels of a list are different cells: their prices are. -/
theorem Ladder.slots_nodup {p : MemPool MarketOrdersAtPrice} {best : Option Nat}
    (h : Ladder p side best rungs) : (rungs.map Rung.slot).Nodup := by
  refine List.pairwise_map.mpr (h.sorted.imp_of_mem fun {r s} hr hs' hahead heq => ?_)
  obtain ⟨v, hv, -, hvp⟩ := h.entry r hr
  obtain ⟨w, hw, -, hwp⟩ := h.entry s hs'
  rw [heq, hw] at hv
  obtain rfl := Option.some.inj hv
  rw [hwp.symm.trans hvp, addAfter_irrefl] at hahead
  cases hahead

/-- **Inserting a level keeps the list sorted.**  Whatever the levels of a side and wherever the
price of a new one belongs among them, `addOrdersAtPrice` returns; the list of the side is then a
ring again, strictly sorted from its possibly new head, of the old levels and the new one, and of
the levels only the links have been written.  The walk may stop on either side of the place or come
back to the head; each of these ends leads to the same ring. -/
theorem addOrdersAtPrice_sorted {new : Rung} (hs : side.Directional)
    (hinv : m.ordersAtPricePool.Inv live) (hcap : m.ordersAtPricePool.capacity = kMaxPriceLevels)
    (hsub : ∀ r ∈ rungs, r.slot ∈ live)
    (h : Ladder m.ordersAtPricePool side (m.bestOrdersByPrice side) rungs)
    (hlive : new.slot ∈ live) {entry : MarketOrdersAtPrice}
    (hentry : m.ordersAtPricePool.object? new.slot = some entry) (hside : entry.side = side)
    (heprice : entry.price = new.price) (hprice : ∀ r ∈ rungs, r.price ≠ new.price) :
    ∃ m' rungs', m.addOrdersAtPrice (some new.slot) = .ok m' ∧
      Ladder m'.ordersAtPricePool side (m'.bestOrdersByPrice side) rungs' ∧
      rungs'.Perm (new :: rungs) ∧ m'.ordersAtPricePool.Inv live ∧
      m'.ordersAtPricePool.capacity = kMaxPriceLevels ∧
      ∀ x, entryLinks.core m'.ordersAtPricePool x = entryLinks.core m.ordersAtPricePool x := by
  have hnew : new.slot ∉ rungs.map Rung.slot := by
    intro hmem
    obtain ⟨r, hr, heq⟩ := List.mem_map.mp hmem
    obtain ⟨v, hv, -, hvp⟩ := h.entry r hr
    rw [heq, hentry] at hv
    obtain rfl := Option.some.inj hv
    exact hprice r hr (hvp.symm.trans heprice)
  -- the levels are cells of the pool, so that the walk ends within its capacity
  have hlen : rungs.length ≤ kMaxPriceLevels := by
    have hsubset : rungs.map Rung.slot ⊆ live := fun x hx => by
      obtain ⟨r, hr, rfl⟩ := List.mem_map.mp hx
      exact hsub r hr
    have hle := (h.slots_nodup.subperm hsubset).length_le.trans hinv.length_le
    rwa [List.length_map, hcap] at hle
  obtain ⟨p', hadd, hplaced⟩ := addOrdersAtPrice_spec new hs hinv hsub hlive hnew hprice
    h.slots_nodup hlen hentry hside heprice h
  refine ⟨_, enter side new rungs, hadd, ?_, enter_perm side new rungs, ?_, ?_, ?_⟩
  · rw [ordersAtPricePool_setBest, best_setBest _ hs hs, if_pos rfl]
    exact h.of_placed hs hplaced hentry hside heprice hprice
  · rw [ordersAtPricePool_setBest]
    exact hplaced.inv
  · rw [ordersAtPricePool_setBest]
    exact hplaced.capacity.trans hcap
  · rw [ordersAtPricePool_setBest]
    exact hplaced.core

/-- A bid at 100 in an empty list, then a better one at 101. -/
theorem addOrdersAtPrice_sorted_better : ∃ (m m' : MarketOrderBook) (old new : Rung)
    (rungs' : List Rung), old.price = 100 ∧ new.price = 101 ∧
      Ladder m.ordersAtPricePool .buy (m.bestOrdersByPrice .buy) [old] ∧
      m.addOrdersAtPrice (some new.slot) = .ok m' ∧
      Ladder m'.ordersAtPricePool .buy (m'.bestOrdersByPrice .buy) rungs' ∧
      rungs'.Perm [new, old] := by
  obtain ⟨a, p, -, -, hinv, hcap, hobj⟩ := (MemPool.init_inv kMaxPriceLevels).allocate_spec
    (by decide) (⟨.buy, 100, none, none, none⟩ : MarketOrdersAtPrice)
  obtain ⟨b, p', -, hfresh, hinv', hcap', hobj'⟩ := hinv.allocate_spec
    (by rw [hcap]; exact (by decide : 1 < kMaxPriceLevels)) ⟨.buy, 101, none, none, none⟩
  have hne : a ≠ b := fun heq => hfresh (heq ▸ by simp)
  have hfirst : p'.object? a = some ⟨.buy, 100, none, none, none⟩ := by
    rw [hobj', if_neg hne, hobj, if_pos rfl]
  have hsecond : p'.object? b = some ⟨.buy, 101, none, none, none⟩ := by rw [hobj', if_pos rfl]
  obtain ⟨m, rungs, -, hladder, hperm, hinv₁, hcap₁, hcore⟩ :=
    @addOrdersAtPrice_sorted { init with ordersAtPricePool := p' } .buy _ [] ⟨100, a⟩ (.inl rfl)
      hinv' (hcap'.trans hcap) (by simp)
      ⟨rfl, trivial, List.Pairwise.nil, by simp⟩ (by simp) _ hfirst rfl rfl
      (by simp)
  obtain rfl := List.perm_singleton.mp hperm
  obtain ⟨v, hv, hside, hprice, -⟩ := entry_of_core (hcore b) hsecond
  obtain ⟨m', rungs', hadd, hladder', hperm', -⟩ :=
    @addOrdersAtPrice_sorted m .buy _ [⟨100, a⟩] ⟨101, b⟩ (.inl rfl) hinv₁ hcap₁ (by simp) hladder
      (by simp) v hv hside hprice (by simp)
  exact ⟨m, m', _, _, rungs', rfl, rfl, hladder, hadd, hladder', hperm'⟩

end Sorted

end MarketOrderBook

end YQuant
