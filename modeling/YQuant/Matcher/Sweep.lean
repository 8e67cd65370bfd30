/-
# The trades of one taker

`Sweeps side limit l q fs l' q'` is a run of single trades: a taker of quantity `q` that meets the
resting orders `l` makes the trades `fs` and leaves `l'` and `q'`.  A run that cannot go on is
the one `sweep` computes (`Sweeps.eq_sweep`), so two loops that trade in the same way are
compared trade by trade.

`Orderly` is what the list of a reference book always satisfies: arrival order, sides and prices
an order may have, and a market that is not crossed.

`Sweeps` leaves out when to stop, so a part of a run is a run, and an induction over the loops of
the code has something to say at every point.  Stopping is a property of its own (`Settled`), and
two settled runs from one start are the same (`unique`): there is one next maker, and what a trade
executes is determined.

A property of the list and of what is left survives a run when it survives a trade (`preserves`).
As many trades as there are orders are enough for `sweep`, because every trade but the last takes
an order out.
-/
import YQuant.Matcher.ListBook
import YQuant.Matcher.PriceBand

namespace YQuant

/-! ## 1. The maker of the next trade -/

theorem bestMaker_mem {l : List Resting} {side : Side} {limit : Int} {m : Resting}
    (h : bestMaker l side limit = some m) : m ∈ l ∧ m.CrossedBy side limit := by
  simpa using List.argmin_mem (Option.mem_def.mpr h)

theorem bestMaker_rank_le {l : List Resting} {side : Side} {limit : Int} {m o : Resting}
    (h : bestMaker l side limit = some m) (ho : o ∈ l) (hc : o.CrossedBy side limit) :
    takerRank side m.price ≤ takerRank side o.price := by
  have hmem : o ∈ l.filter (fun o => o.CrossedBy side limit) :=
    List.mem_filter.mpr ⟨ho, by simpa using hc⟩
  exact List.le_of_mem_argmin (f := fun o : Resting => takerRank side o.price) hmem h

theorem bestMaker_eq_none {l : List Resting} {side : Side} {limit : Int} :
    bestMaker l side limit = none ↔ ∀ o ∈ l, ¬ o.CrossedBy side limit := by
  rw [bestMaker, List.argmin_eq_none, List.filter_eq_nil_iff]
  simp

theorem takerRank_inj {side : Side} {p p' : Int} (h : takerRank side p = takerRank side p') :
    p = p' := by
  unfold takerRank at h
  split at h <;> omega

/-- **The first order at the best price is the next maker.** -/
theorem bestMaker_of_first {l l₁ l₂ : List Resting} {side : Side} {limit : Int} {m : Resting}
    (hl : l = l₁ ++ m :: l₂) (hm : m.CrossedBy side limit)
    (hbest : ∀ o ∈ l, o.CrossedBy side limit → takerRank side m.price ≤ takerRank side o.price)
    (hfirst : ∀ o ∈ l₁, ¬ o.At m.side m.price) : bestMaker l side limit = some m := by
  have hml : m ∈ l := by simp [hl]
  have hm₁ : m ∉ l₁.filter (fun o => o.CrossedBy side limit) := fun h =>
    hfirst m (List.mem_filter.mp h).1 ⟨rfl, rfl⟩
  rw [bestMaker, List.argmin_eq_some_iff]
  refine ⟨List.mem_filter.mpr ⟨hml, by simpa using hm⟩, fun o ho => ?_, fun o ho hle => ?_⟩
  · obtain ⟨ho, hc⟩ := List.mem_filter.mp ho
    exact hbest o ho (by simpa using hc)
  · obtain ⟨ho, hc⟩ := List.mem_filter.mp ho
    have hc : o.CrossedBy side limit := by simpa using hc
    have hprice := takerRank_inj (le_antisymm hle (hbest o ho hc))
    have ho₁ : o ∉ l₁.filter (fun o => o.CrossedBy side limit) := fun h =>
      hfirst o (List.mem_filter.mp h).1 ⟨hc.1.trans hm.1.symm, hprice⟩
    rw [hl, List.filter_append, List.idxOf_append_of_notMem hm₁, List.idxOf_append_of_notMem ho₁,
      List.filter_cons_of_pos (by simpa using hm), List.idxOf_cons_self]
    omega

/-! ## 2. One trade -/

section TakeFrom

variable {l : List Resting} {m : Resting} {e : Nat}

/-- An order of the list after a trade is one of the list before, but for the maker's
quantity. -/
theorem mem_takeFrom {o : Resting} (h : o ∈ takeFrom l m e) :
    ∃ o' ∈ l, o = { o' with quantity := o.quantity } ∧
      (o.arrival ≠ m.arrival → o = o') ∧
      (o.arrival = m.arrival → e ≠ m.quantity ∧ o.quantity = o'.quantity - e) := by
  unfold takeFrom without reduce at h
  split at h
  · obtain ⟨ho, hne⟩ := List.mem_filter.mp h
    exact ⟨o, ho, rfl, fun _ => rfl, fun he => absurd he (by simpa using hne)⟩
  · next hne =>
    obtain ⟨o', ho', rfl⟩ := List.mem_map.mp h
    refine ⟨o', ho', ?_, ?_, ?_⟩
    · split <;> rfl
    · split
      · next he => exact fun hn => absurd he hn
      · exact fun _ => rfl
    · split
      · exact fun _ => ⟨hne, rfl⟩
      · next he => exact fun hn => absurd hn he

/-- Every other order is untouched. -/
theorem mem_takeFrom_of_ne {o : Resting} (ho : o ∈ l) (hne : o.arrival ≠ m.arrival) :
    o ∈ takeFrom l m e := by
  unfold takeFrom without reduce
  split
  · exact List.mem_filter.mpr ⟨ho, by simpa using hne⟩
  · exact List.mem_map.mpr ⟨o, ho, if_neg hne⟩

theorem reduce_pairwise (h : l.Pairwise (fun o o' => o.arrival < o'.arrival)) :
    (reduce l m e).Pairwise (fun o o' => o.arrival < o'.arrival) := by
  refine List.pairwise_map.mpr (h.imp fun hlt => ?_)
  split <;> split <;> exact hlt

theorem takeFrom_pairwise (h : l.Pairwise (fun o o' => o.arrival < o'.arrival)) :
    (takeFrom l m e).Pairwise (fun o o' => o.arrival < o'.arrival) := by
  unfold takeFrom
  split
  · exact h.filter _
  · exact reduce_pairwise h

end TakeFrom

/-- **What the orders of a book always satisfy.** -/
structure Orderly (band : PriceBand) (l : List Resting) : Prop where
  arrivals : l.Pairwise (fun o o' => o.arrival < o'.arrival)
  sides : ∀ o ∈ l, o.side.Directional
  inBand : ∀ o ∈ l, band.InBand o.price
  positive : ∀ o ∈ l, 0 < o.quantity
  uncrossed : ∀ o ∈ l, ∀ o' ∈ l, o.side = .buy → o'.side = .sell → o.price < o'.price

namespace Orderly

variable {band : PriceBand} {l l' : List Resting}

theorem nil : Orderly band [] where
  arrivals := List.Pairwise.nil
  sides := by simp
  inBand := by simp
  positive := by simp
  uncrossed := by simp

/-- Two orders of one arrival are the same order. -/
theorem eq_of_arrival (h : Orderly band l) {o o' : Resting} (ho : o ∈ l) (ho' : o' ∈ l)
    (he : o.arrival = o'.arrival) : o = o' := by
  have hnd : (l.map Resting.arrival).Nodup :=
    List.pairwise_map.mpr (h.arrivals.imp fun hlt => Nat.ne_of_lt hlt)
  exact List.inj_on_of_nodup_map hnd ho ho' he

theorem filter (h : Orderly band l) (p : Resting → Bool) : Orderly band (l.filter p) where
  arrivals := h.arrivals.filter _
  sides := fun o ho => h.sides o (List.mem_filter.mp ho).1
  inBand := fun o ho => h.inBand o (List.mem_filter.mp ho).1
  positive := fun o ho => h.positive o (List.mem_filter.mp ho).1
  uncrossed := fun o ho o' ho' =>
    h.uncrossed o (List.mem_filter.mp ho).1 o' (List.mem_filter.mp ho').1

theorem takeFrom (h : Orderly band l) {m : Resting} {e : Nat} (hm : m ∈ l) (he : e ≤ m.quantity) :
    Orderly band (takeFrom l m e) where
  arrivals := takeFrom_pairwise h.arrivals
  sides := fun o ho => by
    obtain ⟨o', ho', heq, -⟩ := mem_takeFrom ho
    rw [heq]; exact h.sides o' ho'
  inBand := fun o ho => by
    obtain ⟨o', ho', heq, -⟩ := mem_takeFrom ho
    rw [heq]; exact h.inBand o' ho'
  positive := fun o ho => by
    obtain ⟨o', ho', heq, hne, hmk⟩ := mem_takeFrom ho
    by_cases ha : o.arrival = m.arrival
    · obtain ⟨hlt, hq⟩ := hmk ha
      have harr : o'.arrival = m.arrival := by rw [← ha, heq]
      obtain rfl := h.eq_of_arrival ho' hm harr
      omega
    · rw [hne ha]; exact h.positive o' ho'
  uncrossed := fun o ho o₂ ho₂ => by
    obtain ⟨o', ho', heq, -⟩ := mem_takeFrom ho
    obtain ⟨o₂', ho₂', heq₂, -⟩ := mem_takeFrom ho₂
    rw [heq, heq₂]; exact h.uncrossed o' ho' o₂' ho₂'

/-- An order that crosses nothing may join at the end. -/
theorem snoc (h : Orderly band l) {o : Resting} (hlast : ∀ o' ∈ l, o'.arrival < o.arrival)
    (hside : o.side.Directional) (hband : band.InBand o.price) (hpos : 0 < o.quantity)
    (hcross : ∀ o' ∈ l, ¬ o'.CrossedBy o.side o.price) : Orderly band (l ++ [o]) where
  arrivals := List.pairwise_append.mpr
    ⟨h.arrivals, List.pairwise_singleton _ _, fun o' ho' x hx => by
      rw [List.mem_singleton.mp hx]; exact hlast o' ho'⟩
  sides := by simpa [or_imp, forall_and] using ⟨h.sides, hside⟩
  inBand := by simpa [or_imp, forall_and] using ⟨h.inBand, hband⟩
  positive := by simpa [or_imp, forall_and] using ⟨h.positive, hpos⟩
  uncrossed := by
    intro a ha a' ha' hbuy hsell
    rcases List.mem_append.mp ha with hal | hal <;> rcases List.mem_append.mp ha' with hal' | hal'
    · exact h.uncrossed a hal a' hal' hbuy hsell
    · rw [List.mem_singleton.mp hal'] at hsell ⊢
      by_contra hle
      exact hcross a hal ⟨by rw [hbuy, hsell]; rfl, by simp [hsell]; omega⟩
    · rw [List.mem_singleton.mp hal] at hbuy ⊢
      by_contra hle
      exact hcross a' hal' ⟨by rw [hbuy, hsell]; rfl, by simp [hbuy]; omega⟩
    · rw [List.mem_singleton.mp hal] at hbuy
      rw [List.mem_singleton.mp hal', hbuy] at hsell
      exact absurd hsell (by decide)

end Orderly

/-! ## 3. Runs of trades -/

/-- A taker of side `side` and limit `limit` makes the trades `fs`. -/
inductive Sweeps (side : Side) (limit : Int) :
    List Resting → Nat → List Fill → List Resting → Nat → Prop
  | done {l : List Resting} {q : Nat} : Sweeps side limit l q [] l q
  | trade {l l' : List Resting} {q q' : Nat} {m : Resting} {fs : List Fill} (hq : 0 < q)
      (hm : bestMaker l side limit = some m)
      (hrest : Sweeps side limit (takeFrom l m (min q m.quantity)) (q - min q m.quantity) fs l'
        q') :
      Sweeps side limit l q (⟨m, min q m.quantity, q - min q m.quantity⟩ :: fs) l' q'

/-- No further trade is possible. -/
def Settled (side : Side) (limit : Int) (l : List Resting) (q : Nat) : Prop :=
  q = 0 ∨ bestMaker l side limit = none

namespace Sweeps

variable {side : Side} {limit : Int} {l l' l'' : List Resting} {q q' q'' : Nat}
  {fs fs' : List Fill}

theorem trans (h : Sweeps side limit l q fs l' q') (h' : Sweeps side limit l' q' fs' l'' q'') :
    Sweeps side limit l q (fs ++ fs') l'' q'' := by
  induction h with
  | done => exact h'
  | trade hq hm _ ih => exact .trade hq hm (ih h')

/-- **A property of the list and the quantity left survives a run** when it survives a trade. -/
theorem preserves {P : List Resting → Nat → Prop}
    (hstep : ∀ l q m, P l q → 0 < q → bestMaker l side limit = some m →
      P (takeFrom l m (min q m.quantity)) (q - min q m.quantity))
    (h : Sweeps side limit l q fs l' q') (hP : P l q) : P l' q' := by
  induction h with
  | done => exact hP
  | trade hq hm _ ih => exact ih (hstep _ _ _ hP hq hm)

/-- The list only loses orders and quantity. -/
theorem mem_of_mem (h : Sweeps side limit l q fs l' q') {o : Resting} (ho : o ∈ l') :
    ∃ o' ∈ l, o = { o' with quantity := o.quantity } := by
  induction h generalizing o with
  | done => exact ⟨o, ho, rfl⟩
  | trade _ _ _ ih =>
    obtain ⟨o', ho', heq⟩ := ih ho
    obtain ⟨o'', ho'', heq', -⟩ := mem_takeFrom ho'
    exact ⟨o'', ho'', by rw [heq, heq']⟩

/-- Two settled runs from the same start are the same run. -/
theorem unique (h : Sweeps side limit l q fs l' q') (hs : Settled side limit l' q')
    (h' : Sweeps side limit l q fs' l'' q'') (hs' : Settled side limit l'' q'') :
    fs = fs' ∧ l' = l'' ∧ q' = q'' := by
  have hstop : ∀ {l : List Resting} {q : Nat} {m : Resting}, Settled side limit l q → 0 < q →
      bestMaker l side limit = some m → False := by
    rintro l q m (hz | hn) hq hm
    · omega
    · rw [hn] at hm; cases hm
  induction h generalizing fs' with
  | done =>
    cases h' with
    | done => exact ⟨rfl, rfl, rfl⟩
    | trade hq hm _ => exact (hstop hs hq hm).elim
  | trade hq hm _ ih =>
    cases h' with
    | done => exact (hstop hs' hq hm).elim
    | trade hq' hm' hrest' =>
      obtain rfl : _ = _ := Option.some.inj (hm.symm.trans hm')
      obtain ⟨rfl, rfl, rfl⟩ := ih hs hrest'
      exact ⟨rfl, rfl, rfl⟩

end Sweeps

/-! ## 4. `sweep` is the settled run -/

theorem sweepN_sweeps {side : Side} {limit : Int} :
    ∀ (n : Nat) (l : List Resting) (q : Nat),
      Sweeps side limit l q (sweepN side limit n l q).1 (sweepN side limit n l q).2.1
        (sweepN side limit n l q).2.2
  | 0, _, _ => .done
  | n + 1, l, q => by
    unfold sweepN
    split
    · exact .done
    · next hq =>
      cases hm : bestMaker l side limit with
      | none => exact .done
      | some m => exact .trade (Nat.pos_of_ne_zero hq) hm (sweepN_sweeps n _ _)

theorem takeFrom_length_lt {l : List Resting} {m : Resting} (hm : m ∈ l) :
    (takeFrom l m m.quantity).length < l.length := by
  rw [takeFrom, if_pos rfl, without]
  exact List.length_filter_lt_length_iff_exists.mpr ⟨m, hm, by simp⟩

/-- As many trades as there are orders are enough. -/
theorem sweepN_settled {side : Side} {limit : Int} :
    ∀ (n : Nat) (l : List Resting) (q : Nat), l.length ≤ n →
      Settled side limit (sweepN side limit n l q).2.1 (sweepN side limit n l q).2.2
  | 0, l, q, hn => by
    obtain rfl := List.length_eq_zero_iff.mp (Nat.le_zero.mp hn)
    exact Or.inr rfl
  | n + 1, l, q, hn => by
    unfold sweepN
    split
    · next hq => exact Or.inl hq
    · next hq =>
      cases hm : bestMaker l side limit with
      | none => exact Or.inr hm
      | some m =>
        by_cases hle : m.quantity ≤ q
        · have hlt := takeFrom_length_lt (bestMaker_mem hm).1
          simp only [min_eq_right hle]
          exact sweepN_settled n _ _ (by omega)
        · have hz : q - min q m.quantity = 0 := by omega
          simp only [hz]
          cases n with
          | zero => exact Or.inl rfl
          | succ n => simp [sweepN, Settled]

/-- `sweep` is a run of trades, and settled. -/
theorem sweep_sweeps (side : Side) (limit : Int) (l : List Resting) (q : Nat) :
    Sweeps side limit l q (sweep side limit l q).1 (sweep side limit l q).2.1
        (sweep side limit l q).2.2 :=
  sweepN_sweeps _ _ _

theorem sweep_settled (side : Side) (limit : Int) (l : List Resting) (q : Nat) :
    Settled side limit (sweep side limit l q).2.1 (sweep side limit l q).2.2 :=
  sweepN_settled _ _ _ le_rfl

/-- **A settled run is the run of `sweep`.** -/
theorem Sweeps.eq_sweep {side : Side} {limit : Int} {l l' : List Resting} {q q' : Nat}
    {fs : List Fill} (h : Sweeps side limit l q fs l' q') (hs : Settled side limit l' q') :
    sweep side limit l q = (fs, l', q') := by
  obtain ⟨h1, h2, h3⟩ := h.unique hs (sweep_sweeps side limit l q) (sweep_settled side limit l q)
  rw [h1, h2, h3]

/-- A taker that crosses nothing trades nothing. -/
theorem sweep_uncrossed {side : Side} {limit : Int} {l : List Resting} {q : Nat}
    (h : ∀ o ∈ l, ¬ o.CrossedBy side limit) : sweep side limit l q = ([], l, q) :=
  Sweeps.done.eq_sweep (Or.inr (bestMaker_eq_none.mpr h))

end YQuant
