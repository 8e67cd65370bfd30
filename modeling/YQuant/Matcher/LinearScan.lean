/-
# The bitmap search is a linear scan

`Occupancy.lean` says which tick the search of `FindBestTick` returns for a given set of ticks.
Here the set is what a list of `MarkOccupied` and `ClearOccupied` calls leaves in an empty bitmap,
and the search is compared with the scan it replaces: look at one tick after the other, from the
best one on, and stop at the first whose last call was `MarkOccupied` (`linearScan`).

`findBestTickChecked` is the same search with the accesses written out that the source takes for
granted: it stops when it would index outside the two arrays or count the zeros of a zero word.

The scan is what one would write first and what nobody can run: it looks at every tick.  Both stop
at the best element of the same set, and a set has one (`IsBest.unique`), so there is nothing to
compare between their steps.

What the checked search adds is that the fast one is well behaved on the way: the indices of the
words are in range, and a zero count is only taken of a word that has a bit.  The calls may come in
any order, and also mark twice or clear what was not marked.
-/
import YQuant.Matcher.Occupancy

namespace YQuant

/-! ## 1. Calls on the bitmap and the scan -/

/-- A call of `MarkOccupied` or `ClearOccupied`. -/
inductive BitmapCall where
  | mark (tick : Fin kTickCount)
  | clear (tick : Fin kTickCount)
deriving DecidableEq, Repr

namespace BitmapCall

def tick : BitmapCall → Fin kTickCount
  | .mark tick | .clear tick => tick

def isMark : BitmapCall → Bool
  | .mark _ => true
  | .clear _ => false

end BitmapCall

/-- The last of the calls with this tick was `MarkOccupied`. -/
def lastMarked (calls : List BitmapCall) (tick : Nat) : Bool :=
  match calls.reverse.find? fun call => decide (call.tick.val = tick) with
  | some call => call.isMark
  | none => false

/-- The ticks of a side, best first. -/
def ticksFromBest (side : Side) : List Nat :=
  if side = .buy then (List.range kTickCount).reverse else List.range kTickCount

/-- Tick by tick, from the best one on. -/
def linearScan (side : Side) (calls : List BitmapCall) : Int :=
  match (ticksFromBest side).find? (lastMarked calls) with
  | some tick => tick
  | none => kInvalidTick

/-- What a search must not do. -/
inductive SearchFault where
  /-- An index outside the array it is used for. -/
  | outOfBounds (word : Nat)
  /-- The leading or trailing zeros of a zero word. -/
  | zeroWord
deriving DecidableEq, Repr

namespace PriceLevels

/-- The effect of one call. -/
def applyBitmapCall (s : PriceLevels) : BitmapCall → PriceLevels
  | .mark tick => s.markOccupied tick.val
  | .clear tick => s.clearOccupied tick.val

/-! ## 2. The search with its accesses checked -/

/-- Read a word of one of the two arrays. -/
def wordAt (words : Nat → BitVec 64) (size word : Nat) : Except SearchFault (BitVec 64) :=
  if word < size then .ok (words word) else .error (.outOfBounds word)

/-- `std::countl_zero`. -/
def countlZero (word : BitVec 64) : Except SearchFault Nat :=
  if word = 0 then .error .zeroWord else .ok word.clz.toNat

/-- `std::countr_zero`. -/
def countrZero (word : BitVec 64) : Except SearchFault Nat :=
  if word = 0 then .error .zeroWord else .ok word.ctz.toNat

/-- `findHighest`, checked. -/
def findHighestChecked (s : PriceLevels) : Nat → Except SearchFault Int
  | 0 => .ok kInvalidTick
  | summaryWord + 1 => do
    let summary ← wordAt s.summary kSummaryWords summaryWord
    if summary = 0 then s.findHighestChecked summaryWord
    else
      let word := summaryWord * kBitsPerWord + (kBitsPerWord - 1 - (← countlZero summary))
      let occupied ← wordAt s.occupancy kOccupancyWords word
      let bit := kBitsPerWord - 1 - (← countlZero occupied)
      return (word * kBitsPerWord + bit : Nat)

/-- `findLowest`, checked. -/
def findLowestChecked (s : PriceLevels) : Nat → Except SearchFault Int
  | 0 => .ok kInvalidTick
  | n + 1 => do
    let summaryWord := kSummaryWords - (n + 1)
    let summary ← wordAt s.summary kSummaryWords summaryWord
    if summary = 0 then s.findLowestChecked n
    else
      let word := summaryWord * kBitsPerWord + (← countrZero summary)
      let occupied ← wordAt s.occupancy kOccupancyWords word
      let bit := ← countrZero occupied
      return (word * kBitsPerWord + bit : Nat)

/-- `findBestTick`, checked. -/
def findBestTickChecked (s : PriceLevels) : Except SearchFault Int :=
  if s.side = .buy then s.findHighestChecked kSummaryWords
  else s.findLowestChecked kSummaryWords

theorem wordAt_of_lt {words : Nat → BitVec 64} {size word : Nat} (h : word < size) :
    wordAt words size word = .ok (words word) := if_pos h

theorem countlZero_of_ne {word : BitVec 64} (h : word ≠ 0) :
    countlZero word = .ok word.clz.toNat := if_neg h

theorem countrZero_of_ne {word : BitVec 64} (h : word ≠ 0) :
    countrZero word = .ok word.ctz.toNat := if_neg h

theorem checked_bind {α β : Type} (a : α) (f : α → Except SearchFault β) :
    (Except.ok a >>= f) = f a := rfl

/-- The words of a summary word are words of the array. -/
theorem word_lt {summaryWord bit : Nat} (hsummary : summaryWord < kSummaryWords) (hbit : bit < 64) :
    summaryWord * kBitsPerWord + bit < kOccupancyWords := by
  simp only [kOccupancyWords, kSummaryWords, kTickCount, kMaxPriceLevels, kBitsPerWord] at *
  omega

section Checked

variable {s : PriceLevels} {occ : Nat → Prop}

/-- On a bitmap that records a set no check of the descending search fails. -/
theorem findHighestChecked_eq (h : s.OccupancyRep occ) {n : Nat} (hn : n ≤ kSummaryWords) :
    s.findHighestChecked n = .ok (s.findHighest n) := by
  induction n with
  | zero => rfl
  | succ summaryWord ih =>
    unfold findHighestChecked findHighest
    simp only [wordAt_of_lt hn, checked_bind]
    by_cases hz : s.summary summaryWord = 0
    · rw [if_pos hz, if_pos hz]
      exact ih (Nat.le_of_succ_le hn)
    · have hbit : kBitsPerWord - 1 - (s.summary summaryWord).clz.toNat < 64 := by
        simp only [kBitsPerWord]
        omega
      have hword := h.word_ne_zero hn hbit (Word.getLsbD_highest hz)
      rw [if_neg hz, if_neg hz]
      simp only [countlZero_of_ne hz, wordAt_of_lt (word_lt hn hbit), countlZero_of_ne hword,
        checked_bind]
      rfl

/-- On a bitmap that records a set no check of the ascending search fails. -/
theorem findLowestChecked_eq (h : s.OccupancyRep occ) {n : Nat} (hn : n ≤ kSummaryWords) :
    s.findLowestChecked n = .ok (s.findLowest n) := by
  induction n with
  | zero => rfl
  | succ n ih =>
    have hsummary : kSummaryWords - (n + 1) < kSummaryWords := by omega
    unfold findLowestChecked findLowest
    simp only [wordAt_of_lt hsummary, checked_bind]
    by_cases hz : s.summary (kSummaryWords - (n + 1)) = 0
    · rw [if_pos hz, if_pos hz]
      exact ih (Nat.le_of_succ_le hn)
    · have hbit := Word.ctz_lt hz
      have hword := h.word_ne_zero hsummary hbit (Word.getLsbD_lowest hz)
      rw [if_neg hz, if_neg hz]
      simp only [countrZero_of_ne hz, wordAt_of_lt (word_lt hsummary hbit), countrZero_of_ne hword,
        checked_bind]
      rfl

theorem findBestTickChecked_eq (h : s.OccupancyRep occ) :
    s.findBestTickChecked = .ok s.findBestTick := by
  unfold findBestTickChecked findBestTick
  split
  · exact findHighestChecked_eq h le_rfl
  · exact findLowestChecked_eq h le_rfl

end Checked

/-! ## 3. What a list of calls leaves -/

section Calls

variable {s : PriceLevels} {occ : Nat → Prop}

/-- A call decides about its own tick and leaves the others. -/
theorem applyBitmapCall_rep (h : s.OccupancyRep occ) (call : BitmapCall) :
    (s.applyBitmapCall call).OccupancyRep fun t =>
      if call.tick.val = t then call.isMark = true else occ t := by
  cases call with
  | mark tick =>
    refine (markOccupied_rep h tick.isLt).iff fun t => ?_
    by_cases ht : tick.val = t
    · simp [BitmapCall.tick, BitmapCall.isMark, ht]
    · simp [BitmapCall.tick, ht, Ne.symm ht]
  | clear tick =>
    refine (clearOccupied_rep h).iff fun t => ?_
    by_cases ht : tick.val = t
    · simp [BitmapCall.tick, BitmapCall.isMark, ht]
    · simp [BitmapCall.tick, ht, Ne.symm ht]

theorem applyBitmapCall_side (call : BitmapCall) : (s.applyBitmapCall call).side = s.side := by
  cases call with
  | mark tick => rfl
  | clear tick => exact clearOccupied_side

theorem lastMarked_append (calls : List BitmapCall) (call : BitmapCall) (t : Nat) :
    lastMarked (calls ++ [call]) t =
      if call.tick.val = t then call.isMark else lastMarked calls t := by
  unfold lastMarked
  rw [List.reverse_append, List.reverse_singleton, List.singleton_append, List.find?_cons]
  by_cases ht : call.tick.val = t
  · simp [ht]
  · simp [ht]

/-- **A run of calls**: the bitmap records the ticks whose last call was `MarkOccupied`. -/
theorem bitmapCalls_rep (side : Side) (calls : List BitmapCall) :
    (calls.foldl applyBitmapCall (init side)).side = side ∧
      (calls.foldl applyBitmapCall (init side)).OccupancyRep
        fun t => lastMarked calls t = true := by
  induction calls using List.reverseRecOn with
  | nil => exact ⟨rfl, (init_occupancyRep side).iff fun t => by simp [lastMarked]⟩
  | append_singleton calls call ih =>
    rw [List.foldl_append, List.foldl_cons, List.foldl_nil]
    refine ⟨applyBitmapCall_side call |>.trans ih.1,
      (applyBitmapCall_rep ih.2 call).iff fun t => ?_⟩
    rw [lastMarked_append]
    split
    · rfl
    · rfl

end Calls

/-! ## 4. The scan -/

/-- On an ordered list `find?` stops at the best element it could find. -/
theorem find?_best {R : Nat → Nat → Prop} {p : Nat → Bool} {xs : List Nat} {x : Nat}
    (hsorted : xs.Pairwise R) (hfind : xs.find? p = some x) {y : Nat} (hy : y ∈ xs)
    (hp : p y = true) : y = x ∨ R x y := by
  obtain ⟨-, before, after, rfl, hbefore⟩ := List.find?_eq_some_iff_append.mp hfind
  rcases List.mem_append.mp hy with hmem | hmem
  · have hnot := hbefore y hmem
    rw [hp] at hnot
    cases hnot
  · rcases List.mem_cons.mp hmem with rfl | hmem
    · exact .inl rfl
    · exact .inr ((List.pairwise_cons.mp (List.pairwise_append.mp hsorted).2.1).1 y hmem)

theorem mem_ticksFromBest {side : Side} {t : Nat} : t ∈ ticksFromBest side ↔ t < kTickCount := by
  unfold ticksFromBest
  split
  · rw [List.mem_reverse, List.mem_range]
  · exact List.mem_range

theorem ticksFromBest_sorted (side : Side) :
    (ticksFromBest side).Pairwise fun t t' => if side = .buy then t' ≤ t else t ≤ t' := by
  unfold ticksFromBest
  split
  · rw [List.pairwise_reverse]
    exact List.pairwise_le_range
  · exact List.pairwise_le_range

theorem linearScan_best (side : Side) (calls : List BitmapCall) :
    IsBest side (fun t => lastMarked calls t = true) (linearScan side calls) := by
  have hband : ∀ t, lastMarked calls t = true → t ∈ ticksFromBest side := fun t ht =>
    mem_ticksFromBest.mpr ((bitmapCalls_rep side calls).2.inBand t ht)
  unfold linearScan
  cases hfind : (ticksFromBest side).find? (lastMarked calls) with
  | none =>
    exact .inl ⟨rfl, fun t ht => List.find?_eq_none.mp hfind t (hband t ht) ht⟩
  | some tick =>
    refine .inr ⟨tick, rfl, List.find?_some hfind, fun t ht => ?_⟩
    rcases find?_best (ticksFromBest_sorted side) hfind (hband t ht) ht with rfl | hbest
    · split <;> exact le_rfl
    · exact hbest

/-- A set has one best tick. -/
theorem IsBest.unique {side : Side} {occ : Nat → Prop} {best best' : Int}
    (h : IsBest side occ best) (h' : IsBest side occ best') : best = best' := by
  rcases h with ⟨rfl, hnone⟩ | ⟨t, rfl, ht, hbest⟩
  · rcases h' with ⟨rfl, -⟩ | ⟨t', -, ht', -⟩
    · rfl
    · exact (hnone t' ht').elim
  · rcases h' with ⟨-, hnone⟩ | ⟨t', rfl, ht', hbest'⟩
    · exact (hnone t ht).elim
    · have hle := hbest t' ht'
      have hle' := hbest' t ht
      by_cases hbuy : side = .buy
      · rw [if_pos hbuy] at hle hle'
        rw [le_antisymm hle' hle]
      · rw [if_neg hbuy] at hle hle'
        rw [le_antisymm hle hle']

/-- **The bitmap search equals a linear scan.**  After any calls of `MarkOccupied` and
`ClearOccupied` on an empty bitmap, the search of a side returns the first tick from its best end on
whose last call was `MarkOccupied`, or `kInvalidTick`; on its way every word it reads is a word of
the array and no zero count is taken of a zero word. -/
theorem findBestTick_eq_linearScan (side : Side) (calls : List BitmapCall) :
    (calls.foldl applyBitmapCall (init side)).findBestTick = linearScan side calls ∧
      (calls.foldl applyBitmapCall (init side)).findBestTickChecked =
        .ok (linearScan side calls) := by
  obtain ⟨hside, hrep⟩ := bitmapCalls_rep side calls
  have hbest := findBestTick_best hrep
  rw [hside] at hbest
  have heq := hbest.unique (linearScan_best side calls)
  exact ⟨heq, (findBestTickChecked_eq hrep).trans (congrArg Except.ok heq)⟩

end PriceLevels
end YQuant
