/-
# The occupancy bitmap finds the best tick

`PriceLevels` keeps one bit for each tick and one summary bit for each word of those bits, and
finds a new best tick with two zero counts.  `OccupancyRep s occ` says that the bitmap records
exactly the set `occ` of ticks.  The two updates move that set (`markOccupied_rep`,
`clearOccupied_rep`), and the search returns its best element (`findBestTick_best`): the
greatest on a `BUY` side and the least on any other, `kInvalidTick` when the set is empty.

A tick is found in two steps: the summary word says which words are not zero, and the word says
which of its ticks are occupied.  The highest bit of the highest non-zero word is the highest tick
because a summary bit is set exactly for the words that are not zero.  `MarkOccupied` sets both
bits always; `ClearOccupied` clears the summary bit only when the word has become zero, and this is
the place where the two levels could come apart.

`OccupancyRep` is about the bitmap alone.  That the set it records is the set of the levels with an
order, and that the cached best tick is its best element, belongs to `LevelQueues.lean`.
-/
import YQuant.Lib.Word
import YQuant.Matcher.PriceLevels

namespace YQuant
namespace PriceLevels

/-! ## 1. What the bitmap records -/

/-- **The bitmap records the ticks `occ`**: each tick in its bit, each non-zero word in its
summary bit. -/
structure OccupancyRep (s : PriceLevels) (occ : Nat → Prop) : Prop where
  bit : ∀ t, t < kTickCount →
    ((s.occupancy (t / kBitsPerWord)).getLsbD (t % kBitsPerWord) = true ↔ occ t)
  summaryBit : ∀ w, w < kOccupancyWords →
    ((s.summary (w / kBitsPerWord)).getLsbD (w % kBitsPerWord) = true ↔ s.occupancy w ≠ 0)
  inBand : ∀ t, occ t → t < kTickCount

/-- `best` is the best tick of the set `occ` for an order book side. -/
def IsBest (side : Side) (occ : Nat → Prop) (best : Int) : Prop :=
  (best = kInvalidTick ∧ ∀ t, ¬ occ t) ∨
    ∃ t : Nat, best = t ∧ occ t ∧ ∀ t', occ t' → if side = .buy then t' ≤ t else t ≤ t'

theorem init_occupancyRep (side : Side) : (init side).OccupancyRep (fun _ => False) where
  bit := by simp [init]
  summaryBit := by simp [init]
  inBand := fun _ h => h.elim

/-- The bitmap does not depend on the levels or the cached best tick. -/
theorem OccupancyRep.congr {s s' : PriceLevels} {occ : Nat → Prop} (h : s.OccupancyRep occ)
    (ho : s'.occupancy = s.occupancy) (hs : s'.summary = s.summary) : s'.OccupancyRep occ where
  bit := by rw [ho]; exact h.bit
  summaryBit := by rw [ho, hs]; exact h.summaryBit
  inBand := h.inBand

theorem OccupancyRep.iff {s : PriceLevels} {occ occ' : Nat → Prop} (h : s.OccupancyRep occ)
    (heq : ∀ t, occ' t ↔ occ t) : s.OccupancyRep occ' where
  bit := fun t ht => (h.bit t ht).trans (heq t).symm
  summaryBit := h.summaryBit
  inBand := fun t ht => h.inBand t ((heq t).mp ht)

/-! ## 2. Marking and clearing a tick -/

section Updates

variable {s : PriceLevels} {occ : Nat → Prop} {tick : Nat}

/-- A word and a position in it determine the tick. -/
theorem tick_eq_of_div_mod {t t' : Nat} (hd : t / kBitsPerWord = t' / kBitsPerWord)
    (hm : t % kBitsPerWord = t' % kBitsPerWord) : t = t' := by
  simp only [kBitsPerWord] at *; omega

theorem mod_lt_bits (t : Nat) : t % kBitsPerWord < 64 := Nat.mod_lt _ (by decide)

theorem markOccupied_occupancy : (s.markOccupied tick).occupancy =
    Function.update s.occupancy (tick / kBitsPerWord)
      (s.occupancy (tick / kBitsPerWord) ||| (1#64 <<< (tick % kBitsPerWord))) := rfl

theorem markOccupied_summary : (s.markOccupied tick).summary =
    Function.update s.summary (tick / kBitsPerWord / kBitsPerWord)
      (s.summary (tick / kBitsPerWord / kBitsPerWord) |||
        (1#64 <<< (tick / kBitsPerWord % kBitsPerWord))) := rfl

theorem markOccupied_rep (h : s.OccupancyRep occ) (ht : tick < kTickCount) :
    (s.markOccupied tick).OccupancyRep (fun t => t = tick ∨ occ t) where
  bit := fun t' ht' => by
    rw [markOccupied_occupancy]
    by_cases hw : t' / kBitsPerWord = tick / kBitsPerWord
    · rw [hw, Function.update_self, Word.getLsbD_insert _ (mod_lt_bits tick), ← hw]
      simp only [Bool.or_eq_true, decide_eq_true_eq, h.bit t' ht']
      constructor
      · rintro (hm | ho)
        · exact Or.inl (tick_eq_of_div_mod hw hm)
        · exact Or.inr ho
      · rintro (rfl | ho)
        · exact Or.inl rfl
        · exact Or.inr ho
    · rw [Function.update_of_ne hw, h.bit t' ht']
      have hne : t' ≠ tick := fun e => hw (e ▸ rfl)
      simp [hne]
  summaryBit := fun w hw' => by
    rw [markOccupied_occupancy, markOccupied_summary]
    by_cases hw : w = tick / kBitsPerWord
    · -- the word of the tick: both the bit and the word are set now
      subst hw
      rw [Function.update_self, Function.update_self, Word.getLsbD_insert _ (mod_lt_bits _)]
      simp only [decide_true, Bool.true_or, true_iff]
      refine (Word.ne_zero_iff _).mpr ⟨tick % kBitsPerWord, mod_lt_bits tick, ?_⟩
      rw [Word.getLsbD_insert _ (mod_lt_bits tick)]
      simp
    · rw [Function.update_of_ne hw]
      by_cases hs : w / kBitsPerWord = tick / kBitsPerWord / kBitsPerWord
      · have hm : w % kBitsPerWord ≠ tick / kBitsPerWord % kBitsPerWord := fun e =>
          hw (tick_eq_of_div_mod hs e)
        rw [hs, Function.update_self, Word.getLsbD_insert _ (mod_lt_bits _), ← hs]
        simp only [hm, decide_false, Bool.false_or]
        exact h.summaryBit w hw'
      · rw [Function.update_of_ne hs]
        exact h.summaryBit w hw'
  inBand := fun t' => by
    rintro (rfl | ho)
    · exact ht
    · exact h.inBand t' ho

/-- The occupancy words after `ClearOccupied`, in either branch. -/
theorem clearOccupied_occupancy : (s.clearOccupied tick).occupancy =
    Function.update s.occupancy (tick / kBitsPerWord)
      (s.occupancy (tick / kBitsPerWord) &&& ~~~(1#64 <<< (tick % kBitsPerWord))) := by
  unfold clearOccupied
  simp only [Int.toNat_natCast]
  split <;> rfl

theorem clearOccupied_summary : (s.clearOccupied tick).summary =
    if s.occupancy (tick / kBitsPerWord) &&& ~~~(1#64 <<< (tick % kBitsPerWord)) = 0 then
      Function.update s.summary (tick / kBitsPerWord / kBitsPerWord)
        (s.summary (tick / kBitsPerWord / kBitsPerWord) &&&
          ~~~(1#64 <<< (tick / kBitsPerWord % kBitsPerWord)))
    else s.summary := by
  unfold clearOccupied
  simp only [Int.toNat_natCast]
  split <;> rfl

@[simp] theorem clearOccupied_side : (s.clearOccupied tick).side = s.side := by
  unfold clearOccupied
  dsimp only
  split <;> rfl

@[simp] theorem clearOccupied_bestTick : (s.clearOccupied tick).bestTick = s.bestTick := by
  unfold clearOccupied
  dsimp only
  split <;> rfl

@[simp] theorem clearOccupied_levels : (s.clearOccupied tick).levels = s.levels := by
  unfold clearOccupied
  dsimp only
  split <;> rfl

theorem clearOccupied_rep (h : s.OccupancyRep occ) :
    (s.clearOccupied tick).OccupancyRep (fun t => t ≠ tick ∧ occ t) where
  bit := fun t' ht' => by
    rw [clearOccupied_occupancy]
    by_cases hw : t' / kBitsPerWord = tick / kBitsPerWord
    · rw [hw, Function.update_self, Word.getLsbD_erase _ (mod_lt_bits tick), ← hw]
      simp only [Bool.and_eq_true, Bool.not_eq_true', decide_eq_false_iff_not, h.bit t' ht']
      constructor
      · rintro ⟨hm, ho⟩
        exact ⟨fun e => hm (e ▸ rfl), ho⟩
      · rintro ⟨hne, ho⟩
        exact ⟨fun e => hne (tick_eq_of_div_mod hw e), ho⟩
    · rw [Function.update_of_ne hw, h.bit t' ht']
      have hne : t' ≠ tick := fun e => hw (e ▸ rfl)
      simp [hne]
  summaryBit := fun w hw' => by
    rw [clearOccupied_occupancy, clearOccupied_summary]
    by_cases hw : w = tick / kBitsPerWord
    · subst hw
      rw [Function.update_self]
      split
      · next hz =>
        -- the word became zero: its summary bit is erased
        rw [Function.update_self, Word.getLsbD_erase _ (mod_lt_bits _)]
        simp only [hz, decide_true, Bool.not_true, Bool.false_and, Bool.false_eq_true,
          ne_eq, not_true_eq_false]
      · next hz =>
        -- a bit is left, so there was one before
        simp only [ne_eq, hz, not_false_eq_true, iff_true]
        refine (h.summaryBit _ hw').mpr fun hzero => hz ?_
        rw [hzero]
        exact BitVec.zero_and
    · rw [Function.update_of_ne hw]
      split
      · by_cases hs : w / kBitsPerWord = tick / kBitsPerWord / kBitsPerWord
        · have hm : w % kBitsPerWord ≠ tick / kBitsPerWord % kBitsPerWord := fun e =>
            hw (tick_eq_of_div_mod hs e)
          rw [hs, Function.update_self, Word.getLsbD_erase _ (mod_lt_bits _), ← hs]
          simp only [hm, decide_false, Bool.not_false, Bool.true_and]
          exact h.summaryBit w hw'
        · rw [Function.update_of_ne hs]
          exact h.summaryBit w hw'
      · exact h.summaryBit w hw'
  inBand := fun t' ho => h.inBand t' ho.2

end Updates

/-! ## 3. The search -/

section Search

variable {s : PriceLevels} {occ : Nat → Prop}

/-- An occupied tick shows in the summary bit of its word. -/
theorem OccupancyRep.summary_of_occ (h : s.OccupancyRep occ) {t : Nat} (ho : occ t) :
    (s.summary (t / kBitsPerWord / kBitsPerWord)).getLsbD (t / kBitsPerWord % kBitsPerWord)
      = true := by
  have ht := h.inBand t ho
  refine (h.summaryBit _ ?_).mpr ((Word.ne_zero_iff _).mpr
    ⟨t % kBitsPerWord, mod_lt_bits t, (h.bit t ht).mpr ho⟩)
  simp only [kOccupancyWords, kTickCount, kMaxPriceLevels, kBitsPerWord] at *
  omega

/-- A bit of a summary word leads to an occupied tick of that word. -/
theorem OccupancyRep.word_ne_zero (h : s.OccupancyRep occ) {sw b : Nat} (hsw : sw < kSummaryWords)
    (hb : b < 64) (hbit : (s.summary sw).getLsbD b = true) :
    s.occupancy (sw * kBitsPerWord + b) ≠ 0 := by
  have hw : sw * kBitsPerWord + b < kOccupancyWords := by
    simp only [kOccupancyWords, kSummaryWords, kTickCount, kMaxPriceLevels, kBitsPerWord] at *
    omega
  refine (h.summaryBit _ hw).mp ?_
  have hd : (sw * kBitsPerWord + b) / kBitsPerWord = sw := by
    simp only [kBitsPerWord]; omega
  have hm : (sw * kBitsPerWord + b) % kBitsPerWord = b := by
    simp only [kBitsPerWord]; omega
  rw [hd, hm]
  exact hbit

theorem OccupancyRep.occ_of_bit (h : s.OccupancyRep occ) {sw b c : Nat} (hsw : sw < kSummaryWords)
    (hb : b < 64) (hc : c < 64)
    (hbit : (s.occupancy (sw * kBitsPerWord + b)).getLsbD c = true) :
    occ ((sw * kBitsPerWord + b) * kBitsPerWord + c) := by
  have ht : (sw * kBitsPerWord + b) * kBitsPerWord + c < kTickCount := by
    simp only [kSummaryWords, kOccupancyWords, kTickCount, kMaxPriceLevels, kBitsPerWord] at *
    omega
  refine (h.bit _ ht).mp ?_
  have hd : ((sw * kBitsPerWord + b) * kBitsPerWord + c) / kBitsPerWord
      = sw * kBitsPerWord + b := by
    simp only [kBitsPerWord]; omega
  have hm : ((sw * kBitsPerWord + b) * kBitsPerWord + c) % kBitsPerWord = c := by
    simp only [kBitsPerWord]; omega
  rw [hd, hm]
  exact hbit

/-- **The descending search**: among the ticks of the first `n` summary words it returns the
greatest occupied one. -/
theorem findHighest_spec (h : s.OccupancyRep occ) : ∀ n, n ≤ kSummaryWords →
    (s.findHighest n = kInvalidTick ∧
      ∀ t, occ t → n ≤ t / kBitsPerWord / kBitsPerWord) ∨
    ∃ t : Nat, s.findHighest n = t ∧ occ t ∧
      ∀ t', occ t' → t' / kBitsPerWord / kBitsPerWord < n → t' ≤ t
  | 0, _ => Or.inl ⟨rfl, fun _ _ => Nat.zero_le _⟩
  | sw + 1, hn => by
    unfold findHighest
    by_cases hz : s.summary sw = 0
    · -- an empty summary word holds no tick: the result is that of the words below
      have hempty : ∀ t, occ t → t / kBitsPerWord / kBitsPerWord ≠ sw := fun t ho e => by
        have := h.summary_of_occ ho
        rw [e, hz] at this
        simp at this
      simp only [hz, if_true]
      rcases findHighest_spec h sw (by omega) with ⟨hi, hall⟩ | ⟨t, he, ho, hall⟩
      · refine Or.inl ⟨hi, fun t ho => ?_⟩
        have h1 := hall t ho
        have h2 := hempty t ho
        omega
      · refine Or.inr ⟨t, he, ho, fun t' ho' hlt => hall t' ho' ?_⟩
        have := hempty t' ho'
        omega
    · simp only [hz, if_false]
      have hhb := Word.getLsbD_highest hz
      have hword := h.word_ne_zero (by omega : sw < kSummaryWords) (by omega) hhb
      have hlb := Word.getLsbD_highest hword
      have hlt64 : ∀ c, kBitsPerWord - 1 - c < 64 := fun c => by
        simp only [kBitsPerWord]; omega
      refine Or.inr ⟨_, rfl, h.occ_of_bit (by omega) (hlt64 _) (hlt64 _) hlb, ?_⟩
      intro t' ho' hlt
      by_cases hsw : t' / kBitsPerWord / kBitsPerWord = sw
      · have hle : t' / kBitsPerWord % kBitsPerWord ≤ 64 - 1 - (s.summary sw).clz.toNat := by
          refine Word.le_highest ?_
          have := h.summary_of_occ ho'
          rwa [hsw] at this
        by_cases hw : t' / kBitsPerWord
            = sw * kBitsPerWord + (64 - 1 - (s.summary sw).clz.toNat)
        · have hle' := Word.le_highest (x := s.occupancy (t' / kBitsPerWord))
            ((h.bit t' (h.inBand t' ho')).mpr ho')
          rw [hw] at hle'
          simp only [kBitsPerWord] at *
          omega
        · simp only [kBitsPerWord] at *
          omega
      · simp only [kBitsPerWord] at *
        omega

/-- **The ascending search**: among the ticks of the last `n` summary words it returns the
least occupied one. -/
theorem findLowest_spec (h : s.OccupancyRep occ) : ∀ n, n ≤ kSummaryWords →
    (s.findLowest n = kInvalidTick ∧
      ∀ t, occ t → t / kBitsPerWord / kBitsPerWord < kSummaryWords - n) ∨
    ∃ t : Nat, s.findLowest n = t ∧ occ t ∧
      ∀ t', occ t' → kSummaryWords - n ≤ t' / kBitsPerWord / kBitsPerWord → t ≤ t'
  | 0, _ => by
    refine Or.inl ⟨rfl, fun t ho => ?_⟩
    have ht := h.inBand t ho
    simp only [kSummaryWords, kOccupancyWords, kTickCount, kMaxPriceLevels, kBitsPerWord] at *
    omega
  | n + 1, hn => by
    unfold findLowest
    by_cases hz : s.summary (kSummaryWords - (n + 1)) = 0
    · have hempty : ∀ t, occ t →
          t / kBitsPerWord / kBitsPerWord ≠ kSummaryWords - (n + 1) := fun t ho e => by
        have := h.summary_of_occ ho
        rw [e, hz] at this
        simp at this
      simp only [hz, if_true]
      rcases findLowest_spec h n (by omega) with ⟨hi, hall⟩ | ⟨t, he, ho, hall⟩
      · refine Or.inl ⟨hi, fun t ho => ?_⟩
        have h1 := hall t ho
        have h2 := hempty t ho
        omega
      · refine Or.inr ⟨t, he, ho, fun t' ho' hle => hall t' ho' ?_⟩
        have := hempty t' ho'
        omega
    · simp only [hz, if_false]
      have hlb := Word.getLsbD_lowest hz
      have hlt := Word.ctz_lt hz
      have hword := h.word_ne_zero (by omega : kSummaryWords - (n + 1) < kSummaryWords) hlt hlb
      have hcb := Word.getLsbD_lowest hword
      have hclt := Word.ctz_lt hword
      refine Or.inr ⟨_, rfl, h.occ_of_bit (by omega) hlt hclt hcb, ?_⟩
      intro t' ho' hge
      by_cases hsw : t' / kBitsPerWord / kBitsPerWord = kSummaryWords - (n + 1)
      · have hle : (s.summary (kSummaryWords - (n + 1))).ctz.toNat
            ≤ t' / kBitsPerWord % kBitsPerWord := by
          refine Word.lowest_le ?_
          have := h.summary_of_occ ho'
          rwa [hsw] at this
        by_cases hw : t' / kBitsPerWord = (kSummaryWords - (n + 1)) * kBitsPerWord
            + (s.summary (kSummaryWords - (n + 1))).ctz.toNat
        · have hle' := Word.lowest_le (x := s.occupancy (t' / kBitsPerWord))
            ((h.bit t' (h.inBand t' ho')).mpr ho')
          rw [hw] at hle'
          simp only [kBitsPerWord] at *
          omega
        · simp only [kBitsPerWord] at *
          omega
      · simp only [kBitsPerWord] at *
        omega

/-- **`FindBestTick` returns the best occupied tick of its side.** -/
theorem findBestTick_best (h : s.OccupancyRep occ) : IsBest s.side occ s.findBestTick := by
  have hband : ∀ t, occ t → t / kBitsPerWord / kBitsPerWord < kSummaryWords := fun t ho => by
    have ht := h.inBand t ho
    simp only [kSummaryWords, kOccupancyWords, kTickCount, kMaxPriceLevels, kBitsPerWord] at *
    omega
  unfold findBestTick
  split
  · next hside =>
    rcases findHighest_spec h kSummaryWords (Nat.le_refl _) with ⟨he, hall⟩ | ⟨t, he, ho, hall⟩
    · exact Or.inl ⟨he, fun t ho => Nat.lt_irrefl _ (Nat.lt_of_lt_of_le (hband t ho) (hall t ho))⟩
    · exact Or.inr ⟨t, he, ho, fun t' ho' => by
        rw [if_pos hside]; exact hall t' ho' (hband t' ho')⟩
  · next hside =>
    rcases findLowest_spec h kSummaryWords (Nat.le_refl _) with ⟨he, hall⟩ | ⟨t, he, ho, hall⟩
    · exact Or.inl ⟨he, fun t ho => by
        have := hall t ho
        rw [Nat.sub_self] at this
        exact Nat.not_lt_zero _ this⟩
    · exact Or.inr ⟨t, he, ho, fun t' ho' => by
        rw [if_neg hside]; exact hall t' ho' (by rw [Nat.sub_self]; exact Nat.zero_le _)⟩

end Search

end PriceLevels
end YQuant
