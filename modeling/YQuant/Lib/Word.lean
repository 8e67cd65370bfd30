/-
# Bits of a machine word

A word used as a small set: bit `i` says whether `i` is a member.  The three idioms a bitmap
is made of are `x ||| (1 <<< i)` (insert), `x &&& ~~~(1 <<< i)` (erase) and a zero count, which
finds the largest or the smallest member.  Each gets the lemma that reads it as a set
operation.

The members are counted from the lowest bit, and a count of leading zeros counts from the other
end, so the largest member is `w - 1 - clz`.  Both counts are `w` on the zero word, which has no
members: the four lemmas about extreme members are about non-empty words, and whoever uses a zero
count has to know that its word is not empty.

Nothing here depends on the width.  A set of more than `w` members takes several words, and a
summary word over them that has a bit for each word that is not empty; its extreme members are
found by the same lemmas, first in the summary and then in the word.
-/
import Mathlib.Tactic.Common

namespace Word

variable {w : Nat}

/-! ## 1. Insert and erase -/

theorem getLsbD_insert (x : BitVec w) {i j : Nat} (hi : i < w) :
    (x ||| (1#w <<< i)).getLsbD j = (decide (j = i) || x.getLsbD j) := by
  have hw : 0 < w := Nat.lt_of_le_of_lt (Nat.zero_le i) hi
  simp only [BitVec.getLsbD_or, BitVec.getLsbD_shiftLeft, BitVec.getLsbD_one]
  by_cases hji : j = i
  · subst hji; simp [hi, hw]
  · by_cases hj : j < w
    · by_cases hlt : j < i
      · simp [hlt, hji]
      · have hne : ¬ j - i = 0 := by omega
        simp [hne, hji]
    · simp [BitVec.getLsbD_of_ge x j (by omega), hji, hj]

theorem getLsbD_erase (x : BitVec w) {i j : Nat} (hi : i < w) :
    (x &&& ~~~(1#w <<< i)).getLsbD j = (!decide (j = i) && x.getLsbD j) := by
  have hw : 0 < w := Nat.lt_of_le_of_lt (Nat.zero_le i) hi
  simp only [BitVec.getLsbD_and, BitVec.getLsbD_not, BitVec.getLsbD_shiftLeft,
    BitVec.getLsbD_one]
  by_cases hj : j < w
  · by_cases hji : j = i
    · subst hji; simp [hi, hw]
    · by_cases hlt : j < i
      · simp [hlt, hji, hj]
      · have hne : ¬ j - i = 0 := by omega
        simp [hne, hji, hj]
  · simp [BitVec.getLsbD_of_ge x j (by omega)]

/-- The empty set is the zero word. -/
theorem eq_zero_iff (x : BitVec w) : x = 0#w ↔ ∀ i, i < w → x.getLsbD i = false := by
  constructor
  · rintro rfl i _; simp
  · intro h
    refine BitVec.eq_of_getLsbD_eq fun i hi => ?_
    rw [h i hi]; simp

theorem ne_zero_iff (x : BitVec w) : x ≠ 0#w ↔ ∃ i, i < w ∧ x.getLsbD i = true := by
  rw [Ne, eq_zero_iff]
  simp

/-! ## 2. The extreme members -/

/-- `w - 1 - clz x` is a member of a non-empty word... -/
theorem getLsbD_highest {x : BitVec w} (hx : x ≠ 0#w) :
    x.getLsbD (w - 1 - x.clz.toNat) = true := by
  obtain ⟨i, hi, -⟩ := (ne_zero_iff x).mp hx
  exact BitVec.getLsbD_true_clz_of_ne_zero (by omega) hx

/-- ...and no member lies above it. -/
theorem le_highest {x : BitVec w} {i : Nat} (hi : x.getLsbD i = true) :
    i ≤ w - 1 - x.clz.toNat := by
  have hlt : x.toNat < 2 ^ (w - x.clz.toNat) := BitVec.toNat_lt_two_pow_sub_clz
  by_contra hgt
  have hge : 2 ^ i ≤ x.toNat := Nat.ge_two_pow_of_testBit hi
  have hexp : w - x.clz.toNat ≤ i := by omega
  have := Nat.pow_le_pow_right (n := 2) (by decide) hexp
  omega

/-- `ctz x` is a member of a non-empty word... -/
theorem getLsbD_lowest {x : BitVec w} (hx : x ≠ 0#w) : x.getLsbD x.ctz.toNat = true :=
  BitVec.getLsbD_true_ctz_of_ne_zero hx

theorem ctz_lt {x : BitVec w} (hx : x ≠ 0#w) : x.ctz.toNat < w := by
  have h := BitVec.ctz_lt_iff_ne_zero.mpr hx
  simpa [BitVec.lt_def] using h

/-- ...and no member lies below it. -/
theorem lowest_le {x : BitVec w} {i : Nat} (hi : x.getLsbD i = true) : x.ctz.toNat ≤ i := by
  by_contra hlt
  rw [BitVec.getLsbD_false_of_lt_ctz (by omega)] at hi
  exact Bool.false_ne_true hi

end Word
