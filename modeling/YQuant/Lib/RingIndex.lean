/-
# Indices into a ring

A ring of `2 ^ k` slots is addressed by counters that only grow; the machine keeps a counter modulo
`2 ^ w` and finds its slot by a mask.  Two counters that are less than `n` apart are equal as soon
as they agree modulo `n` (`mod_eq_iff`): with `n = 2 ^ w` that compares the words, with
`n = 2 ^ k` it compares the slots.

The usual way to get the size of such a ring is to smear the bits of a number downwards and to add
one; `smear_or_shiftRight` is one round of it, and `smeared_eq` says what comes out.

The first lemma is used both ways.  That equal words mean equal counters needs the counters to be
close, and how close they are is the invariant of the structure that uses them; conversely two
counters that are not in the same slot are not equal.  A ring may have as many slots as there are
words, but not more (`and_mask`).

The smearing is followed round by round on the bits: after rounds of 1, 2, 4 and so on every bit
below the highest one is set, so the result is one less than a power of two, whatever was there.
-/
import Mathlib.Data.Nat.Find
import Mathlib.Data.Nat.ModEq
import Mathlib.Tactic.Common

namespace RingIndex

/-! ## 1. Counters, words and slots -/

/-- Counters less than `n` apart that agree modulo `n` are equal. -/
theorem mod_eq_iff {a b n : Nat} (hab : a ≤ b) (hlt : b < a + n) : a % n = b % n ↔ a = b := by
  constructor
  · intro h
    have hdvd : n ∣ b - a := (Nat.modEq_iff_dvd' hab).mp h
    have hzero := Nat.eq_zero_of_dvd_of_lt hdvd (by omega)
    omega
  · exact fun h => h ▸ rfl

/-- The slot of a counter can be read off its word. -/
theorem and_mask {k w a : Nat} (hk : k ≤ w) : a % 2 ^ w &&& (2 ^ k - 1) = a % 2 ^ k := by
  rw [Nat.and_two_pow_sub_one_eq_mod, Nat.mod_mod_of_dvd _ (Nat.pow_dvd_pow 2 hk)]

/-! ## 2. Smearing bits -/

/-- One round: every bit spreads twice as far down. -/
theorem smear_or_shiftRight {x y m : Nat}
    (h : ∀ i, y.testBit i = true ↔ ∃ j, j < m ∧ x.testBit (i + j) = true) (i : Nat) :
    (y ||| y >>> m).testBit i = true ↔ ∃ j, j < m + m ∧ x.testBit (i + j) = true := by
  rw [Nat.testBit_or, Nat.testBit_shiftRight, Bool.or_eq_true, h, h]
  constructor
  · rintro (⟨j, hj, hx⟩ | ⟨j, hj, hx⟩)
    · exact ⟨j, by omega, hx⟩
    · exact ⟨m + j, by omega, by rwa [← Nat.add_assoc, Nat.add_comm i m]⟩
  · rintro ⟨j, hj, hx⟩
    rcases Nat.lt_or_ge j m with hlt | hge
    · exact .inl ⟨j, hlt, hx⟩
    · exact .inr ⟨j - m, by omega, by rwa [show m + i + (j - m) = i + j by omega]⟩

/-- A number whose bits are closed downwards is one less than a power of two. -/
theorem eq_two_pow_sub_one {y w : Nat} (hlt : y < 2 ^ w)
    (hdown : ∀ i, y.testBit (i + 1) = true → y.testBit i = true) :
    ∃ k, k ≤ w ∧ y = 2 ^ k - 1 := by
  have hex : ∃ i, y.testBit i = false := ⟨w, Nat.testBit_lt_two_pow hlt⟩
  have hfind := Nat.find_spec hex
  have habove : ∀ j, y.testBit (Nat.find hex + j) = false := by
    intro j
    induction j with
    | zero => exact hfind
    | succ j ih =>
      by_contra hne
      rw [hdown _ (by simpa [Nat.add_assoc] using hne)] at ih
      cases ih
  refine ⟨Nat.find hex, Nat.find_min' hex (Nat.testBit_lt_two_pow hlt),
    Nat.eq_of_testBit_eq fun i => ?_⟩
  rw [Nat.testBit_two_pow_sub_one]
  rcases Nat.lt_or_ge i (Nat.find hex) with hi | hi
  · rw [decide_eq_true hi]
    simpa using Nat.find_min hex hi
  · rw [decide_eq_false (by omega), show i = Nat.find hex + (i - Nat.find hex) by omega]
    exact habove _

/-- **What smearing computes.**  When the rounds reach all `m` bits of `x`, adding one to the result
gives the least power of two above `x`. -/
theorem smeared_eq {x y m : Nat} (hx : x < 2 ^ m)
    (h : ∀ i, y.testBit i = true ↔ ∃ j, j < m ∧ x.testBit (i + j) = true) :
    ∃ k, k ≤ m ∧ y = 2 ^ k - 1 ∧ ∀ j, k ≤ j ↔ x < 2 ^ j := by
  have hnone : ∀ i, m ≤ i → x.testBit i = false := fun i hi =>
    Nat.testBit_lt_two_pow (hx.trans_le (Nat.pow_le_pow_right (by decide) hi))
  obtain ⟨k, hk, hy⟩ := eq_two_pow_sub_one (w := m)
    (Nat.lt_pow_two_of_testBit y fun i hi => by
      rw [← Bool.not_eq_true, h]
      rintro ⟨j, -, hbit⟩
      rw [hnone _ (by omega)] at hbit
      cases hbit)
    (fun i hi => by
      obtain ⟨j, hj, hbit⟩ := (h _).mp hi
      refine (h i).mpr ⟨j + 1, ?_, by rwa [show i + (j + 1) = i + 1 + j by omega]⟩
      by_contra hge
      rw [hnone _ (by omega)] at hbit
      cases hbit)
  refine ⟨k, hk, hy, fun j => ⟨fun hkj => ?_, fun hlt => ?_⟩⟩
  · -- a bit of `x` is a bit of `y`, which has none from `k` on
    refine Nat.lt_pow_two_of_testBit x fun i hi => ?_
    by_contra hbit
    rw [Bool.not_eq_false] at hbit
    have hm : 0 < m := by
      by_contra hzero
      rw [hnone i (by omega)] at hbit
      cases hbit
    have hyi := (h i).mpr ⟨0, hm, hbit⟩
    rw [hy, Nat.testBit_two_pow_sub_one, decide_eq_true_eq] at hyi
    omega
  · -- the top bit of `y` comes from a bit of `x`
    by_contra hjk
    have hyj : y.testBit j = true := by
      rw [hy, Nat.testBit_two_pow_sub_one, decide_eq_true_eq]
      omega
    obtain ⟨i, -, hbit⟩ := (h j).mp hyj
    have hbelow := hlt.trans_le (Nat.pow_le_pow_right (by decide) (Nat.le_add_right j i))
    rw [Nat.testBit_lt_two_pow hbelow] at hbit
    cases hbit

end RingIndex
