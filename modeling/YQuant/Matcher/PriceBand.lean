/-
# Prices on the grid of ticks

`PriceBand` of `exchange/matcher/price_levels.h` maps prices to ticks and back.  `InBand` is the
precondition that `BookCore::Add` documents for a price: inside the band and on the grid.  On
such prices the two maps are inverse (`toTick_of_inBand`), and ticks are ordered like prices.

`BookCall.Documented` collects the preconditions of `BookCore::Add` and `BookCore::Cancel`.

The quotient that `toTick` takes is exact on the grid, so nothing is truncated, and a tick of the
range survives the cast to 32 bits; both is why the two maps are inverse there and order is kept
(`toPrice_le_iff`).  `isValid` is what the constructor of a book checks: the top of a valid band
does not overflow a price.

Off the band nothing of this holds.  What the functions do there, and what their documentation says
that they do, is compared in `OutOfBand.lean`; here and in everything that rests on this module
prices come with `InBand`, and callers have to see to it.
-/
import Mathlib.Tactic.Linarith
import Mathlib.Tactic.Ring
import YQuant.Matcher.BookCore

namespace YQuant
namespace PriceBand

/-- The price lies in the band and on the grid. -/
def InBand (b : PriceBand) (price : Int) : Prop :=
  b.basePrice ≤ price ∧ price < b.basePrice + kTickCount * b.tickSize ∧
    b.tickSize ∣ price - b.basePrice

instance (b : PriceBand) (price : Int) : Decidable (b.InBand price) :=
  inferInstanceAs (Decidable (_ ∧ _))

variable {b : PriceBand}

theorem tickSize_pos (hb : b.isValid = true) : 0 < b.tickSize := by
  simp only [isValid, Bool.and_eq_true, decide_eq_true_eq] at hb
  exact hb.1.1

theorem toInt32_of_tick {t : Nat} (ht : t < kTickCount) : toInt32 t = t := by
  simp only [kTickCount, kMaxPriceLevels] at ht
  unfold toInt32
  rw [Int.bmod_eq_of_le] <;> omega

/-- **A price of the band is the price of its tick.** -/
theorem toTick_of_inBand (hb : b.isValid = true) {price : Int} (hp : b.InBand price) :
    ∃ t : Nat, t < kTickCount ∧ b.toTick price = t ∧ price = b.toPrice t := by
  have hpos := tickSize_pos hb
  obtain ⟨hlow, hhigh, k, hk⟩ := hp
  have hk0 : 0 ≤ k := by
    by_contra hneg
    have : b.tickSize * k < 0 := mul_neg_of_pos_of_neg hpos (by omega)
    omega
  have hklt : k < kTickCount := by
    by_contra hge
    have : b.tickSize * kTickCount ≤ b.tickSize * k := mul_le_mul_of_nonneg_left (by omega) hpos.le
    linarith [mul_comm b.tickSize (kTickCount : Int)]
  obtain ⟨t, rfl⟩ := Int.eq_ofNat_of_zero_le hk0
  have ht : t < kTickCount := by omega
  refine ⟨t, ht, ?_, ?_⟩
  · rw [toTick, hk, Int.mul_tdiv_cancel_left _ (by omega), toInt32_of_tick ht]
  · rw [toPrice]
    linarith [mul_comm b.tickSize (t : Int)]

theorem toPrice_inBand (hb : b.isValid = true) {t : Nat} (ht : t < kTickCount) :
    b.InBand (b.toPrice t) := by
  have hpos := tickSize_pos hb
  refine ⟨?_, ?_, t, ?_⟩
  · have : 0 ≤ (t : Int) * b.tickSize := mul_nonneg (by omega) hpos.le
    rw [toPrice]
    omega
  · have : (t : Int) * b.tickSize < kTickCount * b.tickSize :=
      mul_lt_mul_of_pos_right (by omega) hpos
    rw [toPrice]
    omega
  · rw [toPrice]
    ring

/-- Prices are ordered like ticks. -/
theorem toPrice_le_iff (hb : b.isValid = true) {t t' : Int} :
    b.toPrice t ≤ b.toPrice t' ↔ t ≤ t' := by
  rw [toPrice, toPrice, add_le_add_iff_left, mul_le_mul_iff_left₀ (tickSize_pos hb)]

theorem toPrice_inj (hb : b.isValid = true) {t t' : Int} :
    b.toPrice t = b.toPrice t' ↔ t = t' := by
  rw [le_antisymm_iff, toPrice_le_iff hb, toPrice_le_iff hb, ← le_antisymm_iff]

end PriceBand

/-! ## Documented preconditions -/

/-- What the documentation of `Add` and `Cancel` asks of a caller. -/
def BookCall.Documented (band : PriceBand) : BookCall → Prop
  | .add clientId clientOrderId side price quantity =>
    clientId < kMaxNumClients ∧ clientOrderId < kMaxOrderIds ∧ side.Directional ∧
      band.InBand price ∧ 0 < quantity
  | .cancel clientId clientOrderId => clientId < kMaxNumClients ∧ clientOrderId < kMaxOrderIds

instance (band : PriceBand) : (call : BookCall) → Decidable (call.Documented band)
  | .add .. => inferInstanceAs (Decidable (_ ∧ _))
  | .cancel .. => inferInstanceAs (Decidable (_ ∧ _))

end YQuant
