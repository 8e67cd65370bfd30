/-
# An account at average cost

An account holds a position and what the position cost.  A trade that opens or increases the
position adds its price to the cost; a trade against the position realises the difference between
its price and the average cost of what it closes, and what it opens beyond that costs the new
price.

Whichever of the three a trade is, what has been realised less the cost of the position changes by
the cash that the trade brings in (`realised_trade`).  So whatever the order of trades, what has
been realised is the cash they have brought in, plus the cost of the position that is left.

The lemma is about a single trade, so it does not matter in which order trades come or when the
account is looked at; whoever keeps an account in steps of its own adds up the cash of its trades.
The cost carries the sign of the position, so buying and selling are one definition, and closing a
position does not have to be told from opening one.  Prices and quantities are elements of one
linearly ordered field, in which nothing is rounded.
-/
import Mathlib.Algebra.Order.Field.Basic
import Mathlib.Tactic.LinearCombination
import Mathlib.Tactic.Ring

namespace AverageCost

variable {K : Type} [Field K] [LinearOrder K]

/-- An account.  The position and its cost carry a sign: both are negative for a short position. -/
@[ext] structure Account (K : Type) where
  position : K
  cost : K
  realised : K

namespace Account

/-- A trade of a signed quantity. -/
def trade (a : Account K) (quantity price : K) : Account K :=
  if 0 ≤ a.position * quantity then
    { a with
      position := a.position + quantity
      cost := a.cost + price * quantity }
  else if |quantity| ≤ |a.position| then
    { position := a.position + quantity
      cost := a.cost / a.position * (a.position + quantity)
      realised := a.realised + (a.cost / a.position - price) * quantity }
  else
    { position := a.position + quantity
      cost := price * (a.position + quantity)
      realised := a.realised + (price - a.cost / a.position) * a.position }

/-- The cash that a trade brings in. -/
def cash (quantity price : K) : K := -(price * quantity)

variable {a : Account K} {quantity price : K}

@[simp] theorem position_trade : (a.trade quantity price).position = a.position + quantity := by
  unfold trade
  split
  · rfl
  · split <;> rfl

/-- **A trade realises the cash it brings in**, up to the cost of the position. -/
theorem realised_trade : (a.trade quantity price).realised - (a.trade quantity price).cost =
    a.realised - a.cost + cash quantity price := by
  unfold trade cash
  split
  · dsimp only
    ring
  · next hagainst =>
    have hopen : a.position ≠ 0 := by
      rintro hflat
      rw [hflat, zero_mul] at hagainst
      exact hagainst le_rfl
    have hcost : a.cost / a.position * a.position = a.cost := div_mul_cancel₀ _ hopen
    split <;> dsimp only <;> linear_combination -hcost

end Account

end AverageCost
