/-
# Profits of a position

`trading/strategy/position_keeper.h`: the profit a position has realised, the profit it would make
at the last price, and for each side what the open position cost.

The `double` fields are read as exact rationals.  The integer computations are 64 bits wide and
signed, so every one of them goes through `int64`; `addFill` takes this rounding as an argument, and
`addFill id` computes with exact integers.  `bbo_` is only printed and left out.

With exact integers a `PositionInfo` keeps an account at average cost (`account_addFill`), and its
profits balance (`profits_balance`).

Profits are doubles in the source, and what is exact here is rounded there; so `profits_balance`
says that the bookkeeping is right, and not that the digits are.  Two marks are in use: a fill
marks the position at its own price, and a new best bid and offer at the mid price if neither side
is empty.  The balance names the last of them (`currentMark`).

The table of a position has an entry for each side, and a fill without a side would index it past
its end.  Of the exchange's fills this does not happen (`PositionEvent.Proper`).
-/
import Mathlib.Data.Rat.Defs
import Mathlib.Algebra.Order.Ring.Rat
import Mathlib.Tactic.FieldSimp
import Mathlib.Tactic.NormNum
import Mathlib.Tactic.Linarith
import YQuant.Lib.AverageCost
import YQuant.Lib.Run
import YQuant.Trading.MarketOrderBook
import YQuant.Trading.TradeEngine

namespace YQuant

namespace Trading

open AverageCost (Account)

/-! ## 1. The fields and the operations -/

/-- What a signed 64-bit computation makes of its exact result. -/
def int64 (x : Int) : Int := x.bmod kWord64

/-- `PositionInfo`, with its profits. -/
structure ProfitInfo extends PositionInfo where
  realPnl : Rat
  unrealPnl : Rat
  totalPnl : Rat
  openVwap : Side → Rat

/-- A quotient of two floating point numbers. -/
def quotient (a b : Rat) : Except Fault Rat := if b = 0 then .error .divisionByZero else .ok (a / b)

/-- `open_vwap_` has an entry for `BUY` and one for `SELL`. -/
def checkVwap (side : Side) : Except Fault Unit :=
  if side.Directional then .ok () else .error .outOfBounds

namespace ProfitInfo

/-- A position that has seen no fill. -/
def empty : ProfitInfo := ⟨⟨0, 0⟩, 0, 0, 0, fun _ => 0⟩

def setVwap (p : ProfitInfo) (side : Side) (v : Rat) : ProfitInfo :=
  { p with openVwap := Function.update p.openVwap side v }

variable (w : Int → Int)

/-- The unrealised profit of an open position at a price. -/
def unrealAt (p : ProfitInfo) (price : Rat) : Except Fault Rat := do
  let size : Rat := (w |p.position| : Int)
  if 0 < p.position then do
    let vwap ← quotient (p.openVwap .buy) size
    .ok ((price - vwap) * size)
  else do
    let vwap ← quotient (p.openVwap .sell) size
    .ok ((vwap - price) * size)

/-- A fill that opens or increases the position. -/
def increase (p : ProfitInfo) (r : MatchingEngineClientResponse) : Except Fault ProfitInfo := do
  checkVwap r.side
  .ok (p.setVwap r.side (p.openVwap r.side + r.price * r.executedQuantity))

/-- The position is at the opposite side of where it was. -/
def flipped (oldPosition position : Int) : Bool := decide (w (position * oldPosition) < 0)

/-- What a fill closes at an average price of `oppVwap`. -/
def close (p : ProfitInfo) (oldPosition : Int) (r : MatchingEngineClientResponse) (oppVwap : Rat) :
    ProfitInfo :=
  { p.setVwap r.side.opposite (oppVwap * (w |p.position| : Int)) with
    realPnl := p.realPnl +
      (min (r.executedQuantity : Int) (w |oldPosition|) : Int) * (oppVwap - r.price) *
        sideValue r.side }

/-- What a fill opens on the other side. -/
def flip (p : ProfitInfo) (r : MatchingEngineClientResponse) : ProfitInfo :=
  (p.setVwap r.side (r.price * (w |p.position| : Int))).setVwap r.side.opposite 0

/-- A fill against the position, which `p` already counts. -/
def decrease (p : ProfitInfo) (oldPosition : Int) (r : MatchingEngineClientResponse) :
    Except Fault ProfitInfo := do
  let oppVwap ← quotient (p.openVwap r.side.opposite) (w |oldPosition| : Int)
  let p := p.close w oldPosition r oppVwap
  if flipped w oldPosition p.position then do
    checkVwap r.side
    .ok (p.flip w r)
  else .ok p

/-- The end of `addFill`: the unrealised profit at the price of the fill, and the total. -/
def markFill (p : ProfitInfo) (price : Rat) : Except Fault ProfitInfo :=
  if p.position = 0 then
    .ok { (p.setVwap .buy 0).setVwap .sell 0 with
      unrealPnl := 0
      totalPnl := 0 + p.realPnl }
  else do
    let unreal ← p.unrealAt w price
    .ok { p with
      unrealPnl := unreal
      totalPnl := unreal + p.realPnl }

/-- `PositionInfo::addFill`, with its profits. -/
def addFill (p : ProfitInfo) (r : MatchingEngineClientResponse) : Except Fault ProfitInfo := do
  let oldPosition := p.position
  let p := { p with
    position := w (oldPosition + w (r.executedQuantity * sideValue r.side))
    volume := (p.volume + r.executedQuantity) % kWord32 }
  let p ← (if 0 ≤ w (oldPosition * sideValue r.side) then p.increase r
    else p.decrease w oldPosition r)
  p.markFill w r.price

/-- `PositionInfo::updateBBO`. -/
def updateBBO (p : ProfitInfo) (bbo : BBO) : Except Fault ProfitInfo :=
  if p.position ≠ 0 ∧ bbo.bidQty ≠ 0 ∧ bbo.askQty ≠ 0 then do
    let unreal ← p.unrealAt w ((bbo.bidPrice + bbo.askPrice) * (1 / 2))
    .ok { p with
      unrealPnl := unreal
      totalPnl := unreal + p.realPnl }
  else .ok p

end ProfitInfo

/-- What a position hears of. -/
inductive PositionEvent where
  | fill (response : MatchingEngineClientResponse)
  | bbo (bbo : BBO)
deriving DecidableEq

/-- With exact integers. -/
def ProfitInfo.step (p : ProfitInfo) : PositionEvent → Except Fault ProfitInfo
  | .fill r => p.addFill id r
  | .bbo b => p.updateBBO id b

/-- A fill of the exchange: something is executed, on one of the two sides. -/
def PositionEvent.Proper : PositionEvent → Prop
  | .fill r => 0 < r.executedQuantity ∧ r.side.Directional
  | .bbo _ => True

/-! ## 2. A position keeps an account at average cost -/

section SideValue

variable {side : Side} {x y : Int}

@[simp] theorem sideValue_buy : sideValue .buy = 1 := rfl

@[simp] theorem sideValue_sell : sideValue .sell = -1 := rfl

theorem sideValue_cases (side : Side) : sideValue side = 1 ∨ sideValue side = -1 := by
  unfold sideValue
  split
  · exact .inl rfl
  · exact .inr rfl

theorem sideValue_mul_self (side : Side) : sideValue side * sideValue side = 1 := by
  rcases sideValue_cases side with h | h <;> rw [h] <;> rfl

theorem sideValue_opposite (hd : side.Directional) :
    sideValue side.opposite = -sideValue side := by
  rcases hd with rfl | rfl <;> rfl

theorem opposite_directional (side : Side) : side.opposite.Directional := by
  unfold Side.opposite
  split
  · exact .inr rfl
  · exact .inl rfl

theorem opposite_ne (hd : side.Directional) : side.opposite ≠ side := by
  rcases hd with rfl | rfl <;> decide

theorem eq_or_eq_opposite (hd : side.Directional) {d : Side} (hd' : d.Directional) :
    d = side ∨ d = side.opposite := by
  rcases hd with rfl | rfl <;> rcases hd' with rfl | rfl <;> simp

/-- A product does not see that both factors are turned to the same side. -/
theorem mul_eq_mul_sideValue (side : Side) :
    x * y = (x * sideValue side) * (y * sideValue side) := by
  linear_combination -(x * y) * sideValue_mul_self side

theorem abs_mul_sideValue (side : Side) : |x * sideValue side| = |x| := by
  rw [abs_mul]
  have hone : |sideValue side| = 1 := by
    rcases sideValue_cases side with h | h <;> rw [h] <;> rfl
  rw [hone, mul_one]

/-- The size of a position against a side. -/
theorem abs_of_against (side : Side) (h : x * sideValue side ≤ 0) :
    |x| = -(x * sideValue side) := by
  rw [← abs_mul_sideValue side, abs_of_nonpos h]

end SideValue

namespace ProfitInfo

variable {p p' : ProfitInfo} {r : MatchingEngineClientResponse}

/-- The account that a position keeps. -/
def account (p : ProfitInfo) : Account Rat :=
  ⟨p.position, p.openVwap .buy - p.openVwap .sell, p.realPnl⟩

/-- Only the side of the position has a cost. -/
def OneSided (p : ProfitInfo) : Prop :=
  ∀ side : Side, side.Directional → p.position * sideValue side ≤ 0 → p.openVwap side = 0

theorem account_cost (p : ProfitInfo) {side : Side} (hd : side.Directional) :
    p.account.cost = sideValue side * (p.openVwap side - p.openVwap side.opposite) := by
  unfold account sideValue
  rcases hd with rfl | rfl
  · simp
  · simp

@[simp] theorem setVwap_self (p : ProfitInfo) (side : Side) (v : Rat) :
    (p.setVwap side v).openVwap side = v := by
  simp [setVwap]

theorem setVwap_of_ne (p : ProfitInfo) {side d : Side} (hd : d ≠ side) (v : Rat) :
    (p.setVwap side v).openVwap d = p.openVwap d := by
  simp [setVwap, hd]

theorem checkVwap_of_directional {side : Side} (hd : side.Directional) :
    checkVwap side = .ok () := if_pos hd

/-- **The unrealised profit** is what the position is worth at the price, less its cost. -/
theorem unrealAt_eq (h : p.OneSided) (hopen : p.position ≠ 0) (price : Rat) :
    p.unrealAt id price = .ok (p.position * price - p.account.cost) := by
  have hsize : ((id |p.position| : Int) : Rat) ≠ 0 := by
    exact_mod_cast abs_ne_zero.mpr hopen
  unfold unrealAt quotient
  dsimp only
  rw [if_neg hsize, if_neg hsize]
  have habs (v : Rat) : v / ((id |p.position| : Int) : Rat) * ((id |p.position| : Int) : Rat) = v :=
    div_mul_cancel₀ v hsize
  split
  · next hlong =>
    have hsell : p.openVwap .sell = 0 := h .sell (.inr rfl) (by
      rw [sideValue_sell]
      omega)
    have hsign : ((id |p.position| : Int) : Rat) = p.position := by
      rw [id, abs_of_pos hlong]
    rw [ok_bind, account, hsell]
    congr 1
    have := habs (p.openVwap .buy)
    rw [hsign] at this ⊢
    dsimp only
    linear_combination -this
  · next hshort =>
    have hbuy : p.openVwap .buy = 0 := h .buy (.inl rfl) (by
      rw [sideValue_buy]
      omega)
    have hsign : ((id |p.position| : Int) : Rat) = -p.position := by
      rw [id, abs_of_nonpos (not_lt.mp hshort), Int.cast_neg]
    rw [ok_bind, account, hbuy]
    congr 1
    have := habs (p.openVwap .sell)
    rw [hsign] at this ⊢
    dsimp only
    linear_combination this

/-- The position and the volume after a fill. -/
def filled (p : ProfitInfo) (r : MatchingEngineClientResponse) : ProfitInfo :=
  { p with
    position := p.position + r.executedQuantity * sideValue r.side
    volume := (p.volume + r.executedQuantity) % kWord32 }

/-- **A fill on the side of the position** adds its price to the cost. -/
theorem account_increase (h : p.OneSided) (hd : r.side.Directional) (hqty : 0 < r.executedQuantity)
    (hwith : 0 ≤ p.position * sideValue r.side) :
    ∃ p', (p.filled r).increase r = .ok p' ∧ p'.OneSided ∧
      p'.toPositionInfo = p.toPositionInfo.addFill r ∧
      p'.account = p.account.trade (r.executedQuantity * sideValue r.side : Int) r.price := by
  have hsq := sideValue_mul_self r.side
  have hopp : p.openVwap r.side.opposite = 0 := by
    refine h _ (opposite_directional _) ?_
    rw [sideValue_opposite hd]
    linarith
  have hquantity : 0 ≤ p.account.position *
    ((r.executedQuantity * sideValue r.side : Int) : Rat) := by
    have : 0 ≤ p.position * (r.executedQuantity * sideValue r.side) := by
      have := mul_nonneg hwith (Int.natCast_nonneg r.executedQuantity)
      linarith
    rw [account, ← Int.cast_mul]
    exact_mod_cast this
  refine ⟨_, by rw [increase, checkVwap_of_directional hd, ok_bind], fun d hd' hside => ?_, rfl, ?_⟩
  · rcases eq_or_eq_opposite hd hd' with rfl | rfl
    · have : (p.position + r.executedQuantity * sideValue r.side) * sideValue r.side ≤ 0 := hside
      have hpos : (0 : Int) < r.executedQuantity := by exact_mod_cast hqty
      nlinarith
    · rw [setVwap_of_ne _ (opposite_ne hd)]
      exact hopp
  · have hcost := account_cost (p := p) hd
    have hcost' := fun q : ProfitInfo => account_cost q hd
    unfold Account.trade
    rw [if_pos hquantity]
    refine Account.ext ?_ ?_ rfl
    · exact Int.cast_add _ _
    · rw [hcost', hcost, setVwap_self, setVwap_of_ne _ (opposite_ne hd)]
      simp only [filled]
      push_cast
      ring

@[simp] theorem openVwap_close (w : Int → Int) (p : ProfitInfo) (oldPosition : Int)
    (r : MatchingEngineClientResponse) (v : Rat) :
    (p.close w oldPosition r v).openVwap r.side.opposite = v * (w |p.position| : Int) :=
  setVwap_self _ _ _

theorem openVwap_close_side (w : Int → Int) (p : ProfitInfo) (oldPosition : Int)
    {r : MatchingEngineClientResponse} (hd : r.side.Directional) (v : Rat) :
    (p.close w oldPosition r v).openVwap r.side = p.openVwap r.side :=
  setVwap_of_ne _ (opposite_ne hd).symm _

@[simp] theorem openVwap_flip_opposite (w : Int → Int) (p : ProfitInfo)
    (r : MatchingEngineClientResponse) : (p.flip w r).openVwap r.side.opposite = 0 :=
  setVwap_self _ _ _

theorem openVwap_flip (w : Int → Int) (p : ProfitInfo) {r : MatchingEngineClientResponse}
    (hd : r.side.Directional) :
    (p.flip w r).openVwap r.side = r.price * (w |p.position| : Int) := by
  rw [flip, setVwap_of_ne _ (opposite_ne hd).symm, setVwap_self]

section Against

variable (hagainst : p.position * sideValue r.side < 0)

include hagainst

/-- The position after a fill against it, seen from the side of the fill. -/
theorem filled_sideValue : (p.filled r).position * sideValue r.side =
    r.executedQuantity - |p.position| := by
  have hposition : (p.filled r).position =
      p.position + r.executedQuantity * sideValue r.side := rfl
  rw [hposition, abs_of_against _ hagainst.le]
  linear_combination r.executedQuantity * sideValue_mul_self r.side

/-- The flip test says whether the fill is larger than the position. -/
theorem flipped_id : flipped id p.position (p.filled r).position =
    decide (|p.position| < (r.executedQuantity : Int)) := by
  have hproduct : (p.filled r).position * p.position =
      (r.executedQuantity - |p.position|) * -|p.position| := by
    rw [mul_eq_mul_sideValue r.side, filled_sideValue hagainst, abs_of_against _ hagainst.le,
      neg_neg]
  have hsize : 0 < |p.position| := by
    rw [abs_of_against _ hagainst.le]
    exact neg_pos.mpr hagainst
  rw [flipped, id, hproduct]
  refine decide_eq_decide.mpr ⟨fun hneg => ?_, fun hlt => ?_⟩
  · by_contra hle
    exact absurd hneg (not_lt.mpr (mul_nonneg_of_nonpos_of_nonpos (by omega) (by omega)))
  · exact mul_neg_of_pos_of_neg (by omega) (by omega)

/-- The average price that a fill against the position closes at. -/
theorem averagePrice (h : p.OneSided) (hd : r.side.Directional) :
    quotient (p.openVwap r.side.opposite) (|p.position| : Int) =
      .ok (p.account.cost / p.account.position) := by
  have hsize : 0 < |p.position| := by
    rw [abs_of_against _ hagainst.le]
    exact neg_pos.mpr hagainst
  have hsizer : ((|p.position| : Int) : Rat) ≠ 0 := by exact_mod_cast hsize.ne'
  have hsq : (sideValue r.side : Rat) * sideValue r.side = 1 := by
    exact_mod_cast sideValue_mul_self r.side
  have hold : ((|p.position| : Int) : Rat) = -(p.position * sideValue r.side) := by
    rw [abs_of_against _ hagainst.le]
    push_cast
    rfl
  have hopen : (p.position : Rat) ≠ 0 := by
    intro hflat
    rw [hflat, zero_mul, neg_zero] at hold
    exact hsizer hold
  rw [quotient, if_neg hsizer, account_cost p hd, h _ hd hagainst.le]
  have haccount : p.account.position = p.position := rfl
  rw [haccount]
  congr 1
  rw [div_eq_div_iff hsizer hopen, hold]
  linear_combination -(p.openVwap r.side.opposite * p.position) * hsq

/-- The account trades against its position. -/
theorem account_trade_against (hqty : 0 < r.executedQuantity) :
    p.account.trade (r.executedQuantity * sideValue r.side : Int) r.price =
      if (r.executedQuantity : Int) ≤ |p.position| then
        ⟨(p.filled r).position,
          p.account.cost / p.account.position * (p.filled r).position,
          p.realPnl + (p.account.cost / p.account.position - r.price) *
            (r.executedQuantity * sideValue r.side : Int)⟩
      else
        ⟨(p.filled r).position, r.price * (p.filled r).position,
          p.realPnl + (r.price - p.account.cost / p.account.position) * p.position⟩ := by
  have hpos : (0 : Int) < r.executedQuantity := by exact_mod_cast hqty
  have hnot :
      ¬ 0 ≤ p.account.position * ((r.executedQuantity * sideValue r.side : Int) : Rat) := by
    have hneg : p.position * (r.executedQuantity * sideValue r.side) < 0 := by
      have := mul_neg_of_pos_of_neg hpos hagainst
      linarith
    rw [account, ← Int.cast_mul, not_le]
    exact_mod_cast hneg
  have hsizes : |((r.executedQuantity * sideValue r.side : Int) : Rat)| ≤ |p.account.position| ↔
      (r.executedQuantity : Int) ≤ |p.position| := by
    have hqabs : |(r.executedQuantity * sideValue r.side : Int)| = r.executedQuantity := by
      rw [abs_mul_sideValue, abs_of_pos hpos]
    rw [account, ← Int.cast_abs, ← Int.cast_abs, hqabs]
    exact Int.cast_le
  have hposition : p.account.position + ((r.executedQuantity * sideValue r.side : Int) : Rat) =
      (p.filled r).position := (Int.cast_add _ _).symm
  unfold Account.trade
  rw [if_neg hnot, hposition]
  simp only [hsizes]
  rfl

/-- A fill of at most the position: what is left of the position is on its old side. -/
theorem account_close (h : p.OneSided) (hd : r.side.Directional) (v : Rat)
    (hclose : (r.executedQuantity : Int) ≤ |p.position|) :
    ((p.filled r).close id p.position r v).OneSided ∧
      ((p.filled r).close id p.position r v).account =
        ⟨(p.filled r).position, v * (p.filled r).position,
          p.realPnl + (v - r.price) * (r.executedQuantity * sideValue r.side : Int)⟩ := by
  have hsq : (sideValue r.side : Rat) * sideValue r.side = 1 := by
    exact_mod_cast sideValue_mul_self r.side
  have hside : (p.filled r).openVwap r.side = 0 := h _ hd hagainst.le
  have hnew := filled_sideValue hagainst
  have hsize : ((|(p.filled r).position| : Int) : Rat) =
      -((p.filled r).position * sideValue r.side) := by
    rw [abs_of_against r.side (by omega)]
    push_cast
    rfl
  refine ⟨fun d hd' hzero => ?_, Account.ext rfl ?_ ?_⟩
  · rcases eq_or_eq_opposite hd hd' with rfl | rfl
    · rw [openVwap_close_side _ _ _ hd, hside]
    · have hflat : |(p.filled r).position| = 0 := by
        have hzero' : (p.filled r).position * sideValue r.side.opposite ≤ 0 := hzero
        rw [sideValue_opposite hd] at hzero'
        rw [abs_of_against r.side (by omega)]
        linarith
      rw [openVwap_close, id, hflat, Int.cast_zero, mul_zero]
  · rw [account_cost _ hd, openVwap_close_side _ _ _ hd, openVwap_close, id, hsize, hside]
    linear_combination v * (p.filled r).position * hsq
  · have hmin : min (r.executedQuantity : Int) (id |p.position|) = r.executedQuantity :=
      min_eq_left hclose
    have hreal : (account ((p.filled r).close id p.position r v)).realised = p.realPnl +
        (min (r.executedQuantity : Int) (id |p.position|) : Int) * (v - r.price) *
          sideValue r.side := rfl
    rw [hreal, hmin]
    push_cast
    ring

/-- A larger fill: the position is closed, and what is left of the fill opens on the other side. -/
theorem account_flip (hd : r.side.Directional) (v : Rat)
    (hlarge : |p.position| < (r.executedQuantity : Int)) :
    (((p.filled r).close id p.position r v).flip id r).OneSided ∧
      (((p.filled r).close id p.position r v).flip id r).account =
        ⟨(p.filled r).position, r.price * (p.filled r).position,
          p.realPnl + (r.price - v) * p.position⟩ := by
  have hsq : (sideValue r.side : Rat) * sideValue r.side = 1 := by
    exact_mod_cast sideValue_mul_self r.side
  have hnew := filled_sideValue hagainst
  have hsize : ((id |((p.filled r).close id p.position r v).position| : Int) : Rat) =
      (p.filled r).position * sideValue r.side := by
    change ((|(p.filled r).position| : Int) : Rat) = _
    rw [← abs_mul_sideValue r.side, abs_of_nonneg (by omega)]
    push_cast
    rfl
  refine ⟨fun d hd' hzero => ?_, Account.ext rfl ?_ ?_⟩
  · rcases eq_or_eq_opposite hd hd' with rfl | rfl
    · have hzero' : (p.filled r).position * sideValue r.side ≤ 0 := hzero
      omega
    · exact openVwap_flip_opposite _ _ _
  · rw [account_cost _ hd, openVwap_flip _ _ hd, openVwap_flip_opposite, hsize]
    linear_combination r.price * (p.filled r).position * hsq
  · have hmin : min (r.executedQuantity : Int) (id |p.position|) = |p.position| :=
      min_eq_right hlarge.le
    have hreal : (account (((p.filled r).close id p.position r v).flip id r)).realised =
        p.realPnl + (min (r.executedQuantity : Int) (id |p.position|) : Int) * (v - r.price) *
          sideValue r.side := rfl
    have hold : ((|p.position| : Int) : Rat) = -(p.position * sideValue r.side) := by
      rw [abs_of_against _ hagainst.le]
      push_cast
      rfl
    rw [hreal, hmin, hold]
    linear_combination (p.position * (r.price - v)) * hsq

/-- **A fill against the position** realises the difference to what the position cost. -/
theorem account_decrease (h : p.OneSided) (hd : r.side.Directional)
    (hqty : 0 < r.executedQuantity) :
    ∃ p', (p.filled r).decrease id p.position r = .ok p' ∧ p'.OneSided ∧
      p'.toPositionInfo = p.toPositionInfo.addFill r ∧
      p'.account = p.account.trade (r.executedQuantity * sideValue r.side : Int) r.price := by
  rw [account_trade_against hagainst hqty, decrease]
  have haverage := averagePrice hagainst h hd
  generalize p.account.cost / p.account.position = v at haverage ⊢
  have hquotient : quotient ((p.filled r).openVwap r.side.opposite) (id |p.position| : Int) =
      .ok v := haverage
  have hflipped : flipped id p.position ((p.filled r).close id p.position r v).position =
      decide (|p.position| < (r.executedQuantity : Int)) := flipped_id hagainst
  rw [hquotient, ok_bind]
  dsimp only
  rw [hflipped]
  by_cases hclose : (r.executedQuantity : Int) ≤ |p.position|
  · obtain ⟨hsided, haccount⟩ := account_close hagainst h hd v hclose
    rw [if_pos hclose, if_neg (by simpa using hclose)]
    exact ⟨_, rfl, hsided, rfl, haccount⟩
  · have hlarge : |p.position| < (r.executedQuantity : Int) := not_le.mp hclose
    obtain ⟨hsided, haccount⟩ := account_flip hagainst hd v hlarge
    rw [if_neg hclose, if_pos (by simpa using hlarge), checkVwap_of_directional hd, ok_bind]
    exact ⟨_, rfl, hsided, rfl, haccount⟩

end Against

/-- A fill is booked, and then marked. -/
theorem addFill_bind {w : Int → Int} (hposition :
      w (p.position + w (r.executedQuantity * sideValue r.side)) = (p.filled r).position) :
    p.addFill w r = ((if 0 ≤ w (p.position * sideValue r.side) then (p.filled r).increase r
      else (p.filled r).decrease w p.position r) >>= fun q => q.markFill w r.price) := by
  unfold addFill
  dsimp only
  rw [hposition]
  rfl

/-- **A fill trades the account**, and the total is the account's worth at the price of the fill. -/
theorem account_addFill (h : p.OneSided) (hqty : 0 < r.executedQuantity) (hd : r.side.Directional) :
    ∃ p', p.addFill id r = .ok p' ∧ p'.OneSided ∧
      p'.toPositionInfo = p.toPositionInfo.addFill r ∧
      p'.account = p.account.trade (r.executedQuantity * sideValue r.side : Int) r.price ∧
      p'.totalPnl = p'.account.realised - p'.account.cost + p'.position * r.price := by
  obtain ⟨p₁, hbooked, hsided, hbase, haccount⟩ : ∃ p₁, (if 0 ≤ id (p.position * sideValue r.side)
      then (p.filled r).increase r else (p.filled r).decrease id p.position r) = .ok p₁ ∧
      p₁.OneSided ∧ p₁.toPositionInfo = p.toPositionInfo.addFill r ∧
      p₁.account = p.account.trade (r.executedQuantity * sideValue r.side : Int) r.price := by
    split
    · next hwith => exact account_increase h hd hqty hwith
    · next hagainst => exact account_decrease (not_le.mp hagainst) h hd hqty
  have hfill : p.addFill id r = p₁.markFill id r.price := by
    rw [addFill_bind rfl, hbooked, ok_bind]
  rw [hfill, ← hbase, ← haccount, markFill]
  split
  · next hflat =>
    have hbuy : p₁.openVwap .buy = 0 := hsided .buy (.inl rfl) (by simp [hflat])
    have hsell : p₁.openVwap .sell = 0 := hsided .sell (.inr rfl) (by simp [hflat])
    have hsame : ((p₁.setVwap .buy 0).setVwap .sell 0).openVwap = p₁.openVwap := by
      simp only [setVwap]
      rw [← hbuy, Function.update_eq_self, hbuy, ← hsell, Function.update_eq_self]
    refine ⟨_, rfl, fun d hd' hzero => ?_, rfl, ?_, ?_⟩
    · dsimp only
      rw [hsame]
      exact hsided d hd' hzero
    · simp only [account, hsame]
      rfl
    · simp only [account, hsame, hbuy, hsell]
      simp [setVwap, hflat]
  · next hopen =>
    rw [unrealAt_eq hsided hopen, ok_bind]
    refine ⟨_, rfl, hsided, rfl, rfl, ?_⟩
    simp only [account]
    ring

/-- A new best bid and offer marks the position, if it is open and neither side is empty. -/
theorem account_updateBBO (h : p.OneSided) (b : BBO) : ∃ p', p.updateBBO id b = .ok p' ∧
    p'.OneSided ∧ p'.toPositionInfo = p.toPositionInfo ∧ p'.account = p.account ∧
    p'.totalPnl = if p.position ≠ 0 ∧ b.bidQty ≠ 0 ∧ b.askQty ≠ 0 then
      p'.account.realised - p'.account.cost + p'.position * ((b.bidPrice + b.askPrice) * (1 / 2))
      else p.totalPnl := by
  unfold updateBBO
  split
  · next hmark =>
    rw [unrealAt_eq h hmark.1, ok_bind]
    refine ⟨_, rfl, h, rfl, rfl, ?_⟩
    simp only [account]
    ring
  · exact ⟨p, rfl, h, rfl, rfl, rfl⟩

end ProfitInfo

/-! ## 3. The profits balance -/

namespace PositionEvent

/-- What an event makes the executed quantity on one side. -/
def executed (side : Side) : PositionEvent → Nat
  | .fill r => if r.side = side then r.executedQuantity else 0
  | .bbo _ => 0

/-- The price paid or received for it. -/
def amount (side : Side) : PositionEvent → Rat
  | .fill r => if r.side = side then r.price * r.executedQuantity else 0
  | .bbo _ => 0

/-- The price at which an event marks the position: that of the fill, or the mid price if neither
side is empty. -/
def mark (old : Rat) : PositionEvent → Rat
  | .fill r => r.price
  | .bbo b => if b.bidQty ≠ 0 ∧ b.askQty ≠ 0 then (b.bidPrice + b.askPrice) / 2 else old

end PositionEvent

/-- Executed buys minus executed sells. -/
def netQuantity (events : List PositionEvent) : Int :=
  ((events.map (PositionEvent.executed .buy)).sum : Nat) -
    ((events.map (PositionEvent.executed .sell)).sum : Nat)

/-- Sale proceeds minus purchase costs. -/
def cash (events : List PositionEvent) : Rat :=
  (events.map (PositionEvent.amount .sell)).sum - (events.map (PositionEvent.amount .buy)).sum

/-- The price at which the position is marked after the events. -/
def currentMark (events : List PositionEvent) : Rat := events.foldl PositionEvent.mark 0

/-- **The profits of a position balance** with what has happened to it. -/
structure Balanced (events : List PositionEvent) (p : ProfitInfo) : Prop where
  position : p.position = netQuantity events
  buyVwap : p.position ≤ 0 → p.openVwap .buy = 0
  sellVwap : 0 ≤ p.position → p.openVwap .sell = 0
  realPnl : p.realPnl = cash events + p.openVwap .buy - p.openVwap .sell
  totalPnl : p.totalPnl = cash events + p.position * currentMark events

section Events

variable {events : List PositionEvent} {e : PositionEvent} {r : MatchingEngineClientResponse}

theorem netQuantity_append_fill (hd : r.side.Directional) :
    netQuantity (events ++ [.fill r]) =
      netQuantity events + r.executedQuantity * sideValue r.side := by
  simp only [netQuantity, List.map_append, List.sum_append, List.map_cons, List.map_nil,
    List.sum_cons, List.sum_nil, PositionEvent.executed]
  rcases hd with hd | hd
  · simp [hd]
    ring
  · simp [hd]
    ring

theorem cash_append_fill (hd : r.side.Directional) : cash (events ++ [.fill r]) =
    cash events + Account.cash ((r.executedQuantity * sideValue r.side : Int) : Rat) r.price := by
  simp only [cash, List.map_append, List.sum_append, List.map_cons, List.map_nil,
    List.sum_cons, List.sum_nil, PositionEvent.amount, Account.cash]
  rcases hd with hd | hd
  · simp [hd]
    ring
  · simp [hd]
    ring

theorem append_bbo (events : List PositionEvent) (b : BBO) :
    netQuantity (events ++ [.bbo b]) = netQuantity events ∧
      cash (events ++ [.bbo b]) = cash events := by
  simp [netQuantity, cash, PositionEvent.executed, PositionEvent.amount]

theorem currentMark_append : currentMark (events ++ [e]) = e.mark (currentMark events) := by
  simp [currentMark]

end Events

namespace Balanced

variable {events : List PositionEvent} {p : ProfitInfo}

theorem empty : Balanced [] .empty where
  position := rfl
  buyVwap _ := rfl
  sellVwap _ := rfl
  realPnl := by simp [ProfitInfo.empty, cash]
  totalPnl := by simp [ProfitInfo.empty, cash]

theorem oneSided (h : Balanced events p) : p.OneSided := by
  rintro side (rfl | rfl) hside
  · exact h.buyVwap (by simpa using hside)
  · exact h.sellVwap (by simpa using hside)

/-- **Every event keeps the balance.** -/
theorem step {e : PositionEvent} (h : Balanced events p) (he : e.Proper) :
    ∃ p', p.step e = .ok p' ∧ Balanced (events ++ [e]) p' := by
  have hreal : p.account.realised - p.account.cost = cash events := by
    have := h.realPnl
    simp only [ProfitInfo.account]
    linarith
  cases e with
  | fill r =>
    obtain ⟨hqty, hd⟩ := he
    obtain ⟨p', hfill, hsided, hbase, haccount, htotal⟩ :=
      ProfitInfo.account_addFill h.oneSided hqty hd
    have hposition : p'.position = netQuantity (events ++ [.fill r]) := by
      rw [netQuantity_append_fill hd, ← h.position, hbase]
      rfl
    have hcash : p'.account.realised - p'.account.cost = cash (events ++ [.fill r]) := by
      rw [haccount, Account.realised_trade, hreal, cash_append_fill hd]
    refine ⟨p', hfill, hposition, fun hp => hsided .buy (.inl rfl) (by simpa using hp),
      fun hp => hsided .sell (.inr rfl) (by simpa using hp), ?_, ?_⟩
    · simp only [ProfitInfo.account] at hcash
      linarith
    · rw [htotal, hcash, currentMark_append, PositionEvent.mark]
  | bbo b =>
    obtain ⟨p', hbbo, hsided, hbase, haccount, htotal⟩ :=
      ProfitInfo.account_updateBBO h.oneSided b
    obtain ⟨hnet, hcash⟩ := append_bbo events b
    have hposition : p'.position = p.position := by rw [hbase]
    refine ⟨p', hbbo, by rw [hnet, hposition, h.position],
      fun hp => hsided .buy (.inl rfl) (by simpa using hp),
      fun hp => hsided .sell (.inr rfl) (by simpa using hp), ?_, ?_⟩
    · rw [← haccount] at hreal
      simp only [ProfitInfo.account] at hreal
      rw [hcash]
      linarith
    · rw [htotal, hcash, currentMark_append, PositionEvent.mark, haccount, hreal, hposition]
      by_cases hflat : p.position = 0
      · rw [if_neg fun hmark => hmark.1 hflat, h.totalPnl, hflat]
        simp
      · by_cases hquotes : b.bidQty ≠ 0 ∧ b.askQty ≠ 0
        · rw [if_pos ⟨hflat, hquotes⟩, if_pos hquotes]
          ring
        · rw [if_neg fun hmark => hquotes hmark.2, if_neg hquotes, h.totalPnl]

end Balanced

/-- **Profit accounting balances** after any fills and any best bids and offers, and nothing is
divided by zero on the way.  The position keeps an account at average cost (`account_addFill`), of
which a trade realises its cash up to the cost of what is left.  Integers and prices are exact
here; `PositionArithmetic.lean` says when the 64-bit integers of the code are. -/
theorem profits_balance {events : List PositionEvent} (hproper : ∀ e ∈ events, e.Proper) :
    ∃ p, events.foldlM ProfitInfo.step .empty = .ok p ∧ Balanced events p := by
  induction events using List.reverseRecOn with
  | nil => exact ⟨_, rfl, .empty⟩
  | append_singleton events e ih =>
    obtain ⟨p, hrun, hp⟩ := ih fun e' he' => hproper e' (List.mem_append_left _ he')
    obtain ⟨p', hstep, hp'⟩ := hp.step (hproper e (by simp))
    refine ⟨p', ?_, hp'⟩
    rw [List.foldlM_append, hrun, ok_bind, List.foldlM_cons, hstep, ok_bind]
    rfl

/-- A short position that is bought back and flipped, and then marked at a mid price. -/
def soldAndFlipped : List PositionEvent :=
  [.fill ⟨.filled, 1, 0, 1, 1, .sell, 100, 7, 3⟩, .fill ⟨.filled, 1, 0, 2, 1, .buy, 90, 10, 0⟩,
    .bbo ⟨95, 97, 4, 6⟩]

theorem profits_balance_flip : ∃ p, soldAndFlipped.foldlM ProfitInfo.step .empty = .ok p ∧
    Balanced soldAndFlipped p :=
  profits_balance (by
    intro e he
    simp only [soldAndFlipped, List.mem_cons, List.not_mem_nil, or_false] at he
    rcases he with rfl | rfl | rfl
    · exact ⟨by decide, .inr rfl⟩
    · exact ⟨by decide, .inl rfl⟩
    · trivial)

end Trading

end YQuant
