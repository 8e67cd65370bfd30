/-
# Prices outside the band

`ToTick` makes no check.  Its documentation says that a price outside the band gets a tick outside
the range, and three callers rely on it: the assertion of `AddOrder`, the precondition of
`BookCore::Add` and the check of `moveOrder`.  The 64-bit quotient is truncated toward zero, and the
cast keeps its low 32 bits, so this is not so at three kinds of places: just below the band, where
the quotient is zero, and wherever the quotient is the tick of a price of the band plus or minus a
multiple of `2 ^ 32` (`Aliased`).  `moveOrder` compares only with the upper end of the range after
it has refused a price below the band; the quotients whose cast is negative pass too
(`PassesAbove`).

The condition is exact for each of the three callers, and the first two have the same one: what
gets a tick of the range would rest there, because `AddOrder` looks at the tick alone.  For
`moveOrder` it is another one, since its check is on one end only.  For a price below the band
nothing is sent; for one far above it an order may be, and it then reaches a matcher that takes it
as a price of the band or stops at it.

The grid is not the point here: a price of the band between two ticks has a tick, and is
recognised.
-/
import YQuant.Trading.TradeEngine

namespace YQuant

/-! ## 1. The tick of a price -/

section Quotient

variable {d t m : Int}

/-- Truncation does not matter from above zero on. -/
theorem tdiv_lt_iff (ht : 0 < t) (hm : 0 < m) : d.tdiv t < m ↔ d < m * t := by
  rcases lt_or_ge d 0 with hd | hd
  · have hnonpos : d.tdiv t ≤ 0 := by
      have hneg := Int.tdiv_nonneg (Int.neg_nonneg_of_nonpos hd.le) ht.le
      rw [Int.neg_tdiv] at hneg
      omega
    have hpos : 0 < m * t := mul_pos hm ht
    constructor
    · intro _
      omega
    · intro _
      omega
  · rw [Int.tdiv_eq_ediv_of_nonneg hd, Int.ediv_lt_iff_lt_mul ht]

theorem neg_lt_tdiv_iff (ht : 0 < t) (hm : 0 < m) : -m < d.tdiv t ↔ -(m * t) < d := by
  have h := tdiv_lt_iff (d := -d) ht hm
  rw [Int.neg_tdiv] at h
  constructor
  · intro hlt
    have := h.mp (by omega)
    omega
  · intro hlt
    have := h.mpr (by omega)
    omega

/-- The quotients whose low 32 bits are a tick of the range. -/
theorem toInt32_inRange_iff (q : Int) : (0 ≤ toInt32 q ∧ toInt32 q < kTickCount) ↔
    (0 ≤ q ∧ q < kTickCount) ∨ ∃ k : Nat, 0 < k ∧
      ((2 ^ 32 * k ≤ q ∧ q < 2 ^ 32 * k + kTickCount) ∨
        (-(2 ^ 32 * k) ≤ q ∧ q < kTickCount - 2 ^ 32 * k)) := by
  have hrange : (0 ≤ toInt32 q ∧ toInt32 q < kTickCount) ↔ q % 2 ^ 32 < kTickCount := by
    simp only [toInt32, Int.bmod_def, kTickCount, kMaxPriceLevels]
    split <;> omega
  rw [hrange]
  simp only [kTickCount, kMaxPriceLevels]
  constructor
  · intro hlt
    rcases Int.lt_trichotomy (q / 2 ^ 32) 0 with hneg | hzero | hpos
    · exact .inr ⟨(-(q / 2 ^ 32)).toNat, by omega, .inr (by omega)⟩
    · exact .inl (by omega)
    · exact .inr ⟨(q / 2 ^ 32).toNat, by omega, .inl (by omega)⟩
  · rintro (h | ⟨k, hk, h | h⟩)
    · omega
    · omega
    · omega

end Quotient

namespace PriceBand

variable {b : PriceBand}

/-- The price lies in the band, on the grid or not. -/
def Covers (b : PriceBand) (price : Int) : Prop :=
  b.basePrice ≤ price ∧ price < b.basePrice + kTickCount * b.tickSize

/-- **The prices outside the band that get a tick of the range**: less than one increment below the
band, or a multiple of `2 ^ 32` increments above or below a price that gets one. -/
def Aliased (b : PriceBand) (price : Int) : Prop :=
  (b.basePrice - b.tickSize < price ∧ price < b.basePrice) ∨ ∃ k : Nat, 0 < k ∧
    ((b.basePrice + 2 ^ 32 * k * b.tickSize ≤ price ∧
        price < b.basePrice + (2 ^ 32 * k + kTickCount) * b.tickSize) ∨
      (b.basePrice - (2 ^ 32 * k + 1) * b.tickSize < price ∧
        price ≤ b.basePrice - (2 ^ 32 * k - kTickCount + 1) * b.tickSize))

/-- **The prices that get a tick of the range.** -/
theorem toTick_inRange_iff (hb : b.isValid = true) (price : Int) :
    (0 ≤ b.toTick price ∧ b.toTick price < kTickCount) ↔ b.Covers price ∨ b.Aliased price := by
  have ht := tickSize_pos hb
  have hcount : (0 : Int) < kTickCount := by decide
  have hlow : 0 ≤ (price - b.basePrice).tdiv b.tickSize ↔ b.basePrice - b.tickSize < price := by
    have h := neg_lt_tdiv_iff (d := price - b.basePrice) ht (m := 1) (by omega)
    omega
  have hhigh : (price - b.basePrice).tdiv b.tickSize < kTickCount ↔
      price < b.basePrice + kTickCount * b.tickSize := by
    have h := tdiv_lt_iff (d := price - b.basePrice) ht hcount
    omega
  have habove : ∀ k : Nat, 0 < k → ((2 ^ 32 * k ≤ (price - b.basePrice).tdiv b.tickSize ∧
        (price - b.basePrice).tdiv b.tickSize < 2 ^ 32 * k + kTickCount) ↔
      (b.basePrice + 2 ^ 32 * k * b.tickSize ≤ price ∧
        price < b.basePrice + (2 ^ 32 * k + kTickCount) * b.tickSize)) := by
    intro k hk
    have h := tdiv_lt_iff (d := price - b.basePrice) ht (m := 2 ^ 32 * k) (by omega)
    have h' := tdiv_lt_iff (d := price - b.basePrice) ht (m := 2 ^ 32 * k + kTickCount) (by omega)
    omega
  have hbelow : ∀ k : Nat, 0 < k → ((-(2 ^ 32 * k) ≤ (price - b.basePrice).tdiv b.tickSize ∧
        (price - b.basePrice).tdiv b.tickSize < kTickCount - 2 ^ 32 * k) ↔
      (b.basePrice - (2 ^ 32 * k + 1) * b.tickSize < price ∧
        price ≤ b.basePrice - (2 ^ 32 * k - kTickCount + 1) * b.tickSize)) := by
    intro k hk
    have hsmall : (kTickCount : Int) < 2 ^ 32 := by decide
    have h := neg_lt_tdiv_iff (d := price - b.basePrice) ht (m := 2 ^ 32 * k + 1) (by omega)
    have h' := neg_lt_tdiv_iff (d := price - b.basePrice) ht (m := 2 ^ 32 * k - kTickCount + 1)
      (by omega)
    omega
  have hpos : 0 < kTickCount * b.tickSize := mul_pos hcount ht
  rw [toTick, toInt32_inRange_iff, hlow, hhigh]
  constructor
  · rintro (⟨h, h'⟩ | ⟨k, hk, h | h⟩)
    · rcases lt_or_ge price b.basePrice with hlt | hge
      · exact .inr (.inl ⟨h, hlt⟩)
      · exact .inl ⟨hge, h'⟩
    · exact .inr (.inr ⟨k, hk, .inl ((habove k hk).mp h)⟩)
    · exact .inr (.inr ⟨k, hk, .inr ((hbelow k hk).mp h)⟩)
  · rintro (⟨h, h'⟩ | ⟨h, h'⟩ | ⟨k, hk, h | h⟩)
    · exact .inl ⟨by omega, h'⟩
    · exact .inl ⟨h, by omega⟩
    · exact .inr ⟨k, hk, .inl ((habove k hk).mpr h)⟩
    · exact .inr ⟨k, hk, .inr ((hbelow k hk).mpr h)⟩

/-- No price of the band is one of these. -/
theorem Covers.not_aliased (hb : b.isValid = true) {price : Int} (h : b.Covers price) :
    ¬ b.Aliased price := by
  have ht := tickSize_pos hb
  have hsmall : (kTickCount : Int) < 2 ^ 32 := by decide
  obtain ⟨hlow, hhigh⟩ := h
  rintro (⟨-, hlt⟩ | ⟨k, hk, ⟨hge, -⟩ | ⟨-, hle⟩⟩)
  · omega
  · have : (kTickCount : Int) * b.tickSize ≤ 2 ^ 32 * k * b.tickSize :=
      mul_le_mul_of_nonneg_right (by omega) ht.le
    omega
  · have : 0 < (2 ^ 32 * k - kTickCount + 1) * b.tickSize := mul_pos (by omega) ht
    omega

/-- The range of the tick tells whether the price lies in the band. -/
def Recognised (b : PriceBand) (price : Int) : Prop :=
  (0 ≤ b.toTick price ∧ b.toTick price < kTickCount) ↔ b.Covers price

/-- If the price lies outside the band, no order rests at its tick: `AddOrder` stops. -/
def NeverRests (b : PriceBand) (price : Int) : Prop :=
  ¬ b.Covers price → ∀ (s : PriceLevels) (pool : MemPool OrderNode)
    (clientId clientOrderId marketOrderId quantity : Nat),
    s.addOrder pool (b.toTick price) clientId clientOrderId marketOrderId quantity =
      .error (.assertion "Tick outside the price band")

theorem recognised_iff (hb : b.isValid = true) (price : Int) :
    b.Recognised price ↔ ¬ b.Aliased price := by
  rw [Recognised, toTick_inRange_iff hb]
  constructor
  · intro h haliased
    exact Covers.not_aliased hb (h.mp (.inr haliased)) haliased
  · exact fun h => ⟨fun hor => hor.resolve_right h, .inl⟩

/-- An empty side takes an order at any tick of the range. -/
theorem addOrder_empty {tick : Int} (htick : 0 ≤ tick ∧ tick < kTickCount) :
    ∃ result, (PriceLevels.init .buy).addOrder (.init 1) tick 0 0 0 1 = .ok result := by
  simp only [PriceLevels.addOrder, htick.1, htick.2, decide_true, Bool.and_self, assertThat_true,
    ok_bind]
  exact ⟨_, rfl⟩

theorem neverRests_iff (hb : b.isValid = true) (price : Int) :
    b.NeverRests price ↔ ¬ b.Aliased price := by
  constructor
  · intro h haliased
    have hcovers : ¬ b.Covers price := fun hcovers => hcovers.not_aliased hb haliased
    obtain ⟨result, hok⟩ := addOrder_empty ((toTick_inRange_iff hb price).mpr (.inr haliased))
    rw [h hcovers] at hok
    cases hok
  · intro h hcovers s pool clientId clientOrderId marketOrderId quantity
    have hrange : ¬ (0 ≤ b.toTick price ∧ b.toTick price < kTickCount) := fun hrange =>
      ((toTick_inRange_iff hb price).mp hrange).elim hcovers h
    have hcheck :
        (decide (0 ≤ b.toTick price) && decide (b.toTick price < kTickCount)) = false := by
      rw [← Bool.not_eq_true, Bool.and_eq_true, decide_eq_true_eq, decide_eq_true_eq]
      exact hrange
    rw [PriceLevels.addOrder, hcheck]
    rfl

end PriceBand

/-! ## 2. The check of `moveOrder` -/

namespace Trading

/-- Every new order that `moveOrder` sends for this price has a price that `BookCore::Add` admits.
-/
def QuotesInBand (price : Int) : Prop :=
  ∀ (t t' : TradeEngine) (tickerId : Nat) (side : Side) (qty : Nat) (lossTooLarge : Bool)
    (sent : List MatchingEngineClientRequest),
    OrderManager.moveOrder t tickerId (some price) side qty lossTooLarge = .ok t' →
    t'.outgoingOgwRequests = t.outgoingOgwRequests ++ sent →
    ∀ r ∈ sent, r.type = .new → kDefaultPriceBand.InBand r.price

/-- **The prices above the band that the check lets through**: their ticks are negative or in the
range, but for a multiple of `2 ^ 32`. -/
def PassesAbove (price : Int) : Prop :=
  ∃ k : Nat, 0 < k ∧ 2 ^ 32 * k - 2 ^ 31 ≤ price ∧ price < 2 ^ 32 * k + kTickCount

/-- What the check lets through. -/
theorem bandPrice_some_iff (price : Int) :
    OrderManager.bandPrice (some price) = some price ↔
      kDefaultPriceBand.InBand price ∨ PassesAbove price := by
  have htick : kDefaultPriceBand.toTick price = toInt32 price := by
    simp [PriceBand.toTick, kDefaultPriceBand]
  have hcheck : OrderManager.bandPrice (some price) = some price ↔
      0 ≤ price ∧ toInt32 price < kTickCount := by
    simp only [OrderManager.bandPrice, htick]
    simp only [kDefaultPriceBand, Int.tmod_one, ne_eq, not_true_eq_false, false_or,
      ite_eq_right_iff, reduceCtorEq, imp_false, not_or, Int.not_lt, Int.not_le]
  have hinBand : kDefaultPriceBand.InBand price ↔ 0 ≤ price ∧ price < kTickCount := by
    simp [PriceBand.InBand, kDefaultPriceBand]
  rw [hcheck, hinBand]
  have hlow : toInt32 price < kTickCount ↔
      price % 2 ^ 32 < kTickCount ∨ 2 ^ 31 ≤ price % 2 ^ 32 := by
    simp only [toInt32, Int.bmod_def, kTickCount, kMaxPriceLevels]
    split <;> omega
  rw [hlow, PassesAbove]
  simp only [kTickCount, kMaxPriceLevels]
  constructor
  · rintro ⟨hnonneg, hlt | hge⟩
    · rcases Int.lt_or_eq_of_le (Int.ediv_nonneg hnonneg (by omega : (0 : Int) ≤ 2 ^ 32))
        with hpos | hzero
      · exact .inr ⟨(price / 2 ^ 32).toNat, by omega, by omega, by omega⟩
      · exact .inl (by omega)
    · exact .inr ⟨(price / 2 ^ 32).toNat + 1, by omega, by omega, by omega⟩
  · rintro (h | ⟨k, hk, hge, hlt⟩)
    · omega
    · omega

/-- A price that the check drops is no price. -/
theorem moveOrder_of_dropped {t : TradeEngine} {tickerId qty : Nat} {side : Side} {price : Int}
    {lossTooLarge : Bool} (h : OrderManager.bandPrice (some price) = none) :
    OrderManager.moveOrder t tickerId (some price) side qty lossTooLarge =
      OrderManager.moveOrder t tickerId none side qty lossTooLarge := by
  rw [OrderManager.moveOrder, h]
  rfl

theorem quotesInBand_iff (price : Int) : QuotesInBand price ↔ ¬ PassesAbove price := by
  constructor
  · intro h hpasses
    have hband := (bandPrice_some_iff price).mpr (.inr hpasses)
    -- an engine that has sent nothing and may buy one
    have hmove : OrderManager.moveOrder (.init 0 fun _ => ⟨1, 1⟩) 0 (some price) .buy 1 false =
        .ok (OrderManager.entered (.init 0 fun _ => ⟨1, 1⟩) 0 price .buy 1) := by
      rw [OrderManager.moveOrder, hband]
      rfl
    have hin := h _ _ _ _ _ _ [⟨.new, 0, 0, 1, .buy, price, 1⟩] hmove rfl _
      (List.mem_singleton_self _) rfl
    obtain ⟨k, hk, hge, -⟩ := hpasses
    have hhigh := hin.2.1
    simp only [kDefaultPriceBand, kTickCount, kMaxPriceLevels] at hhigh
    omega
  · intro h t t' tickerId side qty lossTooLarge sent hmove hsent r hr htype
    cases hband : OrderManager.bandPrice (some price) with
    | none =>
      rw [moveOrder_of_dropped hband] at hmove
      cases OrderManager.moveOrder_cases hmove with
      | kept =>
        rw [List.self_eq_append_right.mp hsent] at hr
        cases hr
      | canceled =>
        obtain rfl := List.append_cancel_left hsent
        rw [List.mem_singleton.mp hr] at htype
        cases htype
      | entered _ hprice => cases hprice
    | some p =>
      obtain rfl := Option.some.inj (OrderManager.bandPrice_eq_some hband)
      cases OrderManager.moveOrder_cases hmove with
      | kept =>
        rw [List.self_eq_append_right.mp hsent] at hr
        cases hr
      | canceled =>
        obtain rfl := List.append_cancel_left hsent
        rw [List.mem_singleton.mp hr] at htype
        cases htype
      | entered _ hprice =>
        obtain rfl := List.append_cancel_left hsent
        rw [List.mem_singleton.mp hr]
        obtain rfl := Option.some.inj hprice
        exact ((bandPrice_some_iff _).mp hband).resolve_right h

/-! ## 3. What the callers can rely on -/

/-- **Where a price outside the band is recognised.**  The tick of a price lies in the range
exactly when the price lies in the band, and no order rests outside the band, unless the price is
`Aliased`; the orders that `moveOrder` sends are admitted by `BookCore::Add` unless the price
`PassesAbove`.  The two kinds differ because `moveOrder` refuses prices below the band before it
asks for a tick, and lets negative ticks pass afterwards. -/
theorem outOfBand_recognised_iff {b : PriceBand} (hb : b.isValid = true) (price : Int) :
    (b.Recognised price ↔ ¬ b.Aliased price) ∧ (b.NeverRests price ↔ ¬ b.Aliased price) ∧
      (QuotesInBand price ↔ ¬ PassesAbove price) :=
  ⟨PriceBand.recognised_iff hb price, PriceBand.neverRests_iff hb price, quotesInBand_iff price⟩

/-- The price right below a band with increment two. -/
theorem outOfBand_recognised_iff_below :
    (PriceBand.Recognised ⟨10, 2⟩ 9 ↔ ¬ PriceBand.Aliased ⟨10, 2⟩ 9) ∧
      (PriceBand.NeverRests ⟨10, 2⟩ 9 ↔ ¬ PriceBand.Aliased ⟨10, 2⟩ 9) ∧
      (QuotesInBand 9 ↔ ¬ PassesAbove 9) :=
  outOfBand_recognised_iff (by decide) 9

/-- It is not recognised. -/
theorem outOfBand_not_recognised : ¬ ∀ (b : PriceBand) (price : Int), b.isValid = true →
    -2 ^ 63 ≤ price → price < 2 ^ 63 → -2 ^ 63 ≤ price - b.basePrice →
    price - b.basePrice < 2 ^ 63 →
    b.Recognised price ∧ b.NeverRests price ∧ QuotesInBand price := by
  intro h
  have hbelow : (PriceBand.mk 10 2).Covers 9 :=
    (h ⟨10, 2⟩ 9 (by decide) (by decide) (by decide) (by decide) (by decide)).1.mp (by decide)
  exact absurd hbelow.1 (by decide)

end Trading

end YQuant
