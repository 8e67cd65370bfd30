/-
# The integers of a position

`PositionInfo::addFill` computes with signed 64-bit integers.  A position within the largest limit
the risk check can be given has 32 bits, and so do executed quantities, so sums and sizes are far
from the bounds.  The flip test multiplies the new position by the old one, and that product can be
too large: not for a position that changes sign, where the fill bounds the sum of both sizes, but
for one that a small fill reduces.  `arithmetic_exact_iff` says when every computation of a run is
exact.

The condition is on the fills, one by one, and on the position before each of them
(`FlipTestFits`).  It is exact in both directions, as `ExactFill` asks of every computation that it
gives its exact result, and not only that the branch is the right one.  A limit has 32 bits: up to
3037000500 the condition always holds (`flipTestFits_of_le`), and with the largest limit there is
it can fail (`arithmetic_not_exact`).

Averages are quotients and exact rationals here; the rounding of floating point numbers is another
matter.
-/
import YQuant.Trading.PositionKeeper

namespace YQuant

namespace Trading

/-! ## 1. Exact computations -/

/-- `x` is a value of `int64_t`. -/
def InInt64 (x : Int) : Prop := -9223372036854775808 ≤ x ∧ x < 9223372036854775808

instance (x : Int) : Decidable (InInt64 x) := inferInstanceAs (Decidable (_ ∧ _))

/-- A computation is exact when its result fits. -/
theorem int64_eq_iff {x : Int} : int64 x = x ↔ InInt64 x := by
  unfold int64 InInt64 kWord64
  constructor
  · intro h
    have hlower := @Int.le_bmod x 18446744073709551616 (by decide)
    have hupper := @Int.bmod_lt x 18446744073709551616 (by decide)
    omega
  · rintro ⟨hlower, hupper⟩
    exact Int.bmod_eq_of_le (by omega) (by omega)

/-- **Every 64-bit computation of `addFill` is exact**, and the branch for a position that has
changed sign is taken exactly when it has. -/
structure ExactFill (p : ProfitInfo) (r : MatchingEngineClientResponse) : Prop where
  quantity : int64 (r.executedQuantity * sideValue r.side) = r.executedQuantity * sideValue r.side
  position : int64 (p.position + int64 (r.executedQuantity * sideValue r.side)) =
    (p.toPositionInfo.addFill r).position
  sign : int64 (p.position * sideValue r.side) = p.position * sideValue r.side
  sizes : int64 |p.position| = |p.position| ∧
    int64 |(p.toPositionInfo.addFill r).position| = |(p.toPositionInfo.addFill r).position|
  /-- Only a fill against the position makes the flip test. -/
  product : p.position * sideValue r.side < 0 →
    int64 ((p.toPositionInfo.addFill r).position * p.position) =
      (p.toPositionInfo.addFill r).position * p.position
  branch : (int64 (p.position * sideValue r.side) < 0 ∧
      ProfitInfo.flipped int64 p.position (p.toPositionInfo.addFill r).position = true) ↔
    (0 < p.position ∧ (p.toPositionInfo.addFill r).position < 0 ∨
      p.position < 0 ∧ 0 < (p.toPositionInfo.addFill r).position)

/-- **What keeps the flip test in range**: a fill against the position leaves so little of it that
the product of what was there and what is left fits. -/
def FlipTestFits (p : ProfitInfo) (r : MatchingEngineClientResponse) : Prop :=
  p.position * sideValue r.side < 0 →
    p.position.natAbs * (p.position.natAbs - r.executedQuantity) < 9223372036854775808

instance (p : ProfitInfo) (r : MatchingEngineClientResponse) : Decidable (FlipTestFits p r) :=
  inferInstanceAs (Decidable (_ → _))

/-! ## 2. When a fill is computed exactly -/

section Exact

variable {p : ProfitInfo} {r : MatchingEngineClientResponse} {maxPosition : Nat}

/-- The position after a fill. -/
theorem position_addFill : (p.toPositionInfo.addFill r).position =
    p.position + r.executedQuantity * sideValue r.side := rfl

/-- The product of the flip test, for a fill against the position. -/
theorem flipProduct (hagainst : p.position * sideValue r.side < 0) :
    (p.toPositionInfo.addFill r).position * p.position =
      |p.position| * (|p.position| - r.executedQuantity) := by
  have hnew : (p.toPositionInfo.addFill r).position * sideValue r.side =
      r.executedQuantity - |p.position| := ProfitInfo.filled_sideValue hagainst
  rw [mul_eq_mul_sideValue r.side, hnew, abs_of_against _ hagainst.le]
  ring

/-- A product over the position that is left, or over the one that is opened. -/
theorem inInt64_flipProduct (hold : p.position.natAbs < kWord32)
    (hqty : r.executedQuantity < kWord32) :
    InInt64 (|p.position| * (|p.position| - r.executedQuantity)) ↔
      p.position.natAbs * (p.position.natAbs - r.executedQuantity) < 9223372036854775808 := by
  have habs : |p.position| = (p.position.natAbs : Int) := Int.abs_eq_natAbs _
  rw [habs]
  generalize p.position.natAbs = a at hold ⊢
  generalize r.executedQuantity = e at hqty ⊢
  unfold InInt64
  unfold kWord32 at hold hqty
  rcases Nat.le_total e a with hle | hlarge
  · obtain ⟨k, rfl⟩ := Nat.exists_eq_add_of_le hle
    have hleft : (e + k : Nat) - e = k := Nat.add_sub_cancel_left e k
    rw [hleft]
    push_cast
    have hproduct : ((e : Int) + k) * (e + k - e) = ((e + k) * k : Nat) := by
      push_cast
      ring
    rw [hproduct]
    omega
  · -- what is opened is less than what the fill executes
    obtain ⟨k, rfl⟩ := Nat.exists_eq_add_of_le hlarge
    have hnone : a - (a + k) = 0 := Nat.sub_eq_zero_of_le hlarge
    have hproduct : (a : Int) * (a - (a + k : Nat)) = -((a * k : Nat) : Int) := by
      push_cast
      ring
    have hbound : a * k < 9223372036854775808 := by
      have hfour : 4 * (a * k) ≤ (a + k) * (a + k) := by nlinarith [sq_nonneg ((a : Int) - k)]
      have hsquare : (a + k) * (a + k) < 4294967296 * 4294967296 :=
        Nat.mul_self_lt_mul_self hqty
      omega
    rw [hnone, hproduct, Nat.mul_zero]
    omega

/-- The sign of the position changes. -/
theorem signChange_iff : (p.position * sideValue r.side < 0 ∧
      (p.toPositionInfo.addFill r).position * p.position < 0) ↔
    (0 < p.position ∧ (p.toPositionInfo.addFill r).position < 0 ∨
      p.position < 0 ∧ 0 < (p.toPositionInfo.addFill r).position) := by
  rw [position_addFill]
  constructor
  · rintro ⟨-, hproduct⟩
    rcases mul_neg_iff.mp hproduct with ⟨hnew, hold⟩ | ⟨hnew, hold⟩
    · exact .inr ⟨hold, hnew⟩
    · exact .inl ⟨hold, hnew⟩
  · rintro (⟨hold, hnew⟩ | ⟨hold, hnew⟩)
    · refine ⟨?_, mul_neg_of_neg_of_pos hnew hold⟩
      rcases sideValue_cases r.side with hside | hside <;> rw [hside] at hnew ⊢ <;> omega
    · refine ⟨?_, mul_neg_of_pos_of_neg hnew hold⟩
      rcases sideValue_cases r.side with hside | hside <;> rw [hside] at hnew ⊢ <;> omega

/-- Positions that are far from the bounds are computed exactly. -/
theorem int64_of_small {x : Int} (hx : x.natAbs < 2 * kWord32) : int64 x = x := by
  unfold kWord32 at hx
  exact int64_eq_iff.mpr ⟨by omega, by omega⟩

/-- Every computation but the product of the flip test is far from the bounds. -/
theorem exact_but_product (hold : p.position.natAbs < kWord32)
    (hqty : r.executedQuantity < kWord32) :
    int64 (r.executedQuantity * sideValue r.side) = r.executedQuantity * sideValue r.side ∧
      int64 (p.position + r.executedQuantity * sideValue r.side) =
        (p.toPositionInfo.addFill r).position ∧
      int64 (p.position * sideValue r.side) = p.position * sideValue r.side ∧
      int64 |p.position| = |p.position| ∧
      int64 |(p.toPositionInfo.addFill r).position| = |(p.toPositionInfo.addFill r).position| := by
  rw [position_addFill]
  have hside := sideValue_cases r.side
  refine ⟨?_, ?_, ?_, ?_, ?_⟩ <;> refine int64_of_small ?_
  · rcases hside with h | h <;> rw [h] <;> omega
  · rcases hside with h | h <;> rw [h] <;> omega
  · rcases hside with h | h <;> rw [h] <;> omega
  · rw [Int.natAbs_abs]
    omega
  · rw [Int.natAbs_abs]
    rcases hside with h | h <;> rw [h] <;> omega

/-- **Within the limit a fill is computed exactly just when the flip test fits.** -/
theorem exactFill_iff (hold : p.position.natAbs < kWord32) (hqty : r.executedQuantity < kWord32) :
    ExactFill p r ↔ FlipTestFits p r := by
  obtain ⟨hquantity, hposition, hsign, hsizes⟩ := exact_but_product hold hqty
  have hproduct (hagainst : p.position * sideValue r.side < 0) :
      int64 ((p.toPositionInfo.addFill r).position * p.position) =
        (p.toPositionInfo.addFill r).position * p.position ↔
      p.position.natAbs * (p.position.natAbs - r.executedQuantity) < 9223372036854775808 := by
    rw [int64_eq_iff, flipProduct hagainst]
    exact inInt64_flipProduct hold hqty
  constructor
  · intro hexact hagainst
    exact (hproduct hagainst).mp (hexact.product hagainst)
  · intro hfits
    refine ⟨hquantity, by rw [hquantity, hposition], hsign, hsizes,
      fun hagainst => (hproduct hagainst).mpr (hfits hagainst), ?_⟩
    rw [hsign, ← signChange_iff]
    refine and_congr_right fun hagainst => ?_
    rw [ProfitInfo.flipped, (hproduct hagainst).mpr (hfits hagainst), decide_eq_true_iff]

/-- The parts of `addFill` fail only where they divide by the size of a position that is open. -/
theorem increase_ok (p : ProfitInfo) (hd : r.side.Directional) :
    ∃ p', p.increase r = .ok p' ∧ p'.position = p.position := by
  rw [ProfitInfo.increase, ProfitInfo.checkVwap_of_directional hd]
  exact ⟨_, rfl, rfl⟩

theorem decrease_ok {w : Int → Int} (p : ProfitInfo) {oldPosition : Int}
    (hsize : w |oldPosition| ≠ 0) (hd : r.side.Directional) :
    ∃ p', p.decrease w oldPosition r = .ok p' ∧ p'.position = p.position := by
  rw [ProfitInfo.decrease, quotient, if_neg (by exact_mod_cast hsize), ok_bind]
  dsimp only
  split
  · rw [ProfitInfo.checkVwap_of_directional hd]
    exact ⟨_, rfl, rfl⟩
  · exact ⟨_, rfl, rfl⟩

theorem markFill_ok {w : Int → Int} (p : ProfitInfo) (price : Rat)
    (hsize : p.position ≠ 0 → w |p.position| ≠ 0) :
    ∃ p', p.markFill w price = .ok p' ∧ p'.position = p.position := by
  unfold ProfitInfo.markFill
  split
  · exact ⟨_, rfl, rfl⟩
  · next hopen =>
    have hsize' : ((w |p.position| : Int) : Rat) ≠ 0 := by exact_mod_cast hsize hopen
    obtain ⟨v, hv⟩ : ∃ v, p.unrealAt w price = .ok v := by
      unfold ProfitInfo.unrealAt quotient
      dsimp only
      rw [if_neg hsize', if_neg hsize']
      split <;> exact ⟨_, rfl⟩
    rw [hv]
    exact ⟨_, rfl, rfl⟩

/-- **A fill is booked**, and its position is exact. -/
theorem addFill_int64_ok (hold : p.position.natAbs < kWord32)
    (hqty : r.executedQuantity < kWord32) (hd : r.side.Directional) :
    ∃ p', p.addFill int64 r = .ok p' ∧ p'.position = (p.toPositionInfo.addFill r).position := by
  obtain ⟨hquantity, hposition, hsign, hsizes⟩ := exact_but_product hold hqty
  rw [ProfitInfo.addFill_bind (by rw [hquantity]; exact hposition), hsign]
  obtain ⟨p₁, hbooked, hp₁⟩ : ∃ p₁, (if 0 ≤ p.position * sideValue r.side then
      (p.filled r).increase r else (p.filled r).decrease int64 p.position r) = .ok p₁ ∧
      p₁.position = (p.toPositionInfo.addFill r).position := by
    split
    · exact increase_ok (p.filled r) hd
    · next hagainst =>
      refine decrease_ok (p.filled r) ?_ hd
      rw [hsizes.1, abs_of_against _ (not_le.mp hagainst).le]
      omega
  have hmark : p₁.position ≠ 0 → int64 |p₁.position| ≠ 0 := by
    intro hopen
    rw [hp₁, hsizes.2, ← hp₁]
    exact abs_ne_zero.mpr hopen
  obtain ⟨p', hmarked, hp'⟩ := markFill_ok p₁ r.price hmark
  rw [hbooked, ok_bind]
  exact ⟨p', hmarked, hp'.trans hp₁⟩

/-- **A fill that is computed exactly** is booked as with exact integers. -/
theorem addFill_int64_eq (hexact : ExactFill p r) (hd : r.side.Directional) :
    p.addFill int64 r = p.addFill id r := by
  have hmark {q : ProfitInfo} (hq : q.position = (p.toPositionInfo.addFill r).position)
      (price : Rat) : q.markFill int64 price = q.markFill id price := by
    have hsize : int64 |q.position| = id |q.position| := by
      rw [hq]
      exact hexact.sizes.2
    rw [ProfitInfo.markFill, ProfitInfo.markFill, ProfitInfo.unrealAt, ProfitInfo.unrealAt, hsize]
  have hid : id (p.position * sideValue r.side) = p.position * sideValue r.side := rfl
  rw [ProfitInfo.addFill_bind hexact.position, ProfitInfo.addFill_bind (w := id) rfl, hexact.sign,
    hid]
  by_cases hwith : 0 ≤ p.position * sideValue r.side
  · obtain ⟨p₁, hbooked, hp₁⟩ := increase_ok (p.filled r) hd
    rw [if_pos hwith, if_pos hwith, hbooked, ok_bind, ok_bind, hmark hp₁]
  · have hagainst := not_le.mp hwith
    have hflipped : ProfitInfo.flipped int64 p.position (p.filled r).position =
        ProfitInfo.flipped id p.position (p.filled r).position := by
      rw [ProfitInfo.flipped, ProfitInfo.flipped]
      exact congrArg (fun x => decide (x < 0)) (hexact.product hagainst)
    have hsize : int64 |(p.filled r).position| = id |(p.filled r).position| := hexact.sizes.2
    have hclose (v : Rat) : (p.filled r).close int64 p.position r v =
        (p.filled r).close id p.position r v := by
      rw [ProfitInfo.close, ProfitInfo.close, hsize, hexact.sizes.1]
      rfl
    have hflip (v : Rat) : ((p.filled r).close id p.position r v).flip int64 r =
        ((p.filled r).close id p.position r v).flip id r := by
      have : int64 |((p.filled r).close id p.position r v).position| =
          id |((p.filled r).close id p.position r v).position| := hsize
      rw [ProfitInfo.flip, ProfitInfo.flip, this]
    have hdecrease : (p.filled r).decrease int64 p.position r =
        (p.filled r).decrease id p.position r := by
      rw [ProfitInfo.decrease, ProfitInfo.decrease, hexact.sizes.1]
      simp only [hclose, hflip]
      congr 1
      funext v
      have : ProfitInfo.flipped int64 p.position
          ((p.filled r).close id p.position r v).position = ProfitInfo.flipped id p.position
          ((p.filled r).close id p.position r v).position := hflipped
      rw [this]
    have hopen : id |p.position| ≠ 0 := by
      rw [id, abs_of_against _ hagainst.le]
      omega
    obtain ⟨p₁, hbooked, hp₁⟩ := decrease_ok (w := id) (p.filled r) hopen hd
    rw [if_neg hwith, if_neg hwith, hdecrease, hbooked, ok_bind, ok_bind, hmark hp₁]

/-! ## 3. Runs within a limit -/

/-- **Position arithmetic is exact just when every flip test fits**, in any run within a limit.  No
step of such a run fails.  All other computations are far from the bounds: positions and quantities
have 32 bits each.  Only the product of the old and the new position can be too large, and only for
a position that keeps its sign, so a limit up to 3037000500 excludes it (`flipTestFits_of_le`). -/
theorem arithmetic_exact_iff (hmax : maxPosition < kWord32)
    {fills : List MatchingEngineClientResponse}
    (hfills : ∀ r ∈ fills, r.executedQuantity < kWord32 ∧ r.side.Directional)
    (hlimit : Run.Always (ProfitInfo.addFill int64) (fun p => p.position.natAbs ≤ maxPosition)
      .empty fills) :
    (∃ p, fills.foldlM (ProfitInfo.addFill int64) .empty = .ok p) ∧
      (Run.EachStep (ProfitInfo.addFill int64) ExactFill .empty fills ↔
        Run.EachStep (ProfitInfo.addFill int64) FlipTestFits .empty fills) := by
  constructor
  · refine hlimit.exists_foldlM (fun p r hp hr => ?_) hfills
    obtain ⟨p', hp', -⟩ := addFill_int64_ok (hp.trans_lt hmax) hr.1 hr.2
    exact ⟨p', hp'⟩
  · refine hlimit.eachStep_congr (fun p r p' hp _ hr _ => ?_) hfills
    exact exactFill_iff (hp.trans_lt hmax) hr.1

/-- What is bought at once and sold one by one. -/
def boughtAndSold (quantity : Nat) : List MatchingEngineClientResponse :=
  [⟨.filled, 1, 0, 1, 1, .buy, 100, quantity, 0⟩, ⟨.filled, 1, 0, 2, 2, .sell, 100, 1, 0⟩]

theorem arithmetic_exact_iff_large :
    Run.EachStep (ProfitInfo.addFill int64) ExactFill .empty (boughtAndSold 3037000500) ↔
      Run.EachStep (ProfitInfo.addFill int64) FlipTestFits .empty (boughtAndSold 3037000500) :=
  (arithmetic_exact_iff (by decide : 3037000500 < kWord32) (by decide) (by decide +kernel)).2

/-- With the largest limit there is, the product of `2 ^ 32 - 1` and `2 ^ 32 - 2` comes out
negative, and the position counts as flipped. -/
theorem arithmetic_not_exact : ¬ ∀ (maxPosition : Nat) (fills : List MatchingEngineClientResponse),
    maxPosition < kWord32 → (∀ r ∈ fills, r.executedQuantity < kWord32 ∧ r.side.Directional) →
    Run.Always (ProfitInfo.addFill int64) (fun p => p.position.natAbs ≤ maxPosition) .empty fills →
    Run.EachStep (ProfitInfo.addFill int64) ExactFill .empty fills := by
  intro hall
  have hexact := hall 4294967295 (boughtAndSold 4294967295) (by decide) (by decide)
    (by decide +kernel)
  have hlimit : Run.Always (ProfitInfo.addFill int64) (fun p => p.position.natAbs < kWord32)
      .empty (boughtAndSold 4294967295) := by decide +kernel
  have hqty : ∀ r ∈ boughtAndSold 4294967295, r.executedQuantity < kWord32 := by decide
  have hiff : Run.EachStep (ProfitInfo.addFill int64) ExactFill .empty (boughtAndSold 4294967295) ↔
      Run.EachStep (ProfitInfo.addFill int64) FlipTestFits .empty (boughtAndSold 4294967295) := by
    refine hlimit.eachStep_congr (fun p r _ hp _ hr _ => ?_) hqty
    exact exactFill_iff hp hr
  exact absurd (hiff.mp hexact) (by decide +kernel)

/-- **A run whose flip tests fit** books every fill as with exact integers. -/
theorem run_int64_eq {fills : List MatchingEngineClientResponse} :
    ∀ {p : ProfitInfo}, (∀ r ∈ fills, r.executedQuantity < kWord32 ∧ r.side.Directional) →
      Run.Always (ProfitInfo.addFill int64) (fun p => p.position.natAbs < kWord32) p fills →
      Run.EachStep (ProfitInfo.addFill int64) FlipTestFits p fills →
      fills.foldlM (ProfitInfo.addFill int64) p = fills.foldlM (ProfitInfo.addFill id) p := by
  induction fills with
  | nil => exact fun _ _ _ => rfl
  | cons r fills ih =>
    intro p hfills hlimit hfits
    obtain ⟨hqty, hd⟩ := hfills r List.mem_cons_self
    obtain ⟨p', hp', -⟩ := addFill_int64_ok hlimit.1 hqty hd
    obtain ⟨hfit, hrest⟩ := hfits p' hp'
    have heq := addFill_int64_eq ((exactFill_iff hlimit.1 hqty).mpr hfit) hd
    rw [List.foldlM_cons, List.foldlM_cons, ← heq, hp', ok_bind, ok_bind]
    exact ih (fun r' hr' => hfills r' (List.mem_cons_of_mem r hr')) (hlimit.2 p' hp') hrest

/-- **Up to a limit of 3037000500** every flip test fits. -/
theorem flipTestFits_of_le (hmax : maxPosition ≤ 3037000500)
    (hold : p.position.natAbs ≤ maxPosition) (hqty : 0 < r.executedQuantity) :
    FlipTestFits p r := by
  intro _
  have hleft : p.position.natAbs * (p.position.natAbs - r.executedQuantity) ≤
      3037000500 * 3037000499 := Nat.mul_le_mul (by omega) (by omega)
  omega

/-! ## 4. The position that the risk manager reads -/

variable {w : Int → Int} {p' : ProfitInfo} {bbo : BBO}

/-- The parts of `addFill` after the first leave the volume as it is. -/
theorem volume_increase (h : p.increase r = .ok p') : p'.volume = p.volume := by
  obtain ⟨-, -, h⟩ := bind_ok h
  cases h
  rfl

theorem volume_decrease {oldPosition : Int} (h : p.decrease w oldPosition r = .ok p') :
    p'.volume = p.volume := by
  obtain ⟨v, -, h⟩ := bind_ok h
  dsimp only at h
  split at h
  · obtain ⟨-, -, h⟩ := bind_ok h
    cases h
    rfl
  · cases h
    rfl

theorem volume_markFill {price : Rat} (h : p.markFill w price = .ok p') : p'.volume = p.volume := by
  unfold ProfitInfo.markFill at h
  split at h
  · cases h
    rfl
  · obtain ⟨v, -, h⟩ := bind_ok h
    cases h
    rfl

theorem volume_addFill (h : p.addFill w r = .ok p') :
    p'.volume = (p.volume + r.executedQuantity) % kWord32 := by
  obtain ⟨p₁, hbooked, hmark⟩ := bind_ok h
  rw [volume_markFill hmark]
  split at hbooked
  · rw [volume_increase hbooked]
  · rw [volume_decrease hbooked]

/-- **A fill is booked** as the risk manager counts it. -/
theorem info_addFill (hold : p.position.natAbs < kWord32) (hqty : r.executedQuantity < kWord32)
    (hd : r.side.Directional) :
    ∃ p', p.addFill int64 r = .ok p' ∧ p'.toPositionInfo = p.toPositionInfo.addFill r := by
  obtain ⟨p', hp', hposition⟩ := addFill_int64_ok hold hqty hd
  refine ⟨p', hp', ?_⟩
  have hvolume := volume_addFill hp'
  cases hinfo : p'.toPositionInfo with
  | mk position volume =>
    rw [hinfo] at hposition hvolume
    rw [show position = _ from hposition, show volume = _ from hvolume]
    rfl

/-- A best bid and offer marks the position and leaves it as it is. -/
theorem updateBBO_int64_eq (hold : p.position.natAbs < kWord32) (bbo : BBO) :
    p.updateBBO int64 bbo = p.updateBBO id bbo := by
  have hsize : int64 |p.position| = id |p.position| :=
    int64_of_small (by rw [Int.natAbs_abs]; omega)
  simp only [ProfitInfo.updateBBO, ProfitInfo.unrealAt, hsize]

theorem info_updateBBO (h : p.updateBBO w bbo = .ok p') : p'.toPositionInfo = p.toPositionInfo := by
  unfold ProfitInfo.updateBBO at h
  split at h
  · obtain ⟨v, -, h⟩ := bind_ok h
    cases h
    rfl
  · cases h
    rfl

theorem updateBBO_ok (hold : p.position.natAbs < kWord32) (bbo : BBO) :
    ∃ p', p.updateBBO int64 bbo = .ok p' := by
  rw [updateBBO_int64_eq hold]
  unfold ProfitInfo.updateBBO
  split
  · next hopen =>
    have hsize : ((id |p.position| : Int) : Rat) ≠ 0 := by
      exact_mod_cast abs_ne_zero.mpr hopen.1
    unfold ProfitInfo.unrealAt quotient
    dsimp only
    rw [if_neg hsize, if_neg hsize]
    split <;> exact ⟨_, rfl⟩
  · exact ⟨_, rfl⟩

end Exact

end Trading

end YQuant
