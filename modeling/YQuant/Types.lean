/-
# Types and messages shared by the exchange and the trading client

`common/types.h`, `exchange/order_manager/client_request.h`, `client_response.h` and
`exchange/market_data/market_update.h`.

Identifiers, quantities and priorities are naturals and prices integers; where a counter of the
source can wrap, the wrap is written out at the place that advances it.  An `enum class` over
`uint8_t` can hold any byte once it has been read from the network, so the enumerations that
come from the network have a constructor `other` for the bytes that name no enumerator.

`Fault` collects the ways a thread of the program stops or leaves the defined behaviour of C++.

The messages are kept with all their fields, under the names of the source; which of them have to
fit which width is said where they are written to the wire (`Wire.lean`, `UpdateRecords.lean`).

Of the undefined behaviour the model names what the program could run into: an index past the end
of an array, a null or dangling pointer, an overlapping copy.  A result that a run does not fail
therefore says that none of these happens in it, nor an assertion that ends the process.  Overflow
of signed integers is no fault here; it is looked at where the code multiplies or counts
(`PositionArithmetic.lean`).
-/
import Mathlib.Tactic.Common

namespace YQuant

/-! ## 1. Bounds -/

def kMaxSymbols : Nat := 8
def kMaxMarketUpdates : Nat := 256 * 1024
def kMaxNumClients : Nat := 256
def kMaxOrderIds : Nat := 1024 * 1024
def kMaxPriceLevels : Nat := 16 * 1024

/-- The number of values of a 64-bit unsigned counter, `2 ^ 64`. -/
def kWord64 : Nat := 18446744073709551616

/-- The number of values of a 32-bit unsigned quantity, `2 ^ 32`. -/
def kWord32 : Nat := 4294967296

/-- 64-bit unsigned addition and subtraction. -/
def add64 (a b : Nat) : Nat := (a + b) % kWord64

def sub64 (a b : Nat) : Nat := (((a : Int) - b) % (kWord64 : Int)).toNat

theorem add64_mod (a b : Nat) : add64 (a % kWord64) b = (a + b) % kWord64 := by
  simp [add64, Nat.add_mod]

theorem sub64_of_le {a b : Nat} (h : b ≤ a) : sub64 a b = (a - b) % kWord64 := by
  unfold sub64
  rw [← Int.ofNat_sub h]
  rfl

theorem sub64_mod_left (a b : Nat) : sub64 (a % kWord64) b = sub64 a b := by
  unfold sub64
  rw [Int.natCast_emod, Int.emod_sub_emod]

theorem sub64_mod_right (a b : Nat) : sub64 a (b % kWord64) = sub64 a b := by
  unfold sub64
  rw [Int.natCast_emod, Int.sub_emod_emod]

theorem sub64_mod {a b : Nat} (h : b ≤ a) : sub64 (a % kWord64) b = (a - b) % kWord64 := by
  rw [sub64_mod_left, sub64_of_le h]

/-- `static_cast<ssize_t>` of a `size_t`. -/
def ssize (n : Nat) : Int := Int.bmod n kWord64

theorem ssize_eq {n : Nat} (h : n < 9223372036854775808) : ssize n = n := by
  rw [ssize, Int.bmod_eq_of_le] <;> simp only [kWord64] <;> omega

/-! ## 2. Sides -/

/-- `enum class Side : uint8_t`.  `unset` is `Side{}`, the zero byte that messages without a
side carry. -/
inductive Side where
  | unset
  | buy
  | sell
  | other (code : UInt8)
deriving DecidableEq, Repr

/-- `BUY` or `SELL`. -/
def Side.Directional (s : Side) : Prop := s = .buy ∨ s = .sell

instance (s : Side) : Decidable s.Directional := inferInstanceAs (Decidable (_ ∨ _))

/-- The side an order of side `s` trades against, as `OppositeLevels` picks it: everything that
is not `BUY` trades against the bids. -/
def Side.opposite (s : Side) : Side := if s = .buy then .sell else .buy

@[simp] theorem Side.opposite_buy : Side.buy.opposite = .sell := rfl
@[simp] theorem Side.opposite_sell : Side.sell.opposite = .buy := rfl

/-! ## 3. Client requests and responses -/

inductive ClientRequestType where
  | invaild
  | new
  | canceled
  | other (code : UInt8)
deriving DecidableEq, Repr

structure MatchingEngineClientRequest where
  type : ClientRequestType
  clientId : Nat
  symbolId : Nat
  orderId : Nat
  side : Side
  price : Int
  quantity : Nat
deriving DecidableEq, Repr

inductive ClientResponseType where
  | invalid
  | accepted
  | canceled
  | filled
  | cancelRejected
  | other (code : UInt8)
deriving DecidableEq, Repr

structure MatchingEngineClientResponse where
  type : ClientResponseType
  clientId : Nat
  symbolId : Nat
  clientOrderId : Nat
  marketOrderId : Nat
  side : Side
  price : Int
  executedQuantity : Nat
  remainingQuantity : Nat
deriving DecidableEq, Repr

/-! ## 4. Market updates -/

inductive MarketUpdateType where
  | invalid
  | clear
  | add
  | modify
  | cancel
  | trade
  | snapshotStart
  | snapshotEnd
  | other (code : UInt8)
deriving DecidableEq, Repr

structure MatchingEngineMarketUpdate where
  type : MarketUpdateType
  symbolId : Nat
  orderId : Nat
  side : Side
  price : Int
  quantity : Nat
  priority : Nat
deriving DecidableEq, Repr

/-- A market update as the publisher numbers it. -/
structure MarketDataPublisherMarketUpdate where
  seqNum : Int
  update : MatchingEngineMarketUpdate
deriving DecidableEq, Repr

/-! ## 5. Faults -/

/-- Why a thread stopped. -/
inductive Fault where
  /-- `ASSERT` failed: the message is printed and the process exits. -/
  | assertion (msg : String)
  /-- `FATAL` was called: the message is printed and the process exits. -/
  | fatal (msg : String)
  /-- A null pointer was dereferenced. -/
  | nullPointer
  /-- A pointer was dereferenced that does not point to a live object of its pool. -/
  | danglingPointer
  /-- `operator[]` past the end of an array. -/
  | outOfBounds
  /-- `.at()` past the end of an array: the exception leaves a `noexcept` function. -/
  | outOfRange
  /-- A loop was still running when its bound was used up. -/
  | diverged
  /-- A division by zero, where the source computes with floating point numbers. -/
  | divisionByZero
  /-- `memcpy` between regions that overlap. -/
  | overlappingCopy
deriving DecidableEq, Repr

/-- `ASSERT(cond, msg)`. -/
def assertThat (cond : Bool) (msg : String) : Except Fault Unit :=
  if cond then .ok () else .error (.assertion msg)

@[simp] theorem assertThat_true (msg : String) : assertThat true msg = .ok () := rfl

@[simp] theorem assertThat_false (msg : String) :
    assertThat false msg = .error (.assertion msg) := rfl

/-- The call returns a value that passes the check. -/
def returns {α : Type} (check : α → Bool) : Except Fault α → Bool
  | .ok a => check a
  | .error _ => false

theorem exists_of_returns {α : Type} {check : α → Bool} {x : Except Fault α}
    (h : returns check x = true) : ∃ a, x = .ok a ∧ check a = true := by
  cases x with
  | error e => cases h
  | ok a => exact ⟨a, rfl, h⟩

@[simp] theorem ok_bind {α β : Type} (a : α) (f : α → Except Fault β) :
    (Except.ok a >>= f) = f a := rfl

@[simp] theorem error_bind {α β : Type} (e : Fault) (f : α → Except Fault β) :
    (Except.error e >>= f) = Except.error e := rfl

theorem bind_ok {α β : Type} {x : Except Fault α} {f : α → Except Fault β} {b : β}
    (h : x >>= f = .ok b) : ∃ a, x = .ok a ∧ f a = .ok b := by
  cases x with
  | error e => cases h
  | ok a => exact ⟨a, rfl, h⟩

theorem bind_error {α β : Type} {x : Except Fault α} {f : α → Except Fault β} {e : Fault}
    (h : x >>= f = .error e) : x = .error e ∨ ∃ a, x = .ok a ∧ f a = .error e := by
  cases x with
  | error e' =>
    cases h
    exact .inl rfl
  | ok a => exact .inr ⟨a, rfl, h⟩

end YQuant
