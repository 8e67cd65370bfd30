/-
# The records on the connection between a client and the order server

`exchange/order_manager/client_request.h` and `client_response.h`: the packed structures as they lie
in memory (`#pragma pack(1)`, little-endian), each behind a sequence number of eight bytes.

A structure read from the network can hold any bytes; one that was built in memory is read back as
it was written when its fields fit their types (`InRange`).

Each codec is the sequence of the fields as the source declares them, and nothing is aligned or
padded.  The size of a record is then a sum over its fields; the receivers of both sides compare
what they have with it.  An enumeration has a value for every byte (`Types.lean`), so what a client
sends is read as a request of some type and side whatever it is, and the checks come afterwards.

`InRange.representable` is the only fact about the fields that others use: it takes the widths
once, and from there on records are read back by `Codec.frames_encodeAll`.
-/
import YQuant.Lib.Codec
import YQuant.Types

namespace YQuant

/-! ## 1. Enumerations -/

def Side.toByte : Side → UInt8
  | .unset => 0
  | .buy => 1
  | .sell => 2
  | .other code => code

def Side.ofByte (b : UInt8) : Side :=
  if b = 0 then .unset else if b = 1 then .buy else if b = 2 then .sell else .other b

def ClientRequestType.toByte : ClientRequestType → UInt8
  | .invaild => 0
  | .new => 1
  | .canceled => 2
  | .other code => code

def ClientRequestType.ofByte (b : UInt8) : ClientRequestType :=
  if b = 0 then .invaild else if b = 1 then .new else if b = 2 then .canceled else .other b

def ClientResponseType.toByte : ClientResponseType → UInt8
  | .invalid => 0
  | .accepted => 1
  | .canceled => 2
  | .filled => 3
  | .cancelRejected => 4
  | .other code => code

def ClientResponseType.ofByte (b : UInt8) : ClientResponseType :=
  if b = 0 then .invalid else if b = 1 then .accepted else if b = 2 then .canceled
  else if b = 3 then .filled else if b = 4 then .cancelRejected else .other b

/-! ## 2. Requests -/

/-- The structure a client sends: a request behind its number. -/
structure OrderManagerClientRequest where
  seqNum : Nat
  matchingEngineClientRequest : MatchingEngineClientRequest
deriving DecidableEq, Repr

/-- A number that `size_t` holds, in the memory of the process. -/
def sizeCodec : Codec Nat := .unsigned 8

/-- `MatchingEngineClientRequest`: `type_`, `clientId_`, `symbolId_`, `orderId_`, `side_`, `price_`,
`quantity_`. -/
def clientRequestCodec : Codec MatchingEngineClientRequest :=
  ((Codec.enum ClientRequestType.toByte .ofByte).pair <| (Codec.unsigned 4).pair <|
    (Codec.unsigned 4).pair <| (Codec.unsigned 8).pair <| (Codec.enum Side.toByte .ofByte).pair <|
    (Codec.signed 8).pair <| Codec.unsigned 4).iso
    (fun ⟨type, clientId, symbolId, orderId, side, price, quantity⟩ =>
      ⟨type, clientId, symbolId, orderId, side, price, quantity⟩)
    fun r => (r.type, r.clientId, r.symbolId, r.orderId, r.side, r.price, r.quantity)

def orderManagerClientRequestCodec : Codec OrderManagerClientRequest :=
  (sizeCodec.pair clientRequestCodec).iso (fun x => ⟨x.1, x.2⟩)
    fun r => (r.seqNum, r.matchingEngineClientRequest)

/-- Every field of a request fits its type. -/
structure MatchingEngineClientRequest.InRange (r : MatchingEngineClientRequest) : Prop where
  type : ClientRequestType.ofByte r.type.toByte = r.type
  clientId : r.clientId < kWord32
  symbolId : r.symbolId < kWord32
  orderId : r.orderId < kWord64
  side : Side.ofByte r.side.toByte = r.side
  price : Int.bmod r.price kWord64 = r.price
  quantity : r.quantity < kWord32

instance (r : MatchingEngineClientRequest) : Decidable r.InRange :=
  decidable_of_iff (ClientRequestType.ofByte r.type.toByte = r.type ∧ r.clientId < kWord32 ∧
      r.symbolId < kWord32 ∧ r.orderId < kWord64 ∧ Side.ofByte r.side.toByte = r.side ∧
      Int.bmod r.price kWord64 = r.price ∧ r.quantity < kWord32)
    ⟨fun ⟨a, b, c, d, e, f, g⟩ => ⟨a, b, c, d, e, f, g⟩,
      fun ⟨a, b, c, d, e, f, g⟩ => ⟨a, b, c, d, e, f, g⟩⟩

example : orderManagerClientRequestCodec.size = 38 := rfl

theorem MatchingEngineClientRequest.InRange.representable {r : MatchingEngineClientRequest}
    (h : r.InRange) {n : Nat} (hn : n < kWord64) :
    orderManagerClientRequestCodec.Representable ⟨n, r⟩ := by
  refine Codec.representable_iso rfl (Codec.representable_pair (Codec.representable_unsigned hn)
    (Codec.representable_iso rfl ?_))
  exact Codec.representable_pair (Codec.representable_enum h.type) <|
    Codec.representable_pair (Codec.representable_unsigned h.clientId) <|
    Codec.representable_pair (Codec.representable_unsigned h.symbolId) <|
    Codec.representable_pair (Codec.representable_unsigned h.orderId) <|
    Codec.representable_pair (Codec.representable_enum h.side) <|
    Codec.representable_pair (Codec.representable_signed h.price)
      (Codec.representable_unsigned h.quantity)

/-! ## 3. Responses -/

/-- The structure the order server sends: a response behind its number. -/
structure OrderManagerClientResponse where
  seqNum : Nat
  matchingEngineClientResponse : MatchingEngineClientResponse
deriving DecidableEq, Repr

/-- `MatchingEngineClientResponse`: `type_`, `client_id_`, `symbol_id_`, `client_order_id_`,
`market_order_id_`, `side_`, `price_`, `executed_quantity_`, `remaining_quantity_`. -/
def clientResponseCodec : Codec MatchingEngineClientResponse :=
  ((Codec.enum ClientResponseType.toByte .ofByte).pair <| (Codec.unsigned 4).pair <|
    (Codec.unsigned 4).pair <| (Codec.unsigned 8).pair <| (Codec.unsigned 8).pair <|
    (Codec.enum Side.toByte .ofByte).pair <| (Codec.signed 8).pair <| (Codec.unsigned 4).pair <|
    Codec.unsigned 4).iso
    (fun ⟨type, clientId, symbolId, clientOrderId, marketOrderId, side, price, executedQuantity,
        remainingQuantity⟩ =>
      ⟨type, clientId, symbolId, clientOrderId, marketOrderId, side, price, executedQuantity,
        remainingQuantity⟩)
    fun r => (r.type, r.clientId, r.symbolId, r.clientOrderId, r.marketOrderId, r.side, r.price,
      r.executedQuantity, r.remainingQuantity)

def orderManagerClientResponseCodec : Codec OrderManagerClientResponse :=
  (sizeCodec.pair clientResponseCodec).iso (fun x => ⟨x.1, x.2⟩)
    fun r => (r.seqNum, r.matchingEngineClientResponse)

/-- Every field of a response fits its type. -/
structure MatchingEngineClientResponse.InRange (r : MatchingEngineClientResponse) : Prop where
  type : ClientResponseType.ofByte r.type.toByte = r.type
  clientId : r.clientId < kWord32
  symbolId : r.symbolId < kWord32
  clientOrderId : r.clientOrderId < kWord64
  marketOrderId : r.marketOrderId < kWord64
  side : Side.ofByte r.side.toByte = r.side
  price : Int.bmod r.price kWord64 = r.price
  executedQuantity : r.executedQuantity < kWord32
  remainingQuantity : r.remainingQuantity < kWord32

instance (r : MatchingEngineClientResponse) : Decidable r.InRange :=
  decidable_of_iff (ClientResponseType.ofByte r.type.toByte = r.type ∧ r.clientId < kWord32 ∧
      r.symbolId < kWord32 ∧ r.clientOrderId < kWord64 ∧ r.marketOrderId < kWord64 ∧
      Side.ofByte r.side.toByte = r.side ∧ Int.bmod r.price kWord64 = r.price ∧
      r.executedQuantity < kWord32 ∧ r.remainingQuantity < kWord32)
    ⟨fun ⟨a, b, c, d, e, f, g, h, i⟩ => ⟨a, b, c, d, e, f, g, h, i⟩,
      fun ⟨a, b, c, d, e, f, g, h, i⟩ => ⟨a, b, c, d, e, f, g, h, i⟩⟩

example : orderManagerClientResponseCodec.size = 50 := rfl

theorem MatchingEngineClientResponse.InRange.representable {r : MatchingEngineClientResponse}
    (h : r.InRange) {n : Nat} (hn : n < kWord64) :
    orderManagerClientResponseCodec.Representable ⟨n, r⟩ := by
  refine Codec.representable_iso rfl (Codec.representable_pair (Codec.representable_unsigned hn)
    (Codec.representable_iso rfl ?_))
  exact Codec.representable_pair (Codec.representable_enum h.type) <|
    Codec.representable_pair (Codec.representable_unsigned h.clientId) <|
    Codec.representable_pair (Codec.representable_unsigned h.symbolId) <|
    Codec.representable_pair (Codec.representable_unsigned h.clientOrderId) <|
    Codec.representable_pair (Codec.representable_unsigned h.marketOrderId) <|
    Codec.representable_pair (Codec.representable_enum h.side) <|
    Codec.representable_pair (Codec.representable_signed h.price) <|
    Codec.representable_pair (Codec.representable_unsigned h.executedQuantity)
      (Codec.representable_unsigned h.remainingQuantity)

end YQuant
