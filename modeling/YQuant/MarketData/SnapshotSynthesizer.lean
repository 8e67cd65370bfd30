/-
# The publisher and the snapshot synthesizer

`exchange/market_data/market_data_publisher.cc` numbers the engine's updates and hands each to the
incremental channel and to the synthesizer.  `snapshot_synthesizer.cc` keeps a copy of every live
order, found by symbol and order id, and publishes all of them as a snapshot cycle: a start message
with the number of the last update it has seen, a clear and the orders of each symbol by ascending
id, and an end message with the same number.

Sequence numbers are unbounded here; logging and the timer that starts a cycle are left out.

`ADD`, `MODIFY` and `CANCEL` check what they find in the table, and end the process if it is not
what they expect; the checks are in the model with their texts.  An id past the table is an
exception, and so is a symbol.  An update of any other type changes nothing but the number of the
last update seen.

A cycle is computed from the state alone, so when it is made does not matter, only after which
updates: `cycleAfter` is the cycle after a part of the stream, and results about clients let cycles
be made at any places.
-/
import YQuant.Lib.Run
import YQuant.MemPool

namespace YQuant

/-! ## 1. Messages as text -/

def marketUpdateTypeToString : MarketUpdateType → String
  | .invalid => "INVALID"
  | .clear => "CLEAR"
  | .add => "ADD"
  | .modify => "MODIFY"
  | .cancel => "CANCEL"
  | .trade => "TRADE"
  | .snapshotStart => "SNAPSHOT_START"
  | .snapshotEnd => "SNAPSHOT_END"
  | .other _ => "UNKNOWN"

/-- `static_cast<unsigned>(side)`. -/
def Side.code : Side → Nat
  | .unset => 0
  | .buy => 1
  | .sell => 2
  | .other code => code.toNat

def MatchingEngineMarketUpdate.toString (u : MatchingEngineMarketUpdate) : String :=
  "MatchingEngineMarketUpdate [type:" ++ marketUpdateTypeToString u.type ++
    " symbol:" ++ ToString.toString u.symbolId ++ " orderId:" ++ ToString.toString u.orderId ++
    " side:" ++ ToString.toString u.side.code ++ " price:" ++ ToString.toString u.price ++
    " quantity:" ++ ToString.toString u.quantity ++
    " priority: " ++ ToString.toString u.priority ++ "]"

/-! ## 2. The publisher -/

/-- `MarketDataPublisher`: the two channels are the lists of what was sent on them. -/
structure MarketDataPublisher where
  nextIncSeqNum : Nat
  incremental : List MarketDataPublisherMarketUpdate
  snapshotMdUpdates : List MarketDataPublisherMarketUpdate

namespace MarketDataPublisher

def init : MarketDataPublisher := ⟨1, [], []⟩

/-- The body of the loop of `run` for one update. -/
def publish (p : MarketDataPublisher) (u : MatchingEngineMarketUpdate) : MarketDataPublisher where
  nextIncSeqNum := p.nextIncSeqNum + 1
  incremental := p.incremental ++ [⟨p.nextIncSeqNum, u⟩]
  snapshotMdUpdates := p.snapshotMdUpdates ++ [⟨p.nextIncSeqNum, u⟩]

def run (updates : List MatchingEngineMarketUpdate) : MarketDataPublisher :=
  updates.foldl publish init

end MarketDataPublisher

/-- Updates with consecutive numbers. -/
def numbered : Nat → List MatchingEngineMarketUpdate → List MarketDataPublisherMarketUpdate
  | _, [] => []
  | n, u :: us => ⟨n, u⟩ :: numbered (n + 1) us

theorem foldl_publish {us : List MatchingEngineMarketUpdate} : ∀ p : MarketDataPublisher,
    us.foldl MarketDataPublisher.publish p = ⟨p.nextIncSeqNum + us.length,
      p.incremental ++ numbered p.nextIncSeqNum us,
      p.snapshotMdUpdates ++ numbered p.nextIncSeqNum us⟩ := by
  induction us with
  | nil => intro p; simp [numbered]
  | cons u us ih =>
    intro p
    rw [List.foldl_cons, ih]
    simp [MarketDataPublisher.publish, numbered, Nat.add_assoc, Nat.add_comm 1]

/-- Both channels carry the updates numbered from one. -/
theorem run_publish (us : List MatchingEngineMarketUpdate) :
    (MarketDataPublisher.run us).incremental = numbered 1 us ∧
      (MarketDataPublisher.run us).snapshotMdUpdates = numbered 1 us := by
  rw [MarketDataPublisher.run, foldl_publish]
  exact ⟨rfl, rfl⟩

theorem numbered_append {us vs : List MatchingEngineMarketUpdate} :
    ∀ {n : Nat}, numbered n (us ++ vs) = numbered n us ++ numbered (n + us.length) vs := by
  induction us with
  | nil => intro n; rfl
  | cons u us ih =>
    intro n
    rw [List.cons_append, numbered, ih, numbered, List.cons_append, List.length_cons]
    congr 3
    omega

theorem length_numbered {us : List MatchingEngineMarketUpdate} :
    ∀ {n : Nat}, (numbered n us).length = us.length := by
  induction us with
  | nil => intro n; rfl
  | cons u us ih => intro n; rw [numbered, List.length_cons, ih, List.length_cons]

theorem getElem?_numbered {us : List MatchingEngineMarketUpdate} {i : Nat} :
    ∀ {n : Nat}, (numbered n us)[i]? = us[i]?.map fun u => ⟨(n + i : Nat), u⟩ := by
  induction us generalizing i with
  | nil => intro n; rfl
  | cons u us ih =>
    intro n
    cases i with
    | zero => rfl
    | succ i =>
      rw [numbered, List.getElem?_cons_succ, List.getElem?_cons_succ, ih,
        show n + 1 + i = n + (i + 1) by omega]

theorem map_update_numbered {us : List MatchingEngineMarketUpdate} :
    ∀ n, (numbered n us).map (·.update) = us := by
  induction us with
  | nil => exact fun _ => rfl
  | cons u us ih => exact fun n => by rw [numbered, List.map_cons, ih]

/-! ## 3. The synthesizer -/

structure SnapshotSynthesizer where
  symbolOrders : Nat → Nat → Option Nat
  lastIncSeqNum : Nat
  orderPool : MemPool MatchingEngineMarketUpdate

namespace SnapshotSynthesizer

def init : SnapshotSynthesizer := ⟨fun _ _ => none, 0, .init kMaxOrderIds⟩

/-- `symbol_orders_.at(symbolId).at(orderId)`, where the symbol has been looked up before. -/
def orderAt (s : SnapshotSynthesizer) (symbolId orderId : Nat) : Except Fault (Option Nat) :=
  if orderId < kMaxOrderIds then .ok (s.symbolOrders symbolId orderId) else .error .outOfRange

/-- The same, assigned to. -/
def setOrder (s : SnapshotSynthesizer) (symbolId orderId : Nat) (order : Option Nat) :
    SnapshotSynthesizer :=
  let orders := Function.update (s.symbolOrders symbolId) orderId order
  { s with symbolOrders := Function.update s.symbolOrders symbolId orders }

/-- `order ? order->toString() : ""`. -/
def describe (s : SnapshotSynthesizer) (order : Option Nat) : Except Fault String :=
  match order with
  | none => .ok ""
  | some a => do
    let o ← s.orderPool.deref (some a)
    .ok o.toString

/-- `ADD`. -/
def addOrder (s : SnapshotSynthesizer) (u : MatchingEngineMarketUpdate) :
    Except Fault SnapshotSynthesizer := do
  let order ← s.orderAt u.symbolId u.orderId
  let text ← s.describe order
  assertThat order.isNone ("Received:" ++ u.toString ++ " but order already exists:" ++ text)
  let (a, pool) ← s.orderPool.allocate u
  .ok ({ s with orderPool := pool }.setOrder u.symbolId u.orderId (some a))

/-- The checks that `MODIFY` and `CANCEL` make of the order they name. -/
def checkOrder (s : SnapshotSynthesizer) (u : MatchingEngineMarketUpdate) (order : Option Nat) :
    Except Fault Unit := do
  assertThat order.isSome ("Received:" ++ u.toString ++ " but order does not exist.")
  let o ← s.orderPool.deref order
  assertThat (decide (o.orderId = u.orderId)) "Expecting existing order to match new one."
  assertThat (decide (o.side = u.side)) "Expecting existing order to match new one."

/-- `MODIFY`. -/
def modifyOrder (s : SnapshotSynthesizer) (u : MatchingEngineMarketUpdate) :
    Except Fault SnapshotSynthesizer := do
  let order ← s.orderAt u.symbolId u.orderId
  s.checkOrder u order
  let pool ← s.orderPool.modify order ({ · with quantity := u.quantity, price := u.price })
  .ok { s with orderPool := pool }

/-- `CANCEL`. -/
def cancelOrder (s : SnapshotSynthesizer) (u : MatchingEngineMarketUpdate) :
    Except Fault SnapshotSynthesizer := do
  let order ← s.orderAt u.symbolId u.orderId
  s.checkOrder u order
  let pool ← s.orderPool.release order
  .ok ({ s with orderPool := pool }.setOrder u.symbolId u.orderId none)

/-- The switch of `AddtoSnapshot`. -/
def applyUpdate (s : SnapshotSynthesizer) (u : MatchingEngineMarketUpdate) :
    Except Fault SnapshotSynthesizer :=
  match u.type with
  | .add => s.addOrder u
  | .modify => s.modifyOrder u
  | .cancel => s.cancelOrder u
  | .snapshotStart | .clear | .snapshotEnd | .trade | .invalid | .other _ => .ok s

/-- `AddtoSnapshot`. -/
def addToSnapshot (s : SnapshotSynthesizer) (u : MarketDataPublisherMarketUpdate) :
    Except Fault SnapshotSynthesizer := do
  if u.update.symbolId < kMaxSymbols then
    let s ← s.applyUpdate u.update
    assertThat (decide (u.seqNum = s.lastIncSeqNum + 1))
      "Expected incremental seq_nums to increase."
    .ok { s with lastIncSeqNum := u.seqNum.toNat }
  else .error .outOfRange

/-! ## 4. A snapshot cycle -/

/-- The first and the last message: the order id is the number of the last update seen. -/
def boundary (s : SnapshotSynthesizer) (type : MarketUpdateType) : MatchingEngineMarketUpdate :=
  ⟨type, 0, s.lastIncSeqNum, .unset, 0, 0, 0⟩

/-- The clear and the orders of one symbol. -/
def symbolMessages (s : SnapshotSynthesizer) (symbolId : Nat) :
    Except Fault (List MatchingEngineMarketUpdate) := do
  let orders ← ((List.range kMaxOrderIds).filterMap (s.symbolOrders symbolId)).mapM
    fun a => s.orderPool.deref (some a)
  .ok (⟨.clear, symbolId, 0, .unset, 0, 0, 0⟩ :: orders)

/-- `PublishSnapshot`: the messages of one cycle, numbered from zero. -/
def publishSnapshot (s : SnapshotSynthesizer) :
    Except Fault (List MarketDataPublisherMarketUpdate) := do
  let symbols ← (List.range kMaxSymbols).mapM s.symbolMessages
  .ok (numbered 0 (s.boundary .snapshotStart :: symbols.flatten ++ [s.boundary .snapshotEnd]))

/-- The cycle that is published once these updates, and no others, have been added. -/
def cycleAfter (updates : List MarketDataPublisherMarketUpdate) :
    Except Fault (List MarketDataPublisherMarketUpdate) := do
  let s ← updates.foldlM addToSnapshot init
  s.publishSnapshot

/-! ## 5. What a cycle is made of -/

section Cycle

variable {s s' : SnapshotSynthesizer}

/-- An update leaves copies of `ADD` messages where there were only such. -/
theorem addToSnapshot_adds (h : s.orderPool.All (·.type = .add))
    {u : MarketDataPublisherMarketUpdate} (hstep : s.addToSnapshot u = .ok s') :
    s'.orderPool.All (·.type = .add) := by
  have happly : ∀ {s₁ : SnapshotSynthesizer}, s.applyUpdate u.update = .ok s₁ →
      s₁.orderPool.All (·.type = .add) := by
    intro s₁ h₁
    unfold applyUpdate at h₁
    split at h₁
    · next htype =>
      obtain ⟨order, -, h₁⟩ := bind_ok h₁
      obtain ⟨text, -, h₁⟩ := bind_ok h₁
      obtain ⟨-, -, h₁⟩ := bind_ok h₁
      obtain ⟨⟨a, pool⟩, halloc, h₁⟩ := bind_ok h₁
      cases h₁
      exact h.allocate htype halloc
    · obtain ⟨order, -, h₁⟩ := bind_ok h₁
      obtain ⟨-, -, h₁⟩ := bind_ok h₁
      obtain ⟨pool, hmodify, h₁⟩ := bind_ok h₁
      cases h₁
      have hkeeps : ∀ v : MatchingEngineMarketUpdate, v.type = .add →
          { v with quantity := u.update.quantity, price := u.update.price }.type = .add :=
        fun _ hv => hv
      exact h.modify hkeeps hmodify
    · obtain ⟨order, -, h₁⟩ := bind_ok h₁
      obtain ⟨-, -, h₁⟩ := bind_ok h₁
      obtain ⟨pool, hrelease, h₁⟩ := bind_ok h₁
      cases h₁
      exact h.release hrelease
    all_goals
      cases h₁
      exact h
  unfold addToSnapshot at hstep
  split at hstep
  · obtain ⟨s₁, h₁, hstep⟩ := bind_ok hstep
    obtain ⟨-, -, hstep⟩ := bind_ok hstep
    have hs₁ := happly h₁
    rw [← Except.ok.inj hstep]
    exact hs₁
  · cases hstep

/-- **A cycle of a reachable synthesizer**: `CLEAR` and `ADD` messages between a first and a last
one that name the same update. -/
theorem publishSnapshot_cycle {updates cycle : List MarketDataPublisherMarketUpdate}
    (hrun : updates.foldlM addToSnapshot init = .ok s) (hcycle : s.publishSnapshot = .ok cycle) :
    ∃ body, (∀ u ∈ body, u.type = .clear ∨ u.type = .add) ∧
      cycle = numbered 0 (s.boundary .snapshotStart :: body ++ [s.boundary .snapshotEnd]) := by
  have hadds : s.orderPool.All (·.type = .add) :=
    Run.foldlM_inv (I := fun s => s.orderPool.All (·.type = .add))
      (fun _ _ _ h (_ : True) hstep => addToSnapshot_adds h hstep) (MemPool.All.init _)
      (fun _ _ => trivial) hrun
  obtain ⟨symbols, hsymbols, hcycle⟩ := bind_ok hcycle
  refine ⟨symbols.flatten, fun u hu => ?_, (Except.ok.inj hcycle).symm⟩
  obtain ⟨messages, hmessages, hu⟩ := List.mem_flatten.mp hu
  refine Run.forall_of_mapM_ok
    (P := fun messages => ∀ u ∈ messages, u.type = .clear ∨ u.type = .add)
    hsymbols (fun symbol _ messages hsymbol u hu => ?_) messages hmessages u hu
  obtain ⟨orders, horders, hsymbol⟩ := bind_ok hsymbol
  cases hsymbol
  rcases List.mem_cons.mp hu with rfl | hu
  · exact .inl rfl
  · exact .inr (Run.forall_of_mapM_ok (P := fun u => u.type = .add) horders
      (fun a _ o ho => hadds.deref ho) u hu)

end Cycle

end SnapshotSynthesizer

end YQuant
