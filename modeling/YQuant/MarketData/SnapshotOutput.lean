/-
# What the synthesizer sends

`SnapshotSynthesizer::PublishSnapshot` copies every message of a cycle into the send buffer of its
socket as it makes it, and calls `sendAndRecv` behind every order and at the end.  So a datagram
carries one order at most, with the messages before it that are about no order
(`snapshotDatagrams`), and there are few of those: whatever the books hold, every datagram of a
cycle arrives whole (`cycle_arrives`).

The publisher does not flush like this, and its datagrams may grow too long
(`PublisherOutput.lean`).

How many marks can wait is bounded by the number of symbols: a symbol without orders leaves its
clear behind, and only the start comes before the first of them.  So a datagram has
`kMaxSymbols + 3` messages at most, which is less than a hundredth of what UDP takes, and the
socket's own check of its buffer cannot fail either.

The calls are compared with those of a list of messages (`publishSnapshot_eq`), so what is sent is
the cycle, cut behind every order.  What is not promised is that all datagrams of a cycle arrive,
or any.
-/
import YQuant.MarketData.PublisherOutput
import YQuant.MarketData.SnapshotMirror

namespace YQuant

/-! ## 1. The datagrams of a cycle -/

/-- The datagrams of a cycle: the socket is flushed behind every order and at the end. -/
def snapshotDatagrams : List MarketDataPublisherMarketUpdate →
    List (List MarketDataPublisherMarketUpdate)
  | [] => []
  | r :: rs =>
    match snapshotDatagrams rs with
    | [] => [[r]]
    | d :: ds => if r.update.type = .add then [r] :: d :: ds else (r :: d) :: ds

theorem flatten_snapshotDatagrams (rs : List MarketDataPublisherMarketUpdate) :
    (snapshotDatagrams rs).flatten = rs := by
  induction rs with
  | nil => rfl
  | cons r rs ih =>
    rw [snapshotDatagrams]
    cases hds : snapshotDatagrams rs with
    | nil =>
      rw [hds] at ih
      rw [← ih]
      rfl
    | cons d ds =>
      rw [hds] at ih
      dsimp only
      split
      · rw [List.flatten_cons, ih, List.singleton_append]
      · rw [List.flatten_cons, List.cons_append, ← List.flatten_cons, ih]

/-- The message is about no order. -/
def MarketDataPublisherMarketUpdate.IsMark (r : MarketDataPublisherMarketUpdate) : Bool :=
  decide (r.update.type ≠ .add)

section Datagrams

variable {r : MarketDataPublisherMarketUpdate} {rs marks : List MarketDataPublisherMarketUpdate}

/-- Messages about no order wait for the next flush. -/
theorem snapshotDatagrams_marks (hmarks : ∀ m ∈ marks, m.IsMark) (hne : marks ≠ []) :
    snapshotDatagrams marks = [marks] := by
  induction marks with
  | nil => exact absurd rfl hne
  | cons m marks ih =>
    have hm := of_decide_eq_true (hmarks m List.mem_cons_self)
    cases marks with
    | nil => rfl
    | cons m' marks =>
      have hrest := ih (fun x hx => hmarks x (List.mem_cons_of_mem _ hx)) (List.cons_ne_nil _ _)
      rw [snapshotDatagrams, hrest]
      exact if_neg hm

/-- An order closes the datagram. -/
theorem snapshotDatagrams_order (hmarks : ∀ m ∈ marks, m.IsMark) (hr : r.update.type = .add) :
    snapshotDatagrams (marks ++ r :: rs) = (marks ++ [r]) :: snapshotDatagrams rs := by
  induction marks with
  | nil =>
    rw [List.nil_append, List.nil_append, snapshotDatagrams]
    cases snapshotDatagrams rs with
    | nil => rfl
    | cons d ds => exact if_pos hr
  | cons m marks ih =>
    have hm := of_decide_eq_true (hmarks m List.mem_cons_self)
    rw [List.cons_append, snapshotDatagrams, ih fun x hx => hmarks x (List.mem_cons_of_mem _ hx)]
    exact if_neg hm

/-- A datagram has one order at most. -/
theorem length_snapshotDatagram : ∀ rs : List MarketDataPublisherMarketUpdate,
    ∀ d ∈ snapshotDatagrams rs, d.length ≤ rs.countP (·.IsMark) + 1
  | [], d, hd => absurd hd List.not_mem_nil
  | r :: rs, d, hd => by
    have hle : rs.countP (·.IsMark) ≤ (r :: rs).countP (·.IsMark) := by
      rw [List.countP_cons]
      exact Nat.le_add_right _ _
    have hrest := fun d' hd' => (length_snapshotDatagram rs d' hd').trans (Nat.succ_le_succ hle)
    have hone : 1 ≤ (r :: rs).countP (·.IsMark) + 1 := Nat.le_add_left _ _
    rw [snapshotDatagrams] at hd
    cases hds : snapshotDatagrams rs with
    | nil =>
      rw [hds] at hd
      rw [List.mem_singleton.mp hd]
      exact hone
    | cons d' ds =>
      rw [hds] at hd hrest
      dsimp only at hd
      split at hd
      · rcases List.mem_cons.mp hd with rfl | hd
        · exact hone
        · exact hrest d hd
      · next hr =>
        rcases List.mem_cons.mp hd with rfl | hd
        · have hlen := length_snapshotDatagram rs d' (hds ▸ List.mem_cons_self)
          have hmark : r.IsMark = true := decide_eq_true hr
          have hcount : (r :: rs).countP (·.IsMark) = rs.countP (·.IsMark) + 1 :=
            List.countP_cons_of_pos hmark
          rw [List.length_cons, hcount]
          exact Nat.succ_le_succ hlen
        · exact hrest d (List.mem_cons_of_mem _ hd)

end Datagrams

/-! ## 2. The snapshot socket -/

/-- The snapshot socket, and the buffers handed to `::send`. -/
structure SnapshotOutput where
  snapshotSocket : McastSocket
  sent : List (List UInt8)

namespace SnapshotOutput

/-- `snapshot_socket_.send` of a message. -/
def send (out : SnapshotOutput) (r : MarketDataPublisherMarketUpdate) :
    Except Fault SnapshotOutput := do
  let socket ← out.snapshotSocket.send r.bytes
  .ok { out with snapshotSocket := socket }

def sendAndRecv (out : SnapshotOutput) : SnapshotOutput :=
  let (socket, data) := out.snapshotSocket.sendAndRecv
  ⟨socket, out.sent ++ data.toList⟩

/-- An order of a symbol, behind `snapshotSize` messages. -/
def sendOrder (s : SnapshotSynthesizer) : Nat × SnapshotOutput → Nat →
    Except Fault (Nat × SnapshotOutput)
  | (snapshotSize, out), order => do
    let order ← s.orderPool.deref (some order)
    let out ← out.send ⟨snapshotSize, order⟩
    .ok (snapshotSize + 1, out.sendAndRecv)

/-- The clear and the orders of a symbol. -/
def sendSymbol (s : SnapshotSynthesizer) : Nat × SnapshotOutput → Nat →
    Except Fault (Nat × SnapshotOutput)
  | (snapshotSize, out), symbolId => do
    let out ← out.send ⟨snapshotSize, ⟨.clear, symbolId, 0, .unset, 0, 0, 0⟩⟩
    ((List.range kMaxOrderIds).filterMap (s.symbolOrders symbolId)).foldlM (sendOrder s)
      (snapshotSize + 1, out)

/-- `PublishSnapshot`, with the socket calls. -/
def publishSnapshot (out : SnapshotOutput) (s : SnapshotSynthesizer) :
    Except Fault SnapshotOutput := do
  let out ← out.send ⟨0, s.boundary .snapshotStart⟩
  let (snapshotSize, out) ← (List.range kMaxSymbols).foldlM (sendSymbol s) (1, out)
  let out ← out.send ⟨snapshotSize, s.boundary .snapshotEnd⟩
  .ok out.sendAndRecv

/-- The socket calls of a message, by its type. -/
def sendMessage (out : SnapshotOutput) (r : MarketDataPublisherMarketUpdate) :
    Except Fault SnapshotOutput := do
  let out ← out.send r
  .ok (if r.IsMark then out else out.sendAndRecv)

/-! ## 3. The calls of a cycle are those of its messages -/

section Cycle

variable {s : SnapshotSynthesizer} {n : Nat} {out : SnapshotOutput}

theorem sendMessage_mark {r : MarketDataPublisherMarketUpdate} (hr : r.IsMark) :
    out.sendMessage r = out.send r := by
  rw [sendMessage]
  cases out.send r with
  | error e => rfl
  | ok out' => exact congrArg Except.ok (if_pos hr)

theorem sendOrders_eq {orders : List Nat} : ∀ {messages : List MatchingEngineMarketUpdate} {n : Nat}
    {out : SnapshotOutput}, orders.mapM (fun a => s.orderPool.deref (some a)) = .ok messages →
    (∀ u ∈ messages, u.type = .add) →
      orders.foldlM (sendOrder s) (n, out) = ((numbered n messages).foldlM sendMessage out >>=
        fun out => .ok (n + messages.length, out)) := by
  induction orders with
  | nil =>
    intro messages n out h _
    obtain rfl : [] = messages := Except.ok.inj h
    rfl
  | cons a orders ih =>
    intro messages n out h hadd
    rw [List.mapM_cons] at h
    obtain ⟨u, hu, h⟩ := bind_ok h
    obtain ⟨us, hus, h⟩ := bind_ok h
    obtain rfl : u :: us = messages := Except.ok.inj h
    have htype := hadd u List.mem_cons_self
    have hrest (out : SnapshotOutput) := @ih us (n + 1) out hus fun v hv =>
      hadd v (List.mem_cons_of_mem _ hv)
    rw [List.foldlM_cons, numbered, List.foldlM_cons, sendOrder, hu, ok_bind, sendMessage]
    cases out.send ⟨n, u⟩ with
    | error e => rfl
    | ok out' =>
      have horder : (MarketDataPublisherMarketUpdate.mk n u).IsMark = false :=
        decide_eq_false (not_not_intro htype)
      simp only [ok_bind, horder, Bool.false_eq_true, if_false]
      rw [hrest, List.length_cons, Nat.add_assoc, Nat.add_comm 1]

/-- Orders are no marks. -/
theorem countP_orders {orders : List MatchingEngineMarketUpdate} (h : ∀ u ∈ orders, u.type = .add) :
    ∀ n, (numbered n orders).countP (·.IsMark) = 0 := by
  induction orders with
  | nil => exact fun _ => rfl
  | cons u us ih =>
    intro n
    have horder : ¬ (MarketDataPublisherMarketUpdate.mk n u).IsMark = true := by
      simp [MarketDataPublisherMarketUpdate.IsMark, h u List.mem_cons_self]
    rw [numbered, List.countP_cons_of_neg horder, ih fun v hv => h v (List.mem_cons_of_mem u hv)]

/-- **A symbol of a cycle**: its clear is the only mark. -/
theorem sendSymbol_eq (n : Nat) (out : SnapshotOutput) (hadds : s.orderPool.All (·.type = .add))
    {symbol : Nat} {messages : List MatchingEngineMarketUpdate}
    (h : s.symbolMessages symbol = .ok messages) :
    sendSymbol s (n, out) symbol = ((numbered n messages).foldlM sendMessage out >>= fun out =>
      .ok (n + messages.length, out)) ∧ (numbered n messages).countP (·.IsMark) = 1 := by
  obtain ⟨orders, horders, h⟩ := bind_ok h
  obtain rfl := Except.ok.inj h
  have htypes : ∀ u ∈ orders, u.type = .add :=
    Run.forall_of_mapM_ok (P := fun u => u.type = .add) horders fun a _ o ho => hadds.deref ho
  let mark : MarketDataPublisherMarketUpdate := ⟨n, ⟨.clear, symbol, 0, .unset, 0, 0, 0⟩⟩
  have hmark : mark.IsMark = true := rfl
  constructor
  · rw [sendSymbol, numbered, List.foldlM_cons, sendMessage_mark hmark, bind_assoc]
    refine congrArg (out.send mark >>= ·) (funext fun out₁ => ?_)
    rw [sendOrders_eq horders htypes, List.length_cons, Nat.add_assoc, Nat.add_comm 1]
  · rw [numbered, List.countP_cons_of_pos hmark, countP_orders htypes]

/-- The symbols of a cycle. -/
theorem sendSymbols_eq (hadds : s.orderPool.All (·.type = .add)) {symbols : List Nat} :
    ∀ (n : Nat) (out : SnapshotOutput) {messages : List (List MatchingEngineMarketUpdate)},
    symbols.mapM s.symbolMessages = .ok messages →
      symbols.foldlM (sendSymbol s) (n, out) =
        ((numbered n messages.flatten).foldlM sendMessage out >>= fun out =>
          .ok (n + messages.flatten.length, out)) ∧
      (numbered n messages.flatten).countP (·.IsMark) = symbols.length := by
  induction symbols with
  | nil =>
    intro n out messages h
    obtain rfl : [] = messages := Except.ok.inj h
    exact ⟨rfl, rfl⟩
  | cons symbol symbols ih =>
    intro n out messages h
    rw [List.mapM_cons] at h
    obtain ⟨us, hus, h⟩ := bind_ok h
    obtain ⟨uss, huss, h⟩ := bind_ok h
    obtain rfl : us :: uss = messages := Except.ok.inj h
    obtain ⟨hfirst, hone⟩ := sendSymbol_eq n out hadds hus
    rw [List.flatten_cons, numbered_append, List.length_append]
    constructor
    · rw [List.foldlM_cons, hfirst, List.foldlM_append, bind_assoc, bind_assoc]
      refine congrArg ((numbered n us).foldlM sendMessage out >>= ·) (funext fun out₁ => ?_)
      rw [ok_bind, (ih _ _ huss).1, Nat.add_assoc]
    · rw [List.countP_append, hone, (ih _ out huss).2, List.length_cons, Nat.add_comm]

/-- **The calls of a cycle** are those of its messages and the flush at the end. -/
theorem publishSnapshot_eq (out : SnapshotOutput) (hadds : s.orderPool.All (·.type = .add))
    {cycle : List MarketDataPublisherMarketUpdate} (h : s.publishSnapshot = .ok cycle) :
    out.publishSnapshot s = (cycle.foldlM sendMessage out >>= fun out => .ok out.sendAndRecv) ∧
      cycle.countP (·.IsMark) = kMaxSymbols + 2 := by
  obtain ⟨messages, hmessages, h⟩ := bind_ok h
  obtain rfl := Except.ok.inj h
  let first : MarketDataPublisherMarketUpdate := ⟨0, s.boundary .snapshotStart⟩
  let last : MarketDataPublisherMarketUpdate :=
    ⟨(1 + messages.flatten.length : Nat), s.boundary .snapshotEnd⟩
  have hcycle : numbered 0 (s.boundary .snapshotStart :: messages.flatten ++
      [s.boundary .snapshotEnd]) = (first :: numbered 1 messages.flatten) ++ [last] := by
    rw [List.cons_append, numbered, numbered_append]
    rfl
  have hfirst : first.IsMark = true := rfl
  have hlast : last.IsMark = true := rfl
  rw [hcycle]
  constructor
  · rw [publishSnapshot, List.foldlM_append, List.foldlM_cons, sendMessage_mark hfirst, bind_assoc,
      bind_assoc]
    refine congrArg (out.send first >>= ·) (funext fun out₁ => ?_)
    rw [(sendSymbols_eq hadds _ _ hmessages).1, bind_assoc]
    refine congrArg ((numbered 1 messages.flatten).foldlM sendMessage out₁ >>= ·)
      (funext fun out₂ => ?_)
    have hend : [last].foldlM sendMessage out₂ = out₂.send last := by
      rw [List.foldlM_cons, sendMessage_mark hlast]
      exact bind_pure _
    rw [hend]
    rfl
  · rw [List.countP_append, List.countP_cons_of_pos hfirst,
      (sendSymbols_eq hadds _ out hmessages).2, List.length_range]
    rfl

end Cycle

/-! ## 4. What is sent -/

section Sent

variable {marks rs : List MarketDataPublisherMarketUpdate} {sent : List (List UInt8)}

theorem room_mono {n m : Nat} (h : n ≤ m)
    (hroom : m * kIncrementalRecordSize < McastBufferSize) :
    n * kIncrementalRecordSize < McastBufferSize :=
  lt_of_le_of_lt (Nat.mul_le_mul_right _ h) hroom

/-- A message that still fits the buffer. -/
theorem send_eq (r : MarketDataPublisherMarketUpdate)
    (hroom : (marks.length + 1) * kIncrementalRecordSize < McastBufferSize) :
    send ⟨⟨incrementalBytes marks⟩, sent⟩ r = .ok ⟨⟨incrementalBytes (marks ++ [r])⟩, sent⟩ := by
  have hone : incrementalBytes [r] = r.bytes := List.flatMap_singleton _ _
  have hsend : McastSocket.send ⟨incrementalBytes marks⟩ r.bytes =
      .ok ⟨incrementalBytes (marks ++ [r])⟩ := by
    rw [McastSocket.send_eq_ok_iff, incrementalBytes_append, hone]
    refine ⟨?_, rfl⟩
    dsimp only
    rw [length_incrementalBytes, r.length_bytes, ← Nat.succ_mul]
    exact hroom
  rw [send, hsend, ok_bind]

theorem sendAndRecv_eq (hne : marks ≠ []) : sendAndRecv ⟨⟨incrementalBytes marks⟩, sent⟩ =
    ⟨⟨[]⟩, sent ++ [incrementalBytes marks]⟩ := by
  have hpos : 0 < (incrementalBytes marks).length := by
    rw [length_incrementalBytes]
    exact Nat.mul_pos (List.length_pos_of_ne_nil hne) (by decide)
  simp only [sendAndRecv, McastSocket.sendAndRecv, if_pos hpos]
  rfl

/-- **The messages of a cycle**, behind marks that still wait, in a buffer with room for all marks
and an order. -/
theorem sendMessages_eq (hmarks : ∀ m ∈ marks, m.IsMark)
    (hroom : (marks.length + rs.countP (·.IsMark) + 1) * kIncrementalRecordSize < McastBufferSize) :
    (rs.foldlM sendMessage ⟨⟨incrementalBytes marks⟩, sent⟩ >>= fun out => .ok out.sendAndRecv) =
      .ok ⟨⟨[]⟩, sent ++ (snapshotDatagrams (marks ++ rs)).map incrementalBytes⟩ := by
  induction rs generalizing marks sent with
  | nil =>
    rw [List.append_nil]
    cases marks with
    | nil =>
      rw [snapshotDatagrams, List.map_nil]
      rfl
    | cons m marks =>
      rw [snapshotDatagrams_marks hmarks (List.cons_ne_nil m marks)]
      exact congrArg Except.ok (sendAndRecv_eq (List.cons_ne_nil m marks))
  | cons r rs ih =>
    have hroom₁ : (marks.length + 1) * kIncrementalRecordSize < McastBufferSize :=
      room_mono (Nat.succ_le_succ (Nat.le_add_right _ _)) hroom
    rw [List.foldlM_cons, sendMessage, send_eq r hroom₁, ok_bind]
    by_cases hr : r.IsMark
    · have hcount : (r :: rs).countP (·.IsMark) = rs.countP (·.IsMark) + 1 :=
        List.countP_cons_of_pos hr
      have hmarks' : ∀ m ∈ marks ++ [r], m.IsMark := by
        intro m hm
        rcases List.mem_append.mp hm with hm | hm
        · exact hmarks m hm
        · rw [List.mem_singleton.mp hm]
          exact hr
      rw [hcount] at hroom
      have hlength : (marks ++ [r]).length + rs.countP (·.IsMark) + 1 =
          marks.length + (rs.countP (·.IsMark) + 1) + 1 := by
        rw [List.length_append, List.length_singleton]
        omega
      have hrest := @ih _ sent hmarks' (room_mono hlength.le hroom)
      rw [List.append_assoc, List.singleton_append] at hrest
      rw [if_pos hr, ok_bind, hrest]
    · have hcount : (r :: rs).countP (·.IsMark) = rs.countP (·.IsMark) :=
        List.countP_cons_of_neg hr
      have htype : r.update.type = .add := by_contra fun hne => hr (decide_eq_true hne)
      rw [hcount] at hroom
      have hroom' :
        (([] : List MarketDataPublisherMarketUpdate).length + rs.countP (·.IsMark) + 1) *
          kIncrementalRecordSize < McastBufferSize :=
        room_mono (Nat.succ_le_succ (Nat.add_le_add_right (Nat.zero_le _) _)) hroom
      have hrest := @ih [] (sent ++ [incrementalBytes (marks ++ [r])])
        (fun _ hm => absurd hm List.not_mem_nil) hroom'
      rw [if_neg hr, ok_bind, sendAndRecv_eq (List.append_ne_nil_of_right_ne_nil _
        (List.cons_ne_nil _ _)), snapshotDatagrams_order hmarks htype, List.map_cons]
      rw [List.nil_append, List.append_assoc, List.singleton_append] at hrest
      exact hrest

end Sent

/-- A cycle of a synthesizer whose pool holds orders only. -/
theorem publishSnapshot_sends {s : SnapshotSynthesizer}
    {cycle : List MarketDataPublisherMarketUpdate}
    (hadds : s.orderPool.All (·.type = .add)) (hcycle : s.publishSnapshot = .ok cycle)
    (sent : List (List UInt8)) : publishSnapshot ⟨⟨[]⟩, sent⟩ s =
        .ok ⟨⟨[]⟩, sent ++ (snapshotDatagrams cycle).map incrementalBytes⟩ ∧
      ∀ d ∈ snapshotDatagrams cycle, d.length ≤ kMaxSymbols + 3 ∧
        (incrementalBytes d).length ≤ kMaxUdpPayload := by
  obtain ⟨hcalls, hcount⟩ := publishSnapshot_eq ⟨⟨[]⟩, sent⟩ hadds hcycle
  have hroom : (([] : List MarketDataPublisherMarketUpdate).length + cycle.countP (·.IsMark) + 1) *
      kIncrementalRecordSize < McastBufferSize := by
    rw [hcount]
    decide
  have hsent := @sendMessages_eq [] cycle sent (fun _ hm => absurd hm List.not_mem_nil) hroom
  refine ⟨hcalls.trans hsent, fun d hd => ?_⟩
  have hlength := length_snapshotDatagram cycle d hd
  rw [hcount] at hlength
  refine ⟨hlength, ?_⟩
  rw [length_incrementalBytes]
  exact (Nat.mul_le_mul_right _ hlength).trans (by decide)

end SnapshotOutput

/-- **Every datagram of a cycle arrives whole.**  Whatever updates the synthesizer has added, if it
publishes a cycle then its socket takes all messages, is empty again, and has sent the cycle in
datagrams that carry one order each at most and are far from too long.  Between two orders lie the
marks of the symbols without any, and there are `kMaxSymbols` of those and the two ends.  What the
network loses it loses as whole datagrams. -/
theorem SnapshotSynthesizer.cycle_arrives {updates cycle : List MarketDataPublisherMarketUpdate}
    {s : SnapshotSynthesizer} (hrun : updates.foldlM addToSnapshot init = .ok s)
    (hcycle : s.publishSnapshot = .ok cycle) (sent : List (List UInt8)) :
    SnapshotOutput.publishSnapshot ⟨⟨[]⟩, sent⟩ s =
        .ok ⟨⟨[]⟩, sent ++ (snapshotDatagrams cycle).map incrementalBytes⟩ ∧
      (snapshotDatagrams cycle).flatten = cycle ∧
      ∀ d ∈ snapshotDatagrams cycle, d.length ≤ kMaxSymbols + 3 ∧
        (incrementalBytes d).length ≤ kMaxUdpPayload := by
  have hadds : s.orderPool.All (·.type = .add) :=
    Run.foldlM_inv (I := fun s => s.orderPool.All (·.type = .add))
      (fun _ _ _ h (_ : True) hstep => addToSnapshot_adds h hstep) (MemPool.All.init _)
      (fun _ _ => trivial) hrun
  obtain ⟨hsent, hlengths⟩ := SnapshotOutput.publishSnapshot_sends hadds hcycle sent
  exact ⟨hsent, flatten_snapshotDatagrams cycle, hlengths⟩

/-- One order, of the first symbol. -/
theorem SnapshotSynthesizer.cycle_arrives_one_order : ∃ s cycle,
    [⟨1, ⟨.add, 0, 1, .buy, 100, 4, 1⟩⟩].foldlM addToSnapshot init = .ok s ∧
      s.publishSnapshot = .ok cycle ∧ cycle.length = 11 ∧
      SnapshotOutput.publishSnapshot ⟨⟨[]⟩, []⟩ s =
        .ok ⟨⟨[]⟩, [incrementalBytes (cycle.take 3), incrementalBytes (cycle.drop 3)]⟩ := by
  let u : MatchingEngineMarketUpdate := ⟨.add, 0, 1, .buy, 100, 4, 1⟩
  have hpub : PublishedMarket kDefaultPriceBand .empty u :=
    ⟨by decide, by decide, by simp [Market.empty], .inl rfl, by decide, by decide,
      by simp [Market.empty]⟩
  obtain ⟨s, addr, hadd, hmirrors⟩ :=
    (mirrors_init fun _ => id).addToSnapshot hpub (by decide)
  have hrun : [⟨1, u⟩].foldlM addToSnapshot init = .ok s :=
    Run.foldlM_cons_ok.mpr ⟨s, hadd, rfl⟩
  have hcycle := hmirrors.publishSnapshot_eq fun symbol _ => by
    unfold replayMarket
    rcases eq_or_ne symbol 0 with rfl | hne
    · exact List.pairwise_singleton _ _
    · rw [Function.update_of_ne hne]
      exact List.Pairwise.nil
  refine ⟨s, _, hrun, hcycle, rfl, ?_⟩
  rw [(cycle_arrives hrun hcycle []).1]
  rfl

end YQuant
