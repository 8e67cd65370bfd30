/-
# The consumer on its receive buffers

The two sockets of the consumer read datagrams into buffers that `recvCallback` empties record by
record, like those of the order gateway (`OrderManager/Framing.lean`).  But a datagram is not a
piece of a stream: it is whole or lost, and what is left of a buffer when one has been handled
waits for the next.

`Waiting` is the consumer with the bytes that wait on its channels, without the memory they lie in.
This file proves that the buffers do nothing else, whatever bytes arrive (`reads_stream`):

* a read is one step of `Waiting` (`step_view`): the consumer is handed the records that the
  datagram completes, behind what its channel has left;
* a channel that discards nothing is one stream of bytes (`Waiting.channel_stream`).  The
  incremental channel never does; the snapshot channel is such a stream from one discarded datagram
  to the next.

So a datagram of another length shifts every record behind it, and an unknown type byte is handed
on as it is.  The exchange sends no such datagram: whole records leave the buffers empty
(`sendAndRecv_records`), and the consumer does what the model of its records says.
-/
import YQuant.Lib.RecordBuffer
import YQuant.MarketData.UpdateRecords
import YQuant.Trading.MarketDataConsumer

namespace YQuant

/-- The consumer with the receive buffers of its two sockets. -/
structure BufferedConsumer where
  consumer : MarketDataConsumer
  incrementalInbound : RecordBuffer
  snapshotInbound : RecordBuffer

namespace BufferedConsumer

/-! ## 1. Reads -/

/-- At the start the memory holds anything. -/
def init (incrementalMemory snapshotMemory : Nat → UInt8) : BufferedConsumer :=
  ⟨.init, ⟨incrementalMemory, 0⟩, ⟨snapshotMemory, 0⟩⟩

/-- The buffer of a socket. -/
def inbound (s : BufferedConsumer) (isSnapshot : Bool) : RecordBuffer :=
  if isSnapshot then s.snapshotInbound else s.incrementalInbound

def setInbound (s : BufferedConsumer) (isSnapshot : Bool) (b : RecordBuffer) : BufferedConsumer :=
  if isSnapshot then { s with snapshotInbound := b } else { s with incrementalInbound := b }

def recvCallback (s : BufferedConsumer) (isSnapshot : Bool) : Except Fault BufferedConsumer :=
  let b := s.inbound isSnapshot
  if isSnapshot && !s.consumer.inRecovery then .ok (s.setInbound isSnapshot { b with next := 0 })
  else if incrementalCodec.size ≤ b.next then do
    let (consumer, i) ← b.recordLoop incrementalCodec
      (fun c r => .ok (c.recvRecord isSnapshot r)) 0 s.consumer
    .ok ({ s with consumer := consumer }.setInbound isSnapshot
      { b.memmove 0 i (b.next - i) with next := b.next - i })
  else .ok s

/-- `McastSocket::sendAndRecv`, when a datagram is there: `recv` takes what the buffer has room for,
and the rest of the datagram is lost.  The consumer sends nothing. -/
def sendAndRecv (s : BufferedConsumer) (isSnapshot : Bool) (datagram : List UInt8) :
    Except Fault BufferedConsumer :=
  let b := s.inbound isSnapshot
  let data := datagram.take (McastBufferSize - b.next)
  if data = [] then .ok s else (s.setInbound isSnapshot (b.append data)).recvCallback isSnapshot

section Inbound

variable {s : BufferedConsumer} {isSnapshot : Bool} {b : RecordBuffer}

@[simp] theorem inbound_setInbound : (s.setInbound isSnapshot b).inbound isSnapshot = b := by
  cases isSnapshot <;> rfl

@[simp] theorem inbound_setInbound_other :
    (s.setInbound isSnapshot b).inbound (!isSnapshot) = s.inbound (!isSnapshot) := by
  cases isSnapshot <;> rfl

@[simp] theorem consumer_setInbound : (s.setInbound isSnapshot b).consumer = s.consumer := by
  cases isSnapshot <;> rfl

end Inbound

/-! ## 2. A read is a datagram of records -/

/-- No buffer holds a complete record. -/
def Handled (s : BufferedConsumer) : Prop :=
  ∀ isSnapshot, (s.inbound isSnapshot).next < kIncrementalRecordSize

/-- What a read leaves in the buffer of its socket.  No callback follows an empty datagram. -/
def leftover (s : BufferedConsumer) (isSnapshot : Bool) (datagram : List UInt8) : List UInt8 :=
  if isSnapshot && !s.consumer.inRecovery && !datagram.isEmpty then []
  else incrementalCodec.rest ((s.inbound isSnapshot).valid ++ datagram)

section Read

variable {s s' : BufferedConsumer} {isSnapshot : Bool} {datagram : List UInt8}

/-- The loop of the callback never fails. -/
theorem recvRecords_ok (isSnapshot : Bool) (rs : List MarketDataPublisherMarketUpdate)
    (c : MarketDataConsumer) :
    rs.foldlM (fun c r => (.ok (c.recvRecord isSnapshot r) : Except Fault _)) c =
      .ok (rs.foldl (MarketDataConsumer.recvRecord isSnapshot) c) := by
  induction rs generalizing c with
  | nil => rfl
  | cons r rs ih => exact ih _

/-- **The callback** hands the complete records of the buffer to the consumer and keeps the rest. -/
theorem recvCallback_eq (s : BufferedConsumer) (isSnapshot : Bool) :
    ∃ s', s.recvCallback isSnapshot = .ok s' ∧
      s'.consumer = s.consumer.recvCallback
        ⟨isSnapshot, incrementalCodec.frames (s.inbound isSnapshot).valid⟩ ∧
      (s'.inbound isSnapshot).valid = (if isSnapshot && !s.consumer.inRecovery then []
        else incrementalCodec.rest (s.inbound isSnapshot).valid) ∧
      s'.inbound (!isSnapshot) = s.inbound (!isSnapshot) := by
  unfold recvCallback MarketDataConsumer.recvCallback
  dsimp only
  cases hdiscard : isSnapshot && !s.consumer.inRecovery with
  | true =>
    simp only [if_true]
    exact ⟨_, rfl, consumer_setInbound, by rw [inbound_setInbound]; rfl, inbound_setInbound_other⟩
  | false =>
    simp only [Bool.false_eq_true, if_false]
    split
    · rw [RecordBuffer.recordLoop_eq (by decide), recvRecords_ok, Nat.sub_zero, Nat.zero_add]
      refine ⟨_, rfl, consumer_setInbound, ?_, ?_⟩
      · rw [inbound_setInbound]
        exact RecordBuffer.valid_rest incrementalCodec
      · rw [inbound_setInbound_other]
        cases isSnapshot <;> rfl
    · next hlt =>
      obtain ⟨hframes, hrest⟩ := Codec.frames_of_lt (c := incrementalCodec)
        (RecordBuffer.length_valid.trans_lt (Nat.not_le.mp hlt))
      exact ⟨s, rfl, by rw [hframes]; rfl, hrest.symm, rfl⟩

theorem length_leftover : (s.leftover isSnapshot datagram).length < kIncrementalRecordSize := by
  unfold leftover
  split
  · exact (by decide : 0 < kIncrementalRecordSize)
  · exact Codec.length_rest_lt (by decide)

/-- **A read** hands the records that the datagram completes to the consumer, whatever it holds. -/
theorem sendAndRecv_eq (isSnapshot : Bool) (h : s.Handled)
    (hfits : datagram.length + kIncrementalRecordSize ≤ McastBufferSize) :
    ∃ s', s.sendAndRecv isSnapshot datagram = .ok s' ∧
      s'.consumer = s.consumer.recvCallback
        ⟨isSnapshot, incrementalCodec.frames ((s.inbound isSnapshot).valid ++ datagram)⟩ ∧
      (s'.inbound isSnapshot).valid = s.leftover isSnapshot datagram ∧
      s'.inbound (!isSnapshot) = s.inbound (!isSnapshot) ∧ s'.Handled := by
  have hroom : datagram.take (McastBufferSize - (s.inbound isSnapshot).next) = datagram := by
    rw [List.take_of_length_le]
    have := h isSnapshot
    omega
  rw [sendAndRecv, hroom]
  split
  · next hnil =>
    obtain ⟨hframes, hrest⟩ := Codec.frames_of_lt (c := incrementalCodec)
      (RecordBuffer.length_valid.trans_lt (h isSnapshot))
    refine ⟨s, rfl, ?_, ?_, rfl, h⟩
    · rw [hnil, List.append_nil, hframes, MarketDataConsumer.recvCallback]
      split <;> rfl
    · rw [leftover, hnil, List.append_nil, hrest]
      simp
  · next hne =>
    obtain ⟨s', hcallback, hconsumer, hvalid, hother⟩ :=
      recvCallback_eq (s.setInbound isSnapshot ((s.inbound isSnapshot).append datagram)) isSnapshot
    rw [consumer_setInbound, inbound_setInbound, RecordBuffer.valid_append] at hconsumer
    rw [inbound_setInbound_other] at hother
    have hleft : (s'.inbound isSnapshot).valid = s.leftover isSnapshot datagram := by
      rw [hvalid, leftover, consumer_setInbound, inbound_setInbound, RecordBuffer.valid_append]
      simp [hne]
    refine ⟨s', hcallback, hconsumer, hleft, hother, fun isSnapshot' => ?_⟩
    rcases Bool.eq_or_eq_not isSnapshot' isSnapshot with rfl | rfl
    · rw [← RecordBuffer.length_valid, hleft]
      exact length_leftover
    · rw [hother]
      exact h _

/-- **A datagram of whole records** leaves an empty buffer empty, and does what its records do. -/
theorem sendAndRecv_records {rs : List MarketDataPublisherMarketUpdate} (h : s.Handled)
    (hempty : (s.inbound isSnapshot).next = 0) (hrs : ∀ r ∈ rs, r.InRange)
    (hfits : (incrementalBytes rs).length + kIncrementalRecordSize ≤ McastBufferSize) :
    ∃ s', s.sendAndRecv isSnapshot (incrementalBytes rs) = .ok s' ∧
      s'.consumer = s.consumer.recvCallback ⟨isSnapshot, rs⟩ ∧ (s'.inbound isSnapshot).next = 0 ∧
      s'.inbound (!isSnapshot) = s.inbound (!isSnapshot) ∧ s'.Handled := by
  obtain ⟨s', hread, hconsumer, hvalid, hother, h'⟩ := sendAndRecv_eq isSnapshot h hfits
  have hnone : (s.inbound isSnapshot).valid = [] :=
    List.eq_nil_of_length_eq_zero (RecordBuffer.length_valid.trans hempty)
  obtain ⟨hframes, hrest⟩ := frames_incrementalBytes hrs
  rw [hnone, List.nil_append, hframes] at hconsumer
  rw [leftover, hnone, List.nil_append, hrest, ite_self] at hvalid
  refine ⟨s', hread, hconsumer, ?_, hother, h'⟩
  rw [← RecordBuffer.length_valid, hvalid, List.length_nil]

end Read

/-! ## 3. The bytes of the two channels -/

/-- What a socket reads. -/
abbrev Read := Bool × List UInt8

def step (s : BufferedConsumer) (read : Read) : Except Fault BufferedConsumer :=
  s.sendAndRecv read.1 read.2

theorem init_handled (incrementalMemory snapshotMemory : Nat → UInt8) :
    (init incrementalMemory snapshotMemory).Handled
  | false | true => (by decide : 0 < kIncrementalRecordSize)

/-- The consumer and the bytes that wait on its channels, without the memory they lie in. -/
structure Waiting where
  consumer : MarketDataConsumer
  bytes : Bool → List UInt8

namespace Waiting

def init : Waiting := ⟨.init, fun _ => []⟩

/-- A snapshot datagram comes in outside a recovery. -/
def Discards (s : Waiting) (read : Read) : Prop :=
  read.1 = true ∧ s.consumer.inRecovery = false ∧ read.2 ≠ []

instance (s : Waiting) (read : Read) : Decidable (s.Discards read) :=
  inferInstanceAs (Decidable (_ ∧ _ ∧ _))

/-- The records that a datagram completes, behind what its channel has left. -/
def completed (s : Waiting) (read : Read) : Datagram :=
  ⟨read.1, incrementalCodec.frames (s.bytes read.1 ++ read.2)⟩

/-- One datagram.  The other channel keeps what it has. -/
def read (s : Waiting) (read : Read) : Waiting where
  consumer := s.consumer.recvCallback (s.completed read)
  bytes := Function.update s.bytes read.1
    (if s.Discards read then [] else incrementalCodec.rest (s.bytes read.1 ++ read.2))

/-- What the reads come to, one datagram of records each. -/
def datagrams (s : Waiting) (reads : List Read) : List Datagram :=
  Run.outputs read (fun s read => [s.completed read]) s reads

/-- No snapshot datagram is discarded. -/
def Kept (s : Waiting) (reads : List Read) : Prop :=
  Run.AlongRun read (fun s read => ¬ s.Discards read) s reads

instance (s : Waiting) (reads : List Read) : Decidable (s.Kept reads) :=
  inferInstanceAs (Decidable (Run.AlongRun ..))

end Waiting

/-- The bytes of a channel. -/
def channelBytes (isSnapshot : Bool) (reads : List Read) : List UInt8 :=
  (reads.filter fun read => read.1 == isSnapshot).flatMap (·.2)

/-- The records of a channel. -/
def channelRecords (isSnapshot : Bool) (datagrams : List Datagram) :
    List MarketDataPublisherMarketUpdate :=
  (datagrams.filter fun d => d.isSnapshot == isSnapshot).flatMap (·.records)

namespace Waiting

variable {s : Waiting} {reads : List Read}

/-- The consumer has had these datagrams and nothing else. -/
theorem consumer_foldl (s : Waiting) (reads : List Read) :
    (reads.foldl read s).consumer =
      (s.datagrams reads).foldl MarketDataConsumer.recvCallback s.consumer := by
  induction reads generalizing s with
  | nil => rfl
  | cons read reads ih => exact ih _

theorem isSnapshot_datagrams (s : Waiting) (reads : List Read) :
    (s.datagrams reads).map (·.isSnapshot) = reads.map (·.1) := by
  induction reads generalizing s with
  | nil => rfl
  | cons read reads ih => exact congrArg _ (ih _)

/-- No channel has a complete record left. -/
theorem length_bytes (h : ∀ isSnapshot, (s.bytes isSnapshot).length < kIncrementalRecordSize)
    (isSnapshot : Bool) :
    ((reads.foldl read s).bytes isSnapshot).length < kIncrementalRecordSize := by
  induction reads generalizing s with
  | nil => exact h isSnapshot
  | cons read reads ih =>
    refine ih fun isSnapshot' => ?_
    rcases eq_or_ne isSnapshot' read.1 with rfl | hother
    · simp only [Waiting.read, Function.update_self]
      split
      · exact (by decide : 0 < kIncrementalRecordSize)
      · exact Codec.length_rest_lt (by decide)
    · simp only [Waiting.read, Function.update_of_ne hother]
      exact h isSnapshot'

/-- **A channel that loses no bytes to a discard is one stream**: its records are those of its
bytes, and what it has left is what they leave. -/
theorem channel_stream (isSnapshot : Bool)
    (hbytes : (s.bytes isSnapshot).length < kIncrementalRecordSize)
    (hkept : Run.AlongRun read (fun s read => read.1 = isSnapshot → ¬ s.Discards read) s reads) :
    channelRecords isSnapshot (s.datagrams reads) =
        incrementalCodec.frames (s.bytes isSnapshot ++ channelBytes isSnapshot reads) ∧
      (reads.foldl read s).bytes isSnapshot =
        incrementalCodec.rest (s.bytes isSnapshot ++ channelBytes isSnapshot reads) := by
  induction reads generalizing s with
  | nil =>
    obtain ⟨hframes, hrest⟩ := Codec.frames_of_lt (c := incrementalCodec) hbytes
    simp only [channelBytes, List.filter_nil, List.flatMap_nil, List.append_nil, hframes, hrest]
    exact ⟨rfl, rfl⟩
  | cons read reads ih =>
    obtain ⟨hread, hreads⟩ := hkept
    rcases eq_or_ne read.1 isSnapshot with rfl | hother
    · -- the datagram is of this channel
      have hleft : (s.read read).bytes read.1 =
          incrementalCodec.rest (s.bytes read.1 ++ read.2) := by
        simp only [Waiting.read, Function.update_self, if_neg (hread rfl)]
      have hstream : channelBytes read.1 (read :: reads) = read.2 ++ channelBytes read.1 reads := by
        simp [channelBytes]
      have hrecords : channelRecords read.1 (s.datagrams (read :: reads)) =
          (s.completed read).records ++ channelRecords read.1 ((s.read read).datagrams reads) := by
        simp [channelRecords, datagrams, completed]
      obtain ⟨hframes, hrest⟩ := Codec.frames_append (c := incrementalCodec) (by decide)
        (s.bytes read.1 ++ read.2) (channelBytes read.1 reads)
      obtain ⟨hih, hihrest⟩ := ih (by rw [hleft]; exact Codec.length_rest_lt (by decide)) hreads
      rw [hleft] at hih hihrest
      rw [hstream, ← List.append_assoc, hframes, hrest, hrecords, hih]
      exact ⟨rfl, hihrest⟩
    · have hleft : (s.read read).bytes isSnapshot = s.bytes isSnapshot :=
        Function.update_of_ne hother.symm _ _
      have hstream : channelBytes isSnapshot (read :: reads) = channelBytes isSnapshot reads := by
        simp [channelBytes, hother]
      have hrecords : channelRecords isSnapshot (s.datagrams (read :: reads)) =
          channelRecords isSnapshot ((s.read read).datagrams reads) := by
        simp [channelRecords, datagrams, completed, hother]
      obtain ⟨hih, hihrest⟩ := ih (by rw [hleft]; exact hbytes) hreads
      rw [hleft] at hih hihrest
      rw [hstream, hrecords]
      exact ⟨hih, hihrest⟩

end Waiting

/-- What the consumer and its buffers hold. -/
def view (s : BufferedConsumer) : Waiting :=
  ⟨s.consumer, fun isSnapshot => (s.inbound isSnapshot).valid⟩

/-- **One read** is one datagram for the bytes that wait. -/
theorem step_view {s : BufferedConsumer} {read : Read} (h : s.Handled)
    (hfits : read.2.length ≤ kMaxUdpPayload) :
    ∃ s', s.step read = .ok s' ∧ s'.view = s.view.read read ∧ s'.Handled := by
  have hroom : read.2.length + kIncrementalRecordSize ≤ McastBufferSize :=
    (Nat.add_le_add_right hfits _).trans (by decide)
  obtain ⟨s', hread, hconsumer, hvalid, hother, h'⟩ := sendAndRecv_eq read.1 h hroom
  have hbytes : (fun isSnapshot => (s'.inbound isSnapshot).valid) =
      Function.update s.view.bytes read.1 (s.leftover read.1 read.2) := by
    funext isSnapshot
    rcases Bool.eq_or_eq_not isSnapshot read.1 with rfl | rfl
    · rw [Function.update_self, hvalid]
    · rw [Function.update_of_ne (by simp), hother]
      rfl
  have hleft : s.leftover read.1 read.2 = if s.view.Discards read then []
      else incrementalCodec.rest (s.view.bytes read.1 ++ read.2) := by
    refine if_congr ?_ rfl rfl
    simp [Waiting.Discards, view, and_assoc]
  refine ⟨s', hread, ?_, h'⟩
  rw [view, hconsumer, hbytes, hleft]
  rfl

/-- **Whatever bytes arrive**, no read fails, and the consumer does what the model of its records
does on as many datagrams: on each, the records that its bytes complete behind what its channel has
left.  The records of the incremental datagrams are those of all bytes of that channel, one behind
the other, and the buffer holds what these leave.  The snapshot channel is such a stream from one
discarded datagram to the next.

Nothing is said of what the records mean: stray bytes may name a symbol or an order that does not
exist, and it is the thread that fails on them. -/
theorem reads_stream (incrementalMemory snapshotMemory : Nat → UInt8) {reads : List Read}
    (hfits : ∀ read ∈ reads, read.2.length ≤ kMaxUdpPayload) :
    ∃ s, reads.foldlM step (init incrementalMemory snapshotMemory) = .ok s ∧
      s.view = reads.foldl Waiting.read .init ∧
      s.consumer = (Waiting.init.datagrams reads).foldl MarketDataConsumer.recvCallback .init ∧
      (Waiting.init.datagrams reads).map (·.isSnapshot) = reads.map (·.1) ∧
      channelRecords false (Waiting.init.datagrams reads) =
        incrementalCodec.frames (channelBytes false reads) ∧
      s.incrementalInbound.next = (channelBytes false reads).length % kIncrementalRecordSize ∧
      ∀ before after, reads = before ++ after → (before.foldl Waiting.read .init).Kept after →
        channelRecords true ((before.foldl Waiting.read .init).datagrams after) =
          incrementalCodec.frames
            ((before.foldl Waiting.read .init).bytes true ++ channelBytes true after) := by
  obtain ⟨s, hrun, hview, -⟩ : ∃ s,
      reads.foldlM step (init incrementalMemory snapshotMemory) = .ok s ∧
      s.view = reads.foldl Waiting.read .init ∧ s.Handled := by
    induction reads using List.reverseRecOn with
    | nil =>
      refine ⟨_, rfl, ?_, init_handled _ _⟩
      exact congrArg (Waiting.mk _) (funext fun isSnapshot => by cases isSnapshot <;> rfl)
    | append_singleton reads read ih =>
      obtain ⟨s, hrun, hview, h⟩ := ih fun r hr => hfits r (List.mem_append_left _ hr)
      obtain ⟨s', hread, hview', h'⟩ :=
        step_view h (hfits read (List.mem_append_right _ List.mem_cons_self))
      refine ⟨s', Run.foldlM_append_ok.mpr ⟨s, hrun, ?_⟩, ?_, h'⟩
      · exact Run.foldlM_cons_ok.mpr ⟨s', hread, rfl⟩
      rw [hview', hview, List.foldl_append]
      rfl
  have hnone (isSnapshot : Bool) :
      (Waiting.init.bytes isSnapshot).length < kIncrementalRecordSize :=
    (by decide : 0 < kIncrementalRecordSize)
  -- the incremental channel discards nothing
  have hincremental : Run.AlongRun Waiting.read
      (fun s read => read.1 = false → ¬ s.Discards read) .init reads :=
    Run.AlongRun.of_forall fun _ _ _ hfalse hdiscards =>
      Bool.false_ne_true (hfalse.symm.trans hdiscards.1)
  obtain ⟨hrecords, hrest⟩ := Waiting.channel_stream false (hnone false) hincremental
  refine ⟨s, hrun, hview, ?_, Waiting.isSnapshot_datagrams _ _, hrecords, ?_, ?_⟩
  · exact (congrArg Waiting.consumer hview).trans (Waiting.consumer_foldl .init reads)
  · have hvalid :
        s.incrementalInbound.valid = incrementalCodec.rest (channelBytes false reads) := by
      rw [← hview] at hrest
      exact hrest
    rw [← RecordBuffer.length_valid, hvalid, Codec.rest, List.length_drop, Nat.mul_comm,
      ← Nat.mod_eq_sub]
    rfl
  · intro before after _ hkept
    exact (Waiting.channel_stream true (Waiting.length_bytes hnone true)
      (hkept.mono fun _ read hkept (_ : read.1 = true) => hkept)).1

/-- Outside a recovery ten stray bytes are dropped; within one they shift the record behind them. -/
theorem reads_stream_shifted : ∃ s,
    [(true, List.replicate 10 0), (false, incrementalBytes [⟨5, ⟨.add, 0, 1, .buy, 100, 4, 1⟩⟩]),
      (true, List.replicate 10 0),
      (true, incrementalBytes [⟨1, ⟨.add, 0, 1, .buy, 100, 4, 1⟩⟩])].foldlM
        step (init (fun _ => 0) fun _ => 0) = .ok s ∧
      channelRecords false (Waiting.init.datagrams
        [(true, List.replicate 10 0),
        (false, incrementalBytes [⟨5, ⟨.add, 0, 1, .buy, 100, 4, 1⟩⟩]),
          (true, List.replicate 10 0),
          (true, incrementalBytes [⟨1, ⟨.add, 0, 1, .buy, 100, 4, 1⟩⟩])]) =
        [⟨5, ⟨.add, 0, 1, .buy, 100, 4, 1⟩⟩] ∧
      channelRecords true ((Waiting.init.read (true, List.replicate 10 0)).datagrams
        [(false, incrementalBytes [⟨5, ⟨.add, 0, 1, .buy, 100, 4, 1⟩⟩]),
        (true, List.replicate 10 0),
          (true, incrementalBytes [⟨1, ⟨.add, 0, 1, .buy, 100, 4, 1⟩⟩])]) =
        [⟨0, ⟨.invalid, 256, 2 ^ 41, .unset, 256, 6553856, 2 ^ 50⟩⟩] := by
  have hfits : ∀ read ∈ ([(true, List.replicate 10 0),
      (false, incrementalBytes [⟨5, ⟨.add, 0, 1, .buy, 100, 4, 1⟩⟩]), (true, List.replicate 10 0),
      (true, incrementalBytes [⟨1, ⟨.add, 0, 1, .buy, 100, 4, 1⟩⟩])] : List Read),
      read.2.length ≤ kMaxUdpPayload := by decide
  obtain ⟨s, hrun, -, -, -, hincremental, -, hsnapshot⟩ :=
    reads_stream (fun _ => 0) (fun _ => 0) hfits
  exact ⟨s, hrun, hincremental.trans (by decide +kernel),
    (hsnapshot [_] _ rfl (by decide +kernel)).trans (by decide +kernel)⟩

end BufferedConsumer

end YQuant
