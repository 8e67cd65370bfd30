/-
# A stream that grows

The consumer's invariant names a whole stream of updates, and the exchange goes on publishing while
the consumer reads.  What the invariant says is about the part of the stream that is there already,
so it survives everything that is published later (`Inv.extend`).

It says nothing about single updates.  Those are settled by `Holds`: whatever is true of all records
that arrive is true of all updates that wait and of all that are forwarded.

These are the two things that the whole loop adds to `Recovery.lean`, where the stream is finished
before anything arrives.  A cycle that is made now names a place that the stream has already
passed, and what has been said about such a place is not changed by more updates.

`Holds` is stated for any property of updates: the loop uses it for prices in the band and the wire
for fields that fit.  It does not depend on the state of the recovery, because the consumer never
makes up an update; it waits, drops or forwards what has come in.
-/
import YQuant.Trading.Recovery

namespace YQuant

variable {us vs : List MatchingEngineMarketUpdate} {a n : Nat}
  {e : Int × MatchingEngineMarketUpdate} {q : List (Int × MatchingEngineMarketUpdate)}

/-! ## 1. More updates at the end -/

theorem marketAt_extend (vs : List MatchingEngineMarketUpdate) (hn : n ≤ us.length) :
    marketAt (us ++ vs) n = marketAt us n := by
  rw [marketAt, marketAt, List.take_append_of_le_length hn]

theorem marketAt_length : marketAt us us.length = us.foldl replayMarket .empty := by
  rw [marketAt, List.take_length]

/-- One more update. -/
theorem marketAt_succ {u : MatchingEngineMarketUpdate} (hu : us[n]? = some u) :
    marketAt us (n + 1) = replayMarket (marketAt us n) u := by
  obtain ⟨hlt, rfl⟩ := List.getElem?_eq_some_iff.mp hu
  rw [marketAt, marketAt, List.take_succ_eq_append_getElem hlt, List.foldl_append]
  rfl

theorem InCycle.extend (h : InCycle us n e) (vs : List MatchingEngineMarketUpdate)
    (hn : n ≤ us.length) : InCycle (us ++ vs) n e := by
  obtain ⟨k, hk, hcycle⟩ := h
  exact ⟨k, hk, by rwa [marketAt_extend vs hn]⟩

theorem Stitched.extend (h : Stitched us a q) (vs : List MatchingEngineMarketUpdate)
    (ha : a ≤ us.length) : Stitched (us ++ vs) a q := by
  obtain ⟨anchor, hmono, hle, hq⟩ := h
  refine ⟨anchor, hmono, hle, ?_⟩
  intro i e' hi
  exact (hq i e' hi).extend vs ((hle i).trans ha)

theorem mem_numbered_extend {r : MarketDataPublisherMarketUpdate} (h : r ∈ numbered 1 us)
    (vs : List MatchingEngineMarketUpdate) : r ∈ numbered 1 (us ++ vs) := by
  rw [numbered_append]
  exact List.mem_append_left _ h

/-- A record of a part of the stream is a record of the stream. -/
theorem mem_numbered_of_take {r : MarketDataPublisherMarketUpdate}
    (h : r ∈ numbered 1 (us.take n)) : r ∈ numbered 1 us := by
  have := mem_numbered_extend h (us.drop n)
  rwa [List.take_append_drop] at this

/-! ## 2. What arrives -/

/-- New orders are at prices of the band. -/
def Banded (u : MatchingEngineMarketUpdate) : Prop :=
  u.type = .add → kDefaultPriceBand.InBand u.price

theorem Published.banded {l : List LiveOrder} {u : MatchingEngineMarketUpdate}
    (h : Published kDefaultPriceBand l u) : Banded u := by
  intro htype
  unfold Published at h
  simp only [htype] at h
  exact h.2.2.2.1

theorem banded_of_published {M : Market} (h : Run.AlongRun replayMarket
    (PublishedMarket kDefaultPriceBand) M us) : ∀ u ∈ us, Banded u := by
  induction us generalizing M with
  | nil => exact fun _ hu => absurd hu List.not_mem_nil
  | cons v us ih =>
    intro u hu
    rcases List.mem_cons.mp hu with rfl | hu
    · exact h.1.2.banded
    · exact ih h.2 u hu

/-- The messages of a cycle name orders that rest. -/
theorem ConsistentMarket.banded {M : Market} (h : ConsistentMarket M) :
    ∀ u ∈ SnapshotSynthesizer.Mirrors.cycleMessages M n, Banded u := by
  intro u hu htype
  rw [cycleMessages_eq] at hu
  rcases List.mem_cons.mp hu with rfl | hu
  · cases htype
  rcases List.mem_append.mp hu with hu | hu
  · obtain ⟨symbol, -, hu⟩ := List.mem_flatMap.mp hu
    rcases List.mem_cons.mp hu with rfl | hu
    · cases htype
    · obtain ⟨o, ho, rfl⟩ := List.mem_map.mp hu
      exact (h.1 symbol).prices o ho
  · rw [List.mem_singleton.mp hu] at htype
    cases htype

theorem InCycle.banded (h : InCycle us n e) (hpub : Run.AlongRun replayMarket
    (PublishedMarket kDefaultPriceBand) .empty us) : Banded e.2 := by
  obtain ⟨k, -, hk⟩ := h
  exact (consistent_marketAt hpub n).banded _ (List.mem_of_getElem? hk)

namespace MarketDataConsumer

variable {P : MatchingEngineMarketUpdate → Prop} {c : MarketDataConsumer}
  {r : MarketDataPublisherMarketUpdate}

/-- `P` holds of every update that waits or has been forwarded. -/
structure Holds (P : MatchingEngineMarketUpdate → Prop) (c : MarketDataConsumer) : Prop where
  snapshots : ∀ e ∈ c.snapshotQueuedMsgs.toList, P e.2
  incrementals : ∀ e ∈ c.incrementalQueuedMsgs.toList, P e.2
  forwarded : ∀ u ∈ c.incomingMdUpdates, P u

theorem Holds.init : Holds P init where
  snapshots := fun _ he => absurd he List.not_mem_nil
  incrementals := fun _ he => absurd he List.not_mem_nil
  forwarded := fun _ hu => absurd hu List.not_mem_nil

/-- A queue with one more message. -/
theorem holds_insert {queue : QueuedMarketUpdates} {k : Int} {u : MatchingEngineMarketUpdate}
    (h : ∀ e ∈ queue.toList, P e.2) (hu : P u) : ∀ e ∈ (queue.insert k u).toList, P e.2 := by
  rintro ⟨k', v⟩ he
  have hget := Std.TreeMap.mem_toList_iff_getElem?_eq_some.mp he
  rw [Std.TreeMap.getElem?_insert] at hget
  split at hget
  · obtain rfl := Option.some.inj hget
    exact hu
  · exact h (k', v) (Std.TreeMap.mem_toList_iff_getElem?_eq_some.mpr hget)

theorem holds_pushEvent {u : MatchingEngineMarketUpdate} {events : List MatchingEngineMarketUpdate}
    (hu : P u) (h : ∀ v ∈ events, P v) : ∀ v ∈ pushEvent u events, P v := by
  intro v hv
  unfold pushEvent at hv
  split at hv
  · rcases List.mem_cons.mp hv with rfl | hv
    · exact hu
    · exact h v hv
  · exact h v hv

theorem holds_scanIncrementals (h : ∀ e ∈ q, P e.2) : ∀ {k k' : Int}
    {events : List MatchingEngineMarketUpdate}, scanIncrementals k q = (k', some events) →
    ∀ u ∈ events, P u := by
  induction q with
  | nil =>
    intro k k' events hscan
    obtain ⟨-, hevents⟩ := Prod.mk.inj hscan
    cases hevents
    exact fun _ hu => absurd hu List.not_mem_nil
  | cons e q ih =>
    intro k k' events hscan
    have ih := @ih fun e' he' => h e' (List.mem_cons_of_mem e he')
    rw [scanIncrementals] at hscan
    split at hscan
    · exact ih hscan
    · split at hscan
      · cases hscan
      · obtain ⟨hnext, hmap⟩ := Prod.mk.inj hscan
        obtain ⟨events', hrest, rfl⟩ := Option.map_eq_some_iff.mp hmap
        exact holds_pushEvent (h e List.mem_cons_self) (ih (Prod.ext hnext hrest))

theorem Holds.clearSnapshot (h : Holds P c) : Holds P c.clearSnapshot where
  snapshots := fun _ he => absurd he List.not_mem_nil
  incrementals := h.incrementals
  forwarded := h.forwarded

theorem Holds.finishSync (h : Holds P c) {k : Nat} {events : List MatchingEngineMarketUpdate}
    (hevents : ∀ u ∈ events, P u) : Holds P (c.finishSync k events) := by
  unfold MarketDataConsumer.finishSync
  split
  · exact ⟨fun _ he => absurd he List.not_mem_nil, h.incrementals, h.forwarded⟩
  · next nextExp incrementals hscan =>
    refine ⟨fun _ he => absurd he List.not_mem_nil, fun _ he => absurd he List.not_mem_nil, ?_⟩
    intro u hu
    rcases List.mem_append.mp hu with hu | hu
    · exact h.forwarded u hu
    rcases List.mem_append.mp hu with hu | hu
    · exact hevents u hu
    · exact holds_scanIncrementals h.incrementals hscan u hu

theorem Holds.checkSnapshotSync (h : Holds P c) : Holds P c.checkSnapshotSync := by
  unfold MarketDataConsumer.checkSnapshotSync
  split
  · exact h
  · next first rest hqueue =>
    split
    · exact h.clearSnapshot
    · split
      · exact h.clearSnapshot
      · next events hscan =>
        simp only
        split
        · exact h
        · split
          · exact h.clearSnapshot
          · refine h.finishSync ?_
            obtain ⟨-, rfl⟩ := scanSnapshot_spec hscan
            intro u hu
            obtain ⟨e, he, rfl⟩ := List.mem_map.mp (List.mem_filter.mp hu).1
            exact h.snapshots e (hqueue ▸ he)

theorem Holds.queueMessage (h : Holds P c) (hr : P r.update) (isSnapshot : Bool) :
    Holds P (c.queueMessage isSnapshot r) := by
  cases isSnapshot with
  | false =>
    rw [queueMessage_incremental]
    exact Holds.checkSnapshotSync ⟨h.snapshots, holds_insert h.incrementals hr, h.forwarded⟩
  | true =>
    rw [queueMessage_snapshot]
    refine Holds.checkSnapshotSync ⟨?_, h.incrementals, h.forwarded⟩
    have hempty : ∀ e ∈ (∅ : QueuedMarketUpdates).toList, P e.2 :=
      fun _ he => absurd he List.not_mem_nil
    unfold queueSnapshot
    refine holds_insert ?_ hr
    split
    · exact hempty
    · split
      · exact hempty
      · exact h.snapshots

/-- **A record** brings one update. -/
theorem Holds.recvRecord (h : Holds P c) (hr : P r.update) (isSnapshot : Bool) :
    Holds P (recvRecord isSnapshot c r) := by
  unfold MarketDataConsumer.recvRecord
  split
  · exact h
  split
  · exact h
  split
  · exact h
  simp only
  split
  · refine Holds.queueMessage ?_ hr isSnapshot
    split
    · exact ⟨h.snapshots, h.incrementals, h.forwarded⟩
    · exact ⟨fun _ he => absurd he List.not_mem_nil, fun _ he => absurd he List.not_mem_nil,
        h.forwarded⟩
  · split
    · refine ⟨h.snapshots, h.incrementals, ?_⟩
      intro u hu
      rcases List.mem_append.mp hu with hu | hu
      · exact h.forwarded u hu
      · exact List.mem_singleton.mp hu ▸ hr
    · exact ⟨h.snapshots, h.incrementals, h.forwarded⟩

/-- **A datagram** brings its updates, and no others. -/
theorem Holds.recvCallback (h : Holds P c) {d : Datagram} (hd : ∀ r ∈ d.records, P r.update) :
    Holds P (c.recvCallback d) := by
  obtain ⟨isSnapshot, records⟩ := d
  unfold MarketDataConsumer.recvCallback
  split
  · exact h
  · next hon =>
    clear hon
    dsimp only
    induction records generalizing c with
    | nil => exact h
    | cons r rs ih =>
      exact ih (h.recvRecord (hd r List.mem_cons_self) isSnapshot)
        fun r' hr' => hd r' (List.mem_cons_of_mem r hr')

/-! ## 3. What is forwarded -/

theorem finishSync_forwards (k : Nat) (events : List MatchingEngineMarketUpdate) :
    c.incomingMdUpdates <+: (c.finishSync k events).incomingMdUpdates := by
  unfold finishSync
  split
  · exact List.prefix_rfl
  · exact List.prefix_append _ _

theorem checkSnapshotSync_forwards :
    c.incomingMdUpdates <+: c.checkSnapshotSync.incomingMdUpdates := by
  unfold checkSnapshotSync
  split
  · exact List.prefix_rfl
  · split
    · exact List.prefix_rfl
    · split
      · exact List.prefix_rfl
      · dsimp only
        split
        · exact List.prefix_rfl
        · split
          · exact List.prefix_rfl
          · exact finishSync_forwards _ _

theorem queueMessage_forwards (isSnapshot : Bool) :
    c.incomingMdUpdates <+: (c.queueMessage isSnapshot r).incomingMdUpdates := by
  unfold queueMessage
  cases isSnapshot with
  | false => exact checkSnapshotSync_forwards (c := { c with
      incrementalQueuedMsgs := c.incrementalQueuedMsgs.insert r.seqNum r.update })
  | true => exact checkSnapshotSync_forwards (c := { c with
      snapshotQueuedMsgs := queueSnapshot c.snapshotQueuedMsgs r })

theorem recvRecord_forwards (isSnapshot : Bool) :
    c.incomingMdUpdates <+: (recvRecord isSnapshot c r).incomingMdUpdates := by
  unfold recvRecord
  split
  · exact List.prefix_rfl
  split
  · exact List.prefix_rfl
  split
  · exact List.prefix_rfl
  dsimp only
  split
  · have hsame : ∀ c' : MarketDataConsumer, c'.incomingMdUpdates = c.incomingMdUpdates →
        c.incomingMdUpdates <+: (c'.queueMessage isSnapshot r).incomingMdUpdates :=
      fun c' h => h ▸ queueMessage_forwards isSnapshot
    split
    · exact hsame _ rfl
    · exact hsame _ rfl
  · split
    · exact List.prefix_append _ _
    · exact List.prefix_rfl

/-- **What has been forwarded stays forwarded.** -/
theorem recvCallback_forwards (d : Datagram) :
    c.incomingMdUpdates <+: (c.recvCallback d).incomingMdUpdates := by
  obtain ⟨isSnapshot, records⟩ := d
  unfold recvCallback
  split
  · exact List.prefix_rfl
  · next hon =>
    clear hon
    dsimp only
    induction records generalizing c with
    | nil => exact List.prefix_rfl
    | cons r rs ih => exact (recvRecord_forwards isSnapshot).trans ih

/-- **The invariant survives what is published later.** -/
theorem Inv.extend (h : Inv us a c) {vs : List MatchingEngineMarketUpdate}
    (hshort : (us ++ vs).length < 2 ^ 63) : Inv (us ++ vs) a c where
  short := hshort
  anchor := h.anchor.trans (by simp)
  stitched := h.stitched.extend vs h.anchor
  incremental := by
    intro e he
    obtain ⟨i, hi, hseq⟩ := h.incremental e he
    refine ⟨i, ?_, hseq⟩
    rw [List.getElem?_append_left (List.getElem?_eq_some_iff.mp hi).1]
    exact hi
  applicable := h.applicable
  synced := by
    obtain ⟨n, hn, hfold, hnext⟩ := h.synced
    exact ⟨n, hn.trans (by simp), hfold.trans (marketAt_extend vs hn).symm, hnext⟩
  contiguous := h.contiguous

end MarketDataConsumer

end YQuant
