/-
# The snapshot queue of a recovery

`queueMessage` and `checkSnapshotSync` empty the snapshot queue on many occasions and keep it on
one.  What they leave is either nothing or the beginning of a cycle that is still without its end:
`CleanPrefix`.  Such a queue is not touched by the check that every further message makes
(`checkSnapshotSync_clean`), so a cycle whose messages arrive in order is collected message by
message, whatever arrives on the other channel in between (`Collecting`), and its last message
finds all of it.

* `snapshotQueue_clean`: the queue is a clean prefix after every call during a recovery, whatever
  the messages of the two channels are;
* `cycle_accepted`: when all messages of a cycle arrive in order, the recovery ends with the last
  one, as long as the updates that wait behind the cycle follow one another.

For the first one the messages may be anything, with any numbers and in any order.  The second one
is about one cycle and does not ask what the queue held before: the first message of a cycle
empties it.  Messages of the other channel may come in between, and each of them makes the check
once more, in vain.  That a cycle arrives whole is not promised by the channel; a cycle has a
datagram for each order, and one that is lost makes the cycle useless.
-/
import YQuant.Trading.Recovery

namespace YQuant

open SnapshotSynthesizer.Mirrors (cycleMessages)

/-- Empty, or messages under the keys `0, .., k`, the first a `SNAPSHOT_START` and the last no
`SNAPSHOT_END`. -/
def CleanPrefix (queue : QueuedMarketUpdates) : Prop :=
  queue.isEmpty = true ∨ ∃ k : Nat, queue.keys = (List.range (k + 1)).map Nat.cast ∧
    (∃ u, queue[(0 : Int)]? = some u ∧ u.type = .snapshotStart) ∧
    ∃ u, queue[(k : Int)]? = some u ∧ u.type ≠ .snapshotEnd

/-- The same of the list of a queue. -/
structure Clean (q : List (Int × MatchingEngineMarketUpdate)) : Prop where
  contiguous : Contiguous 0 q
  start : ∀ e, q.head? = some e → e.2.type = .snapshotStart
  unfinished : ∀ e, q.getLast? = some e → e.2.type ≠ .snapshotEnd

theorem Clean.nil : Clean [] where
  contiguous := fun _ _ h => by simp at h
  start := fun _ h => by simp at h
  unfinished := fun _ h => by simp at h

theorem Clean.empty : Clean (∅ : QueuedMarketUpdates).toList := Clean.nil

theorem Clean.cleanPrefix {queue : QueuedMarketUpdates} (h : Clean queue.toList) :
    CleanPrefix queue := by
  cases hlast : queue.toList.getLast? with
  | none =>
    rw [List.getLast?_eq_none_iff] at hlast
    exact .inl (by rw [← Std.TreeMap.isEmpty_toList, hlast]; rfl)
  | some last =>
    have hne : queue.toList ≠ [] := fun hnil => by simp [hnil] at hlast
    obtain ⟨k, hk⟩ : ∃ k, queue.toList.length = k + 1 :=
      Nat.exists_eq_succ_of_ne_zero fun h0 => hne (List.length_eq_zero_iff.mp h0)
    have hfind : ∀ (i : Nat) e, queue.toList[i]? = some e → queue[(i : Int)]? = some e.2 := by
      intro i e hi
      have hkey := h.contiguous i e hi
      rw [Int.zero_add] at hkey
      rw [← hkey]
      exact Std.TreeMap.mem_toList_iff_getElem?_eq_some.mp (List.mem_of_getElem? hi)
    refine .inr ⟨k, ?_, ?_, last.2, hfind k last ?_, h.unfinished _ hlast⟩
    · rw [← Std.TreeMap.map_fst_toList_eq_keys]
      refine List.ext_getElem (by rw [List.length_map, hk]; simp) fun i hi _ => ?_
      rw [List.length_map] at hi
      rw [List.getElem_map, List.getElem_map, List.getElem_range,
        h.contiguous i _ (List.getElem?_eq_getElem hi), Int.zero_add]
    · refine ⟨(queue.toList.head hne).2, hfind 0 _ ?_, h.start _ (List.head?_eq_some_head hne)⟩
      rw [← List.head?_eq_getElem?, List.head?_eq_some_head hne]
    · rw [List.getLast?_eq_getElem?, hk] at hlast
      exact hlast

/-- Without a gap the loop over the snapshot messages gets to its end. -/
theorem scanSnapshot_of_contiguous {q : List (Int × MatchingEngineMarketUpdate)} :
    ∀ {k : Int}, Contiguous k q → MarketDataConsumer.scanSnapshot k q =
      some ((q.map Prod.snd).filter MarketDataConsumer.isEvent) := by
  induction q with
  | nil => exact fun _ => rfl
  | cons e q ih =>
    intro k h
    obtain ⟨seq, u⟩ := e
    have hseq : seq = k := by simpa using h 0 _ rfl
    have hrest : Contiguous (k + 1) q := fun i e hi => by
      have := h (i + 1) e hi
      push_cast at this
      omega
    rw [MarketDataConsumer.scanSnapshot, if_neg (by simp [hseq]), ih hrest, List.map_cons,
      List.filter_cons]
    rfl

namespace MarketDataConsumer

variable {c : MarketDataConsumer} {r : MarketDataPublisherMarketUpdate}

/-! ## 1. What a check leaves -/

/-- `c'` is still in the recovery of `c` and has forwarded nothing. -/
def StillRecovering (c c' : MarketDataConsumer) : Prop :=
  c'.inRecovery = true → c.inRecovery = true ∧ c'.incomingMdUpdates = c.incomingMdUpdates

theorem finishSync_clean (c : MarketDataConsumer) (lastIncSeqNum : Nat)
    (events : List MatchingEngineMarketUpdate) :
    Clean (c.finishSync lastIncSeqNum events).snapshotQueuedMsgs.toList ∧
      c.StillRecovering (c.finishSync lastIncSeqNum events) := by
  unfold finishSync
  split
  · exact ⟨Clean.empty, fun h => ⟨h, rfl⟩⟩
  · exact ⟨Clean.empty, fun h => by cases h⟩

/-- **What `checkSnapshotSync` leaves**, whatever it finds. -/
theorem clean_checkSnapshotSync (c : MarketDataConsumer) :
    Clean c.checkSnapshotSync.snapshotQueuedMsgs.toList ∧
      c.StillRecovering c.checkSnapshotSync := by
  have hclear : Clean c.clearSnapshot.snapshotQueuedMsgs.toList ∧
      c.StillRecovering c.clearSnapshot := ⟨Clean.empty, fun h => ⟨h, rfl⟩⟩
  unfold checkSnapshotSync
  split
  · next hempty =>
    refine ⟨?_, fun h => ⟨h, rfl⟩⟩
    rw [hempty]
    exact Clean.nil
  · next first rest hqueue =>
    split
    · exact hclear
    · next hstart =>
      split
      · exact hclear
      · next events hscan =>
        simp only
        split
        · -- the only occasion on which the queue is kept
          next hend =>
          refine ⟨?_, fun h => ⟨h, rfl⟩⟩
          rw [hqueue]
          refine ⟨(scanSnapshot_spec hscan).1, fun e he => ?_, fun e he => ?_⟩
          · rw [← Option.some.inj he]
            exact Decidable.not_not.mp hstart
          · rw [List.getLast?_eq_some_getLast (List.cons_ne_nil _ _)] at he
            rw [← Option.some.inj he]
            exact hend
        · split
          · exact hclear
          · exact finishSync_clean c _ events

theorem clean_queueMessage (c : MarketDataConsumer) (isSnapshot : Bool)
    (r : MarketDataPublisherMarketUpdate) :
    Clean (c.queueMessage isSnapshot r).snapshotQueuedMsgs.toList ∧
      c.StillRecovering (c.queueMessage isSnapshot r) := by
  cases isSnapshot with
  | false =>
    rw [queueMessage_incremental]
    exact clean_checkSnapshotSync
      { c with incrementalQueuedMsgs := c.incrementalQueuedMsgs.insert r.seqNum r.update }
  | true =>
    rw [queueMessage_snapshot]
    exact clean_checkSnapshotSync
      { c with snapshotQueuedMsgs := queueSnapshot c.snapshotQueuedMsgs r }

/-- `queueMessage` for a message of either channel. -/
def queueArrival (c : MarketDataConsumer) (message : Bool × MarketDataPublisherMarketUpdate) :
    MarketDataConsumer :=
  c.queueMessage message.1 message.2

/-- **The snapshot queue is always a clean prefix.**  From the start of a recovery on, whatever
messages of the two channels are passed to `queueMessage`: after every call that is made during the
recovery the snapshot queue is empty or has the keys `0, .., k` with a `SNAPSHOT_START` first and no
`SNAPSHOT_END` last, and nothing has been forwarded since the start unless the call has ended the
recovery. -/
theorem snapshotQueue_clean (c : MarketDataConsumer)
    (messages : List (Bool × MarketDataPublisherMarketUpdate)) :
    Run.AlongRun queueArrival
      (fun s message => s.inRecovery = true →
        CleanPrefix (s.queueArrival message).snapshotQueuedMsgs ∧
        ((s.queueArrival message).inRecovery = true →
          (s.queueArrival message).incomingMdUpdates = c.incomingMdUpdates))
      { c with inRecovery := true }.startSnapshotSync messages := by
  have hstart : { c with inRecovery := true }.startSnapshotSync.inRecovery = true →
      { c with inRecovery := true }.startSnapshotSync.incomingMdUpdates = c.incomingMdUpdates :=
    fun _ => rfl
  generalize { c with inRecovery := true }.startSnapshotSync = s at hstart ⊢
  induction messages generalizing s with
  | nil => trivial
  | cons message messages ih =>
    obtain ⟨hclean, hstill⟩ := clean_queueMessage s message.1 message.2
    have hforward : (s.queueArrival message).inRecovery = true →
        (s.queueArrival message).incomingMdUpdates = c.incomingMdUpdates := fun h =>
      (hstill h).2.trans (hstart (hstill h).1)
    exact ⟨fun _ => ⟨hclean.cleanPrefix, hforward⟩, ih _ hforward⟩

/-! ## 2. A clean queue is left alone -/

/-- The check does nothing as long as the end of the cycle is missing. -/
theorem checkSnapshotSync_clean (h : Clean c.snapshotQueuedMsgs.toList) :
    c.checkSnapshotSync = c := by
  unfold checkSnapshotSync
  split
  · rfl
  · next first rest hqueue =>
    rw [hqueue] at h
    rw [if_neg (not_not.mpr (h.start _ rfl)), scanSnapshot_of_contiguous h.contiguous]
    simp only
    rw [if_pos (h.unfinished _ (List.getLast?_eq_some_getLast (List.cons_ne_nil _ _)))]

theorem clean_recvRecord (h : Clean c.snapshotQueuedMsgs.toList) (isSnapshot : Bool)
    (r : MarketDataPublisherMarketUpdate) :
    Clean (recvRecord isSnapshot c r).snapshotQueuedMsgs.toList := by
  unfold recvRecord
  split
  · exact h
  · split
    · exact h
    · split
      · exact h
      · simp only
        split
        · exact (clean_queueMessage _ isSnapshot r).1
        · split
          · exact h
          · exact h

/-- A datagram is its records, one after the other: outside a recovery a snapshot record does
nothing. -/
theorem recvCallback_eq (c : MarketDataConsumer) (d : Datagram) :
    c.recvCallback d = d.records.foldl (recvRecord d.isSnapshot) c := by
  unfold recvCallback
  split
  · next hunwanted =>
    rw [Bool.and_eq_true, Bool.not_eq_true'] at hunwanted
    obtain ⟨hsnapshot, hrec⟩ := hunwanted
    rw [hsnapshot]
    induction d.records with
    | nil => rfl
    | cons r rs ih => rw [List.foldl_cons, recvRecord_unwanted hrec, ← ih]
  · rfl

/-- **Whatever has arrived**, the snapshot queue is clean. -/
theorem clean_received (h : Clean c.snapshotQueuedMsgs.toList) (received : List Datagram) :
    Clean (received.foldl recvCallback c).snapshotQueuedMsgs.toList := by
  induction received generalizing c with
  | nil => exact h
  | cons d received ih =>
    refine ih ?_
    rw [recvCallback_eq]
    induction d.records generalizing c with
    | nil => exact h
    | cons r rs ih' => exact ih' (clean_recvRecord h d.isSnapshot r)

/-! ## 3. A cycle arrives -/

/-- A record under its key. -/
def keyed (r : MarketDataPublisherMarketUpdate) : Int × MatchingEngineMarketUpdate :=
  (r.seqNum, r.update)

/-- The records of the snapshot channel. -/
def snapshotRecords (received : List Datagram) : List MarketDataPublisherMarketUpdate :=
  (received.filter (·.isSnapshot)).flatMap (·.records)

/-- A cycle made after update `n`. -/
structure IsCycle (n : Nat) (body : List MatchingEngineMarketUpdate)
    (cycle : List MarketDataPublisherMarketUpdate) : Prop where
  types : ∀ u ∈ body, u.type = .clear ∨ u.type = .add
  records : cycle = numbered 0 (⟨.snapshotStart, 0, n, .unset, 0, 0, 0⟩ :: body ++
    [⟨.snapshotEnd, 0, n, .unset, 0, 0, 0⟩])

/-- Some records of a cycle have arrived, in order and without the last one, and nothing has been
forwarded beyond `forwarded`.  What the queue held before the first of them is no matter as long as
it is clean. -/
structure Collecting (arrived : List MarketDataPublisherMarketUpdate)
    (forwarded : List MatchingEngineMarketUpdate) (c : MarketDataConsumer) : Prop where
  recovering : c.inRecovery = true
  forwarded : c.incomingMdUpdates = forwarded
  clean : Clean c.snapshotQueuedMsgs.toList
  queued : arrived ≠ [] → c.snapshotQueuedMsgs.toList = arrived.map keyed

section Cycle

variable {n : Nat} {body forwarded queued : List MatchingEngineMarketUpdate}
  {cycle arrived rest rs : List MarketDataPublisherMarketUpdate}

namespace IsCycle

theorem getElem?_keyed (h : IsCycle n body cycle) {i : Nat} {e : Int × MatchingEngineMarketUpdate}
    (hi : (cycle.map keyed)[i]? = some e) : e.1 = i ∧
      ((⟨.snapshotStart, 0, n, .unset, 0, 0, 0⟩ :: body ++
        [⟨.snapshotEnd, 0, n, .unset, 0, 0, 0⟩] : List MatchingEngineMarketUpdate))[i]? =
        some e.2 := by
  rw [h.records, List.getElem?_map, getElem?_numbered, Option.map_map] at hi
  obtain ⟨u, hu, rfl⟩ := Option.map_eq_some_iff.mp hi
  exact ⟨by simp [keyed], hu⟩

theorem updates (h : IsCycle n body cycle) : (cycle.map keyed).map Prod.snd =
    ⟨.snapshotStart, 0, n, .unset, 0, 0, 0⟩ :: body ++ [⟨.snapshotEnd, 0, n, .unset, 0, 0, 0⟩] := by
  rw [List.map_map, h.records]
  exact map_update_numbered 0

theorem contiguous (h : IsCycle n body cycle) : Contiguous 0 (cycle.map keyed) := by
  intro i e hi
  rw [(h.getElem?_keyed hi).1, Int.zero_add]

/-- **A cycle without its end is clean.** -/
theorem clean_prefix (h : IsCycle n body cycle) (hsplit : cycle = arrived ++ rest)
    (hrest : rest ≠ []) : Clean (arrived.map keyed) := by
  have hget : ∀ (i : Nat) e, (arrived.map keyed)[i]? = some e → (cycle.map keyed)[i]? = some e := by
    intro i e hi
    have hlt := (List.getElem?_eq_some_iff.mp hi).1
    rw [hsplit, List.map_append, List.getElem?_append_left hlt, hi]
  have hlen : arrived.length < body.length + 2 := by
    have hcycle := congrArg List.length h.records
    rw [hsplit, List.length_append, length_numbered] at hcycle
    have := List.length_pos_iff.mpr hrest
    simp at hcycle
    omega
  refine ⟨fun i e hi => h.contiguous i e (hget i e hi), fun e he => ?_, fun e he => ?_⟩
  · rw [List.head?_eq_getElem?] at he
    obtain ⟨-, hu⟩ := h.getElem?_keyed (hget 0 e he)
    rw [← Option.some.inj hu]
  · rw [List.getLast?_eq_getElem?] at he
    obtain ⟨-, hu⟩ := h.getElem?_keyed (hget _ e he)
    have hlt := (List.getElem?_eq_some_iff.mp he).1
    rw [List.length_map] at hu hlt
    rw [List.getElem?_append_left (by simp; omega)] at hu
    rcases List.mem_cons.mp (List.mem_of_getElem? hu) with hfirst | hmem
    · rw [hfirst]
      exact fun h => by cases h
    · rcases h.types _ hmem with htype | htype
      · rw [htype]
        exact fun h => by cases h
      · rw [htype]
        exact fun h => by cases h

theorem seqNum_eq (h : IsCycle n body cycle) (hsplit : cycle = arrived ++ r :: rest) :
    r.seqNum = arrived.length := by
  refine (h.getElem?_keyed (i := arrived.length) (e := keyed r) ?_).1
  rw [hsplit, List.map_append, List.map_cons, List.getElem?_append_right (by simp)]
  simp

theorem seqNum_nonneg (h : IsCycle n body cycle) (hsplit : cycle = arrived ++ r :: rest) :
    ¬ r.seqNum < 0 := by
  rw [h.seqNum_eq hsplit]
  omega

/-- The events of a cycle are its `CLEAR` and `ADD` messages. -/
theorem events (h : IsCycle n body cycle) :
    (cycle.map (·.update)).filter (fun u => decide (u.type = .clear ∨ u.type = .add)) = body ∧
      ((cycle.map keyed).map Prod.snd).filter isEvent = body := by
  have hfilter : ∀ p : MatchingEngineMarketUpdate → Bool,
      p ⟨.snapshotStart, 0, n, .unset, 0, 0, 0⟩ = false →
      p ⟨.snapshotEnd, 0, n, .unset, 0, 0, 0⟩ = false → (∀ u ∈ body, p u = true) →
      ((cycle.map keyed).map Prod.snd).filter p = body := by
    intro p hfirst hlast hbody
    rw [h.updates, List.filter_append, List.filter_cons, hfirst,
      List.filter_eq_self.mpr hbody, List.filter_singleton, hlast]
    simp
  refine ⟨?_, hfilter _ rfl rfl fun u hu => ?_⟩
  · have hclear := hfilter _ rfl rfl fun u hu => decide_eq_true (h.types u hu)
    rwa [List.map_map] at hclear
  · rcases h.types u hu with htype | htype <;> simp [isEvent, htype]

end IsCycle

/-- The next record of a cycle goes behind those that have arrived. -/
theorem Collecting.queueSnapshot_toList (h : Collecting arrived forwarded c)
    (hcycle : IsCycle n body cycle) (hsplit : cycle = arrived ++ r :: rest) :
    (queueSnapshot c.snapshotQueuedMsgs r).toList = (arrived ++ [r]).map keyed := by
  have hseq := hcycle.seqNum_eq hsplit
  have hempty : ((∅ : QueuedMarketUpdates).insert r.seqNum r.update).toList = [keyed r] :=
    toList_insert_last (by simp) _
  unfold queueSnapshot
  cases harrived : arrived with
  | nil =>
    rw [harrived] at hseq
    have hzero : r.seqNum = 0 := hseq
    simpa [hzero] using hempty
  | cons a as =>
    have hne : arrived ≠ [] := by rw [harrived]; exact List.cons_ne_nil a as
    have hqueue := h.queued hne
    have hlast : ∀ e ∈ c.snapshotQueuedMsgs.toList, e.1 < r.seqNum := by
      intro e he
      obtain ⟨i, hi⟩ := List.mem_iff_getElem?.mp he
      have hkey := h.clean.contiguous i e hi
      have hlt := (List.getElem?_eq_some_iff.mp hi).1
      rw [hqueue, List.length_map] at hlt
      omega
    have hnot : ¬ c.snapshotQueuedMsgs.contains r.seqNum = true := by
      rw [Std.TreeMap.contains_eq_isSome_getElem?, Option.isSome_iff_exists]
      rintro ⟨u, hu⟩
      exact Int.lt_irrefl _ (hlast _ (Std.TreeMap.mem_toList_iff_getElem?_eq_some.mpr hu))
    have hzero : ¬ r.seqNum = 0 := by
      rw [hseq, harrived, List.length_cons]
      omega
    simp only [if_neg hzero, if_neg hnot]
    rw [toList_insert_last hlast, hqueue, harrived, List.map_append]
    rfl

/-- A record of the incremental channel. -/
theorem Collecting.recvIncremental (h : Collecting arrived forwarded c)
    (r : MarketDataPublisherMarketUpdate) :
    Collecting arrived forwarded (recvRecord false c r) := by
  by_cases hseq : r.seqNum < 0
  · rw [show recvRecord false c r = c by simp [recvRecord, hseq]]
    exact h
  · rw [recvRecord_recovering h.recovering false hseq, queueMessage_incremental,
      checkSnapshotSync_clean (by exact h.clean)]
    exact ⟨h.recovering, h.forwarded, h.clean, h.queued⟩

/-- **The next record of the cycle**, not its last one. -/
theorem Collecting.recvSnapshot (h : Collecting arrived forwarded c) (hcycle : IsCycle n body cycle)
    (hsplit : cycle = arrived ++ r :: rest) (hrest : rest ≠ []) :
    Collecting (arrived ++ [r]) forwarded (recvRecord true c r) ∧
      (recvRecord true c r).incrementalQueuedMsgs = c.incrementalQueuedMsgs := by
  have hqueue := h.queueSnapshot_toList hcycle hsplit
  have hclean : Clean ((arrived ++ [r]).map keyed) :=
    hcycle.clean_prefix (by rw [hsplit, List.append_assoc]; rfl) hrest
  rw [recvRecord_recovering h.recovering true (hcycle.seqNum_nonneg hsplit), queueMessage_snapshot,
    checkSnapshotSync_clean (by rw [hqueue]; exact hclean)]
  exact ⟨⟨h.recovering, h.forwarded, by rw [hqueue]; exact hclean, fun _ => hqueue⟩, rfl⟩

theorem Collecting.recvSnapshots (h : Collecting arrived forwarded c)
    (hcycle : IsCycle n body cycle) (hsplit : cycle = arrived ++ (rs ++ rest)) (hrest : rest ≠ []) :
    Collecting (arrived ++ rs) forwarded (rs.foldl (recvRecord true) c) ∧
      (rs.foldl (recvRecord true) c).incrementalQueuedMsgs = c.incrementalQueuedMsgs := by
  induction rs generalizing c arrived with
  | nil => exact ⟨by simpa using h, rfl⟩
  | cons r rs ih =>
    obtain ⟨hnext, hincrementals⟩ := h.recvSnapshot hcycle hsplit (by simp [hrest])
    obtain ⟨hall, hincrementals'⟩ := ih hnext (by rw [hsplit]; simp)
    exact ⟨by simpa using hall, hincrementals'.trans hincrementals⟩

/-- **Part of a cycle**, in datagrams of any size, among any datagrams of the other channel. -/
theorem Collecting.received {received : List Datagram} (h : Collecting arrived forwarded c)
    (hcycle : IsCycle n body cycle) (hsplit : cycle = arrived ++ (snapshotRecords received ++ rest))
    (hrest : rest ≠ []) :
    Collecting (arrived ++ snapshotRecords received) forwarded (received.foldl recvCallback c) := by
  induction received generalizing c arrived with
  | nil => simpa [snapshotRecords] using h
  | cons d received ih =>
    obtain ⟨isSnapshot, records⟩ := d
    rw [List.foldl_cons, recvCallback_eq]
    cases isSnapshot with
    | false =>
      have hsame : snapshotRecords (⟨false, records⟩ :: received) = snapshotRecords received := rfl
      rw [hsame] at hsplit ⊢
      refine ih ?_ hsplit
      clear ih hsplit hsame
      induction records generalizing c with
      | nil => exact h
      | cons r rs ih => exact ih (h.recvIncremental r)
    | true =>
      have hmore : snapshotRecords (⟨true, records⟩ :: received) =
          records ++ snapshotRecords received := rfl
      rw [hmore, List.append_assoc] at hsplit
      rw [hmore, ← List.append_assoc]
      exact ih (h.recvSnapshots hcycle hsplit (by simp [hrest])).1 (by rw [hsplit]; simp)

/-! ## 4. The end of the cycle -/

/-- An entry under another key is behind the first one. -/
theorem mem_of_key_ne {e : Int × MatchingEngineMarketUpdate}
    {q : List (Int × MatchingEngineMarketUpdate)} {k : Int} {u : MatchingEngineMarketUpdate}
    (hmem : (k, u) ∈ e :: q) (hne : e.1 ≠ k) : (k, u) ∈ q := by
  rcases List.mem_cons.mp hmem with rfl | hmem
  · exact absurd rfl hne
  · exact hmem

/-- **The loop over the incremental messages** when those from a number on follow one another. -/
theorem scanIncrementals_of_consecutive {q : List (Int × MatchingEngineMarketUpdate)}
    (hasc : q.Pairwise fun e e' => e.1 < e'.1) : ∀ {k : Int}
      {queued : List MatchingEngineMarketUpdate},
      (∀ (i : Nat) u, (k + i, u) ∈ q ↔ queued[i]? = some u) →
      scanIncrementals k q = (k + queued.length, some (queued.filter isEvent)) := by
  induction q with
  | nil =>
    intro k queued h
    cases queued with
    | nil => simp [scanIncrementals]
    | cons u us => exact absurd ((h 0 u).mpr rfl) List.not_mem_nil
  | cons e q ih =>
    intro k queued h
    obtain ⟨seq, u⟩ := e
    obtain ⟨hfirst, hrest⟩ := List.pairwise_cons.mp hasc
    rw [scanIncrementals]
    by_cases hold : seq < k
    · rw [if_pos hold]
      exact ih hrest fun i v => ⟨fun hv => (h i v).mp (List.mem_cons_of_mem _ hv), fun hv =>
        mem_of_key_ne ((h i v).mpr hv) (by omega)⟩
    · rw [if_neg hold]
      -- the first message that is not old is the next one: it is there, and none is before it
      have hseq : seq = k := by
        obtain ⟨i, hi⟩ := Int.le.dest (Int.not_lt.mp hold)
        have hqueued := (h i u).mp (by rw [hi]; exact List.mem_cons_self)
        have hpos : 0 < queued.length := by
          have := (List.getElem?_eq_some_iff.mp hqueued).1
          omega
        by_contra hne
        have := hfirst _ (mem_of_key_ne ((h 0 _).mpr (List.getElem?_eq_getElem hpos)) (by omega))
        omega
      subst hseq
      rw [if_neg (not_not.mpr rfl)]
      obtain ⟨queued', rfl⟩ : ∃ queued', queued = u :: queued' := by
        have hzero := (h 0 u).mp (by simp)
        cases queued with
        | nil => cases hzero
        | cons v queued' => exact ⟨queued', by rw [Option.some.inj hzero]⟩
      have hnext : ∀ (i : Nat) v, (seq + 1 + i, v) ∈ q ↔ queued'[i]? = some v := by
        intro i v
        have hi := h (i + 1) v
        rw [List.getElem?_cons_succ] at hi
        rw [← hi, show seq + ((i + 1 : Nat) : Int) = seq + 1 + i by push_cast; omega]
        exact ⟨List.mem_cons_of_mem _, fun hmem => mem_of_key_ne hmem (by omega)⟩
      simp only [ih hrest hnext, List.length_cons, List.filter_cons, Option.map_some, pushEvent]
      refine Prod.ext ?_ rfl
      push_cast
      omega

/-- **The last record of the cycle** completes the recovery. -/
theorem Collecting.complete (h : Collecting arrived forwarded c) (hcycle : IsCycle n body cycle)
    (hsplit : cycle = arrived ++ [r]) (hshort : n < 2 ^ 63)
    (hqueued : ∀ i : Nat, c.incrementalQueuedMsgs[(n + 1 + i : Int)]? = queued[i]?) :
    recvRecord true c r = ⟨n + 1 + queued.length, false, ∅, ∅,
      forwarded ++ (body ++ queued.filter isEvent)⟩ := by
  have hqueue := h.queueSnapshot_toList hcycle hsplit
  rw [← hsplit] at hqueue
  have hscan : scanIncrementals (n + 1) c.incrementalQueuedMsgs.toList =
      ((n : Int) + 1 + queued.length, some (queued.filter isEvent)) :=
    scanIncrementals_of_consecutive
      (by simpa only [Int.compare_eq_lt] using c.incrementalQueuedMsgs.ordered_keys_toList)
      fun i u => by rw [Std.TreeMap.mem_toList_iff_getElem?_eq_some, hqueued]
  have hsnapshot := scanSnapshot_of_contiguous hcycle.contiguous
  rw [hcycle.events.2] at hsnapshot
  rw [recvRecord_recovering h.recovering true (hcycle.seqNum_nonneg hsplit), queueMessage_snapshot]
  unfold checkSnapshotSync
  split
  · next hempty =>
    have hlen := congrArg List.length (hempty.symm.trans hqueue)
    rw [hsplit] at hlen
    simp at hlen
  · next first rest hlist =>
    have hall : first :: rest = cycle.map keyed := hlist.symm.trans hqueue
    have hupdates := hcycle.updates
    rw [← hall] at hsnapshot hupdates
    have hfirst : first.2 = ⟨.snapshotStart, 0, n, .unset, 0, 0, 0⟩ := (List.cons.inj hupdates).1
    have hlast : ((first :: rest).getLast (List.cons_ne_nil first rest)).2 =
        ⟨.snapshotEnd, 0, n, .unset, 0, 0, 0⟩ := by
      rw [← List.getLast_map (f := Prod.snd) (by simp)]
      simp only [hupdates]
      simp
    rw [if_neg (by rw [hfirst]; simp), hsnapshot]
    simp only
    rw [hlast, if_neg (by simp), if_neg (by rw [hfirst]; simp), finishSync, ssize_eq hshort]
    simp only [hscan, h.forwarded]

end Cycle

/-! ## 5. Acceptance -/

/-- **A complete snapshot cycle is always accepted.**  The consumer has received anything and is in
a recovery; then all records of a cycle arrive in order, in datagrams of any size among any
datagrams of the incremental channel, and when the last of them arrives the queued incremental
messages after the anchor `S` of the cycle are `S + 1, .., S + m`.  That message ends the recovery:
what is forwarded is the `CLEAR` and `ADD` messages of the cycle and then these `m` updates, both
queues are empty and `S + m + 1` is expected next.  (An incremental message that names itself
`SNAPSHOT_START` or `SNAPSHOT_END` would be counted and left out.)  The numbers have to fit the
signed counter, as those of any stream do that an engine can publish. -/
theorem cycle_accepted {updates cycle : List MarketDataPublisherMarketUpdate}
    {s : SnapshotSynthesizer}
    (hreach : updates.foldlM SnapshotSynthesizer.addToSnapshot .init = .ok s)
    (hcycle : s.publishSnapshot = .ok cycle) (past : List Datagram)
    (hrec : (past.foldl recvCallback init).inRecovery = true) (received : List Datagram)
    (packet : List MarketDataPublisherMarketUpdate) (hpacket : packet ≠ [])
    (harrive : snapshotRecords received ++ packet = cycle)
    (queued : List MatchingEngineMarketUpdate)
    (hqueued : ∀ i : Nat, ((past ++ received).foldl recvCallback init).incrementalQueuedMsgs[
      (s.lastIncSeqNum + 1 + i : Int)]? = queued[i]?)
    (hfits : s.lastIncSeqNum + queued.length + 1 < 2 ^ 63) :
    let c := past.foldl recvCallback init
    let c' := (received ++ [(⟨true, packet⟩ : Datagram)]).foldl recvCallback c
    c'.inRecovery = false ∧ c'.snapshotQueuedMsgs.isEmpty = true ∧
      c'.incrementalQueuedMsgs.isEmpty = true ∧
      c'.nextExpIncSeqNum = (s.lastIncSeqNum : Int) + queued.length + 1 ∧
      c'.incomingMdUpdates = c.incomingMdUpdates ++
        ((cycle.map (·.update)).filter (fun u => decide (u.type = .clear ∨ u.type = .add)) ++
          queued.filter isEvent) ∧
      ((∀ u ∈ queued, isEvent u = true) → c'.incomingMdUpdates = c.incomingMdUpdates ++
        ((cycle.map (·.update)).filter (fun u => decide (u.type = .clear ∨ u.type = .add)) ++
          queued)) := by
  intro c c'
  obtain ⟨body, htypes, hrecords⟩ := SnapshotSynthesizer.publishSnapshot_cycle hreach hcycle
  have hiscycle : IsCycle s.lastIncSeqNum body cycle := ⟨htypes, hrecords⟩
  have hstart : Collecting [] c.incomingMdUpdates c :=
    ⟨hrec, rfl, clean_received (c := init) Clean.empty past, fun h => absurd rfl h⟩
  -- the datagrams before the last one, its records but the last, and the last record
  have hsplit : cycle = [] ++ (snapshotRecords received ++ packet) := harrive.symm
  have hsplit' : cycle = [] ++ snapshotRecords received ++
      (packet.dropLast ++ [packet.getLast hpacket]) := by
    rw [List.dropLast_append_getLast, List.nil_append, harrive]
  have hmost := hstart.received hiscycle hsplit hpacket
  rw [List.foldl_append] at hqueued
  obtain ⟨hlast, hincrementals⟩ := hmost.recvSnapshots hiscycle hsplit' (by simp)
  rw [← List.append_assoc] at hsplit'
  rw [← hincrementals] at hqueued
  have hdone := hlast.complete hiscycle hsplit' (by omega) hqueued
  have hc' : c' = ⟨s.lastIncSeqNum + 1 + queued.length, false, ∅, ∅,
      c.incomingMdUpdates ++ (body ++ queued.filter isEvent)⟩ := by
    rw [← hdone]
    change (received ++ [(⟨true, packet⟩ : Datagram)]).foldl recvCallback c = _
    rw [List.foldl_append, List.foldl_cons, List.foldl_nil, recvCallback_eq]
    change packet.foldl (recvRecord true) _ = _
    conv_lhs => rw [← List.dropLast_append_getLast hpacket, List.foldl_append]
    rfl
  rw [hc', hiscycle.events.1]
  refine ⟨rfl, rfl, rfl, by simp only; omega, rfl, fun hevents => ?_⟩
  rw [List.filter_eq_self.mpr hevents]

/-- The second update overtakes the first, which comes between the two datagrams of a cycle made
before either. -/
theorem cycle_accepted_overtaken :
    (([Datagram.mk true ((numbered 0 (cycleMessages .empty 0)).take 4),
        Datagram.mk false [⟨1, ⟨.add, 3, 7, .buy, 99, 5, 1⟩⟩]] ++
        [Datagram.mk true ((numbered 0 (cycleMessages .empty 0)).drop 4)]).foldl recvCallback
      ([Datagram.mk false [⟨2, ⟨.add, 3, 8, .buy, 100, 5, 1⟩⟩]].foldl recvCallback
        init)).incomingMdUpdates =
      (List.range kMaxSymbols).map (fun symbol => ⟨.clear, symbol, 0, .unset, 0, 0, 0⟩) ++
        [⟨.add, 3, 7, .buy, 99, 5, 1⟩, ⟨.add, 3, 8, .buy, 100, 5, 1⟩] := by
  have hcycle := (SnapshotSynthesizer.mirrors_init fun _ => id).publishSnapshot_eq
    fun _ _ => List.Pairwise.nil
  have hlist : (([⟨false, [⟨2, ⟨.add, 3, 8, .buy, 100, 5, 1⟩⟩]⟩] ++
      [⟨true, (numbered 0 (cycleMessages .empty 0)).take 4⟩,
        ⟨false, [⟨1, ⟨.add, 3, 7, .buy, 99, 5, 1⟩⟩]⟩] : List Datagram).foldl
      recvCallback init).incrementalQueuedMsgs.toList =
      [(1, ⟨.add, 3, 7, .buy, 99, 5, 1⟩), (2, ⟨.add, 3, 8, .buy, 100, 5, 1⟩)] := by decide +kernel
  obtain ⟨-, -, -, -, -, hevents⟩ := @cycle_accepted [] _ _ rfl hcycle
    [⟨false, [⟨2, ⟨.add, 3, 8, .buy, 100, 5, 1⟩⟩]⟩] (by decide +kernel)
    [⟨true, (numbered 0 (cycleMessages .empty 0)).take 4⟩,
      ⟨false, [⟨1, ⟨.add, 3, 7, .buy, 99, 5, 1⟩⟩]⟩]
    ((numbered 0 (cycleMessages .empty 0)).drop 4) (by decide +kernel) (by decide +kernel)
    [⟨.add, 3, 7, .buy, 99, 5, 1⟩, ⟨.add, 3, 8, .buy, 100, 5, 1⟩] (fun i => by
      refine Option.ext fun u => ?_
      rw [← Std.TreeMap.mem_toList_iff_getElem?_eq_some, hlist]
      match i with
      | 0 => simp [SnapshotSynthesizer.init, eq_comm]
      | 1 => simp [SnapshotSynthesizer.init, eq_comm]
      | i + 2 =>
        simp [SnapshotSynthesizer.init]
        omega) (by decide)
  refine (hevents (by decide)).trans ?_
  decide +kernel

end MarketDataConsumer

end YQuant
