/-
# Recovery is sound

`marketAt us n` is the live orders after the first `n` updates of the stream.  Outside a recovery
the consumer has forwarded what leads to `marketAt us n`, where `n + 1` is the next number it
expects; a recovery has to get there again from a snapshot cycle and later updates.

Only the first and the last message of a cycle say from which updates it was made, and the messages
in between may come from several cycles, some of them lost in part.  What saves the consumer is
order: the snapshot queue holds the messages `0, 1, .., k`, each from a cycle no earlier than the
one before it (`Stitched`).  Cycles never go back in the stream, so a first and a last message made
from the same updates leave no room for another cycle in between (`Stitched.of_anchors`).

Every event that is forwarded is applicable where it arrives: a cycle replaces the orders of all
symbols and can be applied to anything (`cycle_replay`), and what follows it is a segment of the
stream from the right place on (`applicable_segment`).  Datagrams of the incremental channel may
come twice, late, or never.

It is soundness only.  Whether a recovery ends depends on the arrival of a whole cycle
(`SnapshotQueue.lean`), and that everything ends well in the whole loop is put together in
`CaughtUp.lean`.
-/
import YQuant.Lib.Channel
import YQuant.Matcher.MessageCounts
import YQuant.Trading.MarketDataConsumer
import YQuant.Trading.SnapshotRebuild

namespace YQuant

open SnapshotSynthesizer.Mirrors (cycleMessages)

/-- The live orders after the first `n` updates. -/
def marketAt (us : List MatchingEngineMarketUpdate) (n : Nat) : Market :=
  (us.take n).foldl replayMarket .empty

/-- An update that the books of a client can apply. -/
def ApplicableMarket (M : Market) (u : MatchingEngineMarketUpdate) : Prop :=
  u.symbolId < kMaxSymbols ∧ MarketOrderBook.Applicable (M u.symbolId) u

/-- Live orders as the updates of the engine leave them. -/
def ConsistentMarket (M : Market) : Prop :=
  (∀ s, Consistent kDefaultPriceBand (M s)) ∧ ∀ s, kMaxSymbols ≤ s → M s = []

/-! ## 1. The stream -/

theorem ConsistentMarket.empty : ConsistentMarket .empty :=
  ⟨fun _ => Consistent.nil _, fun _ _ => rfl⟩

theorem ConsistentMarket.step {M : Market} (h : ConsistentMarket M) {u : MatchingEngineMarketUpdate}
    (hu : PublishedMarket kDefaultPriceBand M u) : ConsistentMarket (replayMarket M u) := by
  obtain ⟨hsym, hu⟩ := hu
  refine ⟨fun s => ?_, fun s hs => ?_⟩
  · rw [replayMarket, Function.update_apply]
    split
    · exact Published.consistent (h.1 _) hu
    · exact h.1 s
  · rw [replayMarket, Function.update_of_ne (by omega), h.2 s hs]

section Published

variable {us : List MatchingEngineMarketUpdate} {n : Nat}

theorem marketAt_append {m : Nat} (h : n ≤ m) :
    marketAt us m = ((us.take m).drop n).foldl replayMarket (marketAt us n) := by
  rw [marketAt, marketAt, ← List.foldl_append]
  congr 1
  conv_lhs => rw [← List.take_append_drop n (us.take m), List.take_take, min_eq_left h]

/-- **What the stream leaves is consistent.** -/
theorem consistent_marketAt (h : Run.AlongRun replayMarket (PublishedMarket kDefaultPriceBand)
    .empty us) (n : Nat) : ConsistentMarket (marketAt us n) := by
  rw [← List.take_append_drop n us, Run.alongRun_append] at h
  exact h.1.inv (fun _ _ hM hu => hM.step hu) ConsistentMarket.empty

/-- **What the stream says can be applied**, from any place on and as far as one likes. -/
theorem applicable_segment (h : Run.AlongRun replayMarket (PublishedMarket kDefaultPriceBand)
    .empty us) (n m : Nat) :
    Run.AlongRun replayMarket ApplicableMarket (marketAt us n) ((us.take m).drop n) := by
  rcases Nat.le_total n m with hle | hle
  · have hsplit : us = us.take n ++ ((us.take m).drop n ++ us.drop m) := by
      conv_lhs => rw [← List.take_append_drop m us, ← List.take_append_drop n (us.take m),
        List.take_take, min_eq_left hle, List.append_assoc]
    have hcons := consistent_marketAt h n
    rw [hsplit, Run.alongRun_append, Run.alongRun_append] at h
    exact h.2.1.mono_inv (I := ConsistentMarket) (fun _ _ hM hu => hM.step hu)
      (fun _ _ hM hu => ⟨hu.1, Published.applicable (hM.1 _) hu.2⟩) hcons
  · rw [List.drop_eq_nil_of_le (by rw [List.length_take]; omega)]
    trivial

/-- The updates of the stream are events. -/
theorem isEvent_of_published (h : Run.AlongRun replayMarket (PublishedMarket kDefaultPriceBand)
    .empty us) : ∀ u ∈ us, MarketDataConsumer.isEvent u = true := by
  have hall : ∀ {us : List MatchingEngineMarketUpdate} {M : Market},
      Run.AlongRun replayMarket (PublishedMarket kDefaultPriceBand) M us →
      ∀ u ∈ us, MarketDataConsumer.isEvent u = true := by
    intro us
    induction us with
    | nil => exact fun _ u hu => absurd hu List.not_mem_nil
    | cons v us ih =>
      intro M h u hu
      rcases List.mem_cons.mp hu with rfl | hu
      · have hpub := h.1.2
        unfold Published at hpub
        cases htype : u.type <;> simp only [htype] at hpub <;>
          simp [MarketDataConsumer.isEvent, htype]
      · exact ih h.2 u hu
  exact hall h

theorem mem_numbered {r : MarketDataPublisherMarketUpdate} : ∀ {k : Nat},
    r ∈ numbered k us → ∃ i, us[i]? = some r.update ∧ r.seqNum = (k + i : Nat) := by
  induction us with
  | nil => exact fun h => absurd h List.not_mem_nil
  | cons u us ih =>
    intro k h
    rcases List.mem_cons.mp h with rfl | h
    · exact ⟨0, rfl, rfl⟩
    · obtain ⟨i, hi, hseq⟩ := ih h
      exact ⟨i + 1, by simpa using hi, by rw [hseq]; congr 1; omega⟩

end Published

/-! ## 2. A snapshot cycle -/

/-- The messages of a cycle between the first and the last one. -/
def cycleBody (M : Market) : List MatchingEngineMarketUpdate :=
  (List.range kMaxSymbols).flatMap fun symbol =>
    ⟨.clear, symbol, 0, .unset, 0, 0, 0⟩ :: (M symbol).map (·.snapshot symbol)

theorem cycleMessages_eq (M : Market) (n : Nat) :
    cycleMessages M n = ⟨.snapshotStart, 0, n, .unset, 0, 0, 0⟩ ::
      (cycleBody M ++ [⟨.snapshotEnd, 0, n, .unset, 0, 0, 0⟩]) := rfl

theorem isEvent_cycleBody {M : Market} :
    ∀ u ∈ cycleBody M, MarketDataConsumer.isEvent u = true := by
  intro u hu
  obtain ⟨symbol, -, hu⟩ := List.mem_flatMap.mp hu
  rcases List.mem_cons.mp hu with rfl | hu
  · rfl
  · obtain ⟨o, -, rfl⟩ := List.mem_map.mp hu
    rfl

/-- The events of a cycle. -/
theorem cycle_events (M : Market) (n : Nat) :
    (cycleMessages M n).filter MarketDataConsumer.isEvent = cycleBody M := by
  rw [cycleMessages_eq, List.filter_cons_of_neg (by simp [MarketDataConsumer.isEvent]),
    List.filter_append, List.filter_eq_self.mpr isEvent_cycleBody]
  simp [MarketDataConsumer.isEvent]

/-- **The first message of a cycle** is the only one that starts it. -/
theorem cycle_start {M : Market} {n k : Nat} {u : MatchingEngineMarketUpdate}
    (hu : (cycleMessages M n)[k]? = some u) (htype : u.type = .snapshotStart) :
    k = 0 ∧ u.orderId = n := by
  cases k with
  | zero =>
    rw [cycleMessages_eq, List.getElem?_cons_zero] at hu
    exact ⟨rfl, (congrArg MatchingEngineMarketUpdate.orderId (Option.some.inj hu)).symm⟩
  | succ k =>
    rw [cycleMessages_eq, List.getElem?_cons_succ] at hu
    rcases List.mem_append.mp (List.mem_of_getElem? hu) with hbody | hend
    · have := isEvent_cycleBody u hbody
      simp [MarketDataConsumer.isEvent, htype] at this
    · rw [List.mem_singleton.mp hend] at htype
      cases htype

/-- **The last message of a cycle** is the only one that ends it. -/
theorem cycle_end {M : Market} {n k : Nat} {u : MatchingEngineMarketUpdate}
    (hu : (cycleMessages M n)[k]? = some u) (htype : u.type = .snapshotEnd) :
    k + 1 = (cycleMessages M n).length ∧ u.orderId = n := by
  rw [cycleMessages_eq] at hu ⊢
  cases k with
  | zero =>
    rw [List.getElem?_cons_zero] at hu
    rw [← Option.some.inj hu] at htype
    cases htype
  | succ k =>
    rw [List.getElem?_cons_succ, List.getElem?_append] at hu
    split at hu
    · have := isEvent_cycleBody u (List.mem_of_getElem? hu)
      simp [MarketDataConsumer.isEvent, htype] at this
    · next hk =>
      obtain ⟨hlt, hget⟩ := List.getElem?_eq_some_iff.mp hu
      rw [List.length_singleton] at hlt
      refine ⟨by simp; omega, ?_⟩
      rw [List.mem_singleton.mp (List.mem_of_getElem? hu)]

/-- **A cycle replaces the orders of every symbol.** -/
theorem cycle_replay {M M₀ : Market} (h : ConsistentMarket M)
    (h₀ : ∀ s, kMaxSymbols ≤ s → M₀ s = []) :
    Run.AlongRun replayMarket ApplicableMarket M₀ (cycleBody M) ∧
      (cycleBody M).foldl replayMarket M₀ = M := by
  have hids : ∀ ids : List Nat, (∀ s ∈ ids, s < kMaxSymbols) → ∀ M₀ : Market,
      Run.AlongRun replayMarket ApplicableMarket M₀ (ids.flatMap fun symbol =>
        ⟨.clear, symbol, 0, .unset, 0, 0, 0⟩ :: (M symbol).map (·.snapshot symbol)) ∧
      ∀ s, (ids.flatMap fun symbol =>
        ⟨.clear, symbol, 0, .unset, 0, 0, 0⟩ :: (M symbol).map (·.snapshot symbol)).foldl
          replayMarket M₀ s = if s ∈ ids then M s else M₀ s := by
    intro ids
    induction ids with
    | nil => exact fun _ M₀ => ⟨trivial, fun s => by simp⟩
    | cons i ids ih =>
      intro hsmall M₀
      obtain ⟨happ, hfold⟩ := MarketOrderBook.snapshot_applicable (h.1 i) i (M₀ i)
      have hsym : ∀ u ∈ (⟨.clear, i, 0, .unset, 0, 0, 0⟩ :: (M i).map (·.snapshot i) :
          List MatchingEngineMarketUpdate), u.symbolId = i := by
        intro u hu
        rcases List.mem_cons.mp hu with rfl | hu
        · rfl
        · obtain ⟨o, -, rfl⟩ := List.mem_map.mp hu
          rfl
      have hpart : Run.AlongRun replayMarket ApplicableMarket M₀
          (⟨.clear, i, 0, .unset, 0, 0, 0⟩ :: (M i).map (·.snapshot i)) :=
        (alongRun_market hsym happ).mono fun _ _ hu => ⟨hu.1 ▸ hsmall i List.mem_cons_self, hu.2⟩
      obtain ⟨hrest, hrestFold⟩ := ih (fun s hs => hsmall s (List.mem_cons_of_mem _ hs))
        (Function.update M₀ i (M i))
      rw [List.flatMap_cons, Run.alongRun_append, List.foldl_append, foldl_replayMarket hsym, hfold]
      refine ⟨⟨hpart, hrest⟩, fun s => ?_⟩
      rw [hrestFold, Function.update_apply]
      by_cases hs : s = i <;> by_cases hmem : s ∈ ids <;> simp [hs, hmem]
  obtain ⟨happ, hfold⟩ := hids (List.range kMaxSymbols) (fun s hs => List.mem_range.mp hs) M₀
  refine ⟨happ, funext fun s => (hfold s).trans ?_⟩
  split
  · rfl
  · next hs =>
    have hge : kMaxSymbols ≤ s := Nat.not_lt.mp fun hlt => hs (List.mem_range.mpr hlt)
    rw [h₀ s hge, h.2 s hge]

/-! ## 3. The two queues -/

/-- A key behind all others goes last. -/
theorem toList_insert_last {queue : QueuedMarketUpdates} {seq : Int}
    (h : ∀ e ∈ queue.toList, e.1 < seq) (u : MatchingEngineMarketUpdate) :
    (queue.insert seq u).toList = queue.toList ++ [(seq, u)] := by
  have hasc : ∀ q : QueuedMarketUpdates, q.toList.Pairwise fun e e' => e.1 < e'.1 := fun q => by
    simpa only [Int.compare_eq_lt] using q.ordered_keys_toList
  have hperm := Std.TreeMap.toList_insert_perm (t := queue) (k := seq) (v := u)
  rw [List.filter_eq_self.mpr fun e he => by simpa using (Int.ne_of_lt (h e he)).symm] at hperm
  refine List.Perm.eq_of_pairwise (fun e e' _ _ h1 h2 => absurd h1 (Int.lt_asymm h2)) (hasc _)
    (List.pairwise_append.mpr ⟨hasc queue, List.pairwise_singleton _ _, fun e he e' he' => ?_⟩)
    (hperm.trans (List.perm_append_singleton _ _).symm)
  rw [List.mem_singleton.mp he']
  exact h e he

/-- A message of the cycle made after the first `n` updates, under its number. -/
def InCycle (us : List MatchingEngineMarketUpdate) (n : Nat)
    (e : Int × MatchingEngineMarketUpdate) : Prop :=
  ∃ k : Nat, e.1 = k ∧ (cycleMessages (marketAt us n) n)[k]? = some e.2

/-- Messages of cycles, each made no earlier than the one before it, and none after update `a`. -/
def Stitched (us : List MatchingEngineMarketUpdate) (a : Nat)
    (q : List (Int × MatchingEngineMarketUpdate)) : Prop :=
  ∃ anchor : Nat → Nat, Monotone anchor ∧ (∀ i, anchor i ≤ a) ∧
    ∀ i e, q[i]? = some e → InCycle us (anchor i) e

/-- Messages numbered from `k` on without a gap. -/
def Contiguous (k : Int) (q : List (Int × MatchingEngineMarketUpdate)) : Prop :=
  ∀ (i : Nat) e, q[i]? = some e → e.1 = k + i

section Queues

variable {us : List MatchingEngineMarketUpdate} {a b n : Nat} {e : Int × MatchingEngineMarketUpdate}
  {q : List (Int × MatchingEngineMarketUpdate)}

theorem Stitched.nil : Stitched us a [] :=
  ⟨fun _ => a, fun _ _ _ => le_rfl, fun _ => le_rfl, fun _ _ h => by simp at h⟩

theorem Stitched.mono (h : Stitched us a q) (hab : a ≤ b) : Stitched us b q := by
  obtain ⟨anchor, hmono, hle, hq⟩ := h
  exact ⟨anchor, hmono, fun i => (hle i).trans hab, hq⟩

/-- A message of a later cycle. -/
theorem Stitched.snoc (h : Stitched us a q) (hab : a ≤ b) (he : InCycle us b e) :
    Stitched us b (q ++ [e]) := by
  obtain ⟨anchor, hmono, hle, hq⟩ := h
  refine ⟨fun i => if i < q.length then anchor i else b, fun i j hij => ?_, fun i => ?_,
    fun i e' hi => ?_⟩
  · have := (hle i).trans hab
    rcases Nat.lt_or_ge j q.length with hj | hj
    · simp only [hj, if_true, Nat.lt_of_le_of_lt hij hj]
      exact hmono hij
    · simp only [Nat.not_lt.mpr hj, if_false]
      split <;> omega
  · simp only
    split
    · exact (hle i).trans hab
    · exact le_rfl
  · rw [List.getElem?_append] at hi
    split at hi
    · next hlt => simpa only [if_pos hlt] using hq i e' hi
    · next hge =>
      rw [List.mem_singleton.mp (List.mem_of_getElem? hi)]
      simpa only [if_neg hge] using he

/-- **A whole cycle.**  A first and a last message made after the same updates enclose messages
made after these updates too. -/
theorem Stitched.of_anchors (h : Stitched us a q) (hcont : Contiguous 0 q) (hne : q ≠ [])
    (hstart : (q.head hne).2.type = .snapshotStart) (hend : (q.getLast hne).2.type = .snapshotEnd)
    (hanchor : (q.head hne).2.orderId = (q.getLast hne).2.orderId) :
    (q.getLast hne).2.orderId ≤ a ∧
      q.map Prod.snd = cycleMessages (marketAt us (q.getLast hne).2.orderId)
        (q.getLast hne).2.orderId := by
  obtain ⟨anchor, hmono, hle, hq⟩ := h
  -- under contiguous numbers a message stands in the queue where it stands in its cycle
  have hat : ∀ i e', q[i]? = some e' →
      (cycleMessages (marketAt us (anchor i)) (anchor i))[i]? = some e'.2 := by
    intro i e' hi
    obtain ⟨k, hk, hcycle⟩ := hq i e' hi
    have hik : k = i := by
      have := hcont i e' hi
      omega
    rwa [hik] at hcycle
  have hlast : q[q.length - 1]? = some (q.getLast hne) := by
    rw [← List.getLast?_eq_getElem?, List.getLast?_eq_some_getLast hne]
  have hhead : q[0]? = some (q.head hne) := by
    rw [← List.head?_eq_getElem?, List.head?_eq_some_head hne]
  obtain ⟨-, hfirst⟩ := cycle_start (hat _ _ hhead) hstart
  obtain ⟨hlen, hn⟩ := cycle_end (hat _ _ hlast) hend
  have hpos := List.length_pos_iff.mpr hne
  rw [hn] at hanchor ⊢
  rw [hfirst] at hanchor
  have hsame : ∀ i, i < q.length → anchor i = anchor (q.length - 1) := fun i hi => by
    have h1 := hmono (Nat.zero_le i)
    have h2 := hmono (show i ≤ q.length - 1 by omega)
    omega
  refine ⟨hle _, List.ext_getElem (by rw [List.length_map]; omega) fun i h1 h2 => ?_⟩
  rw [List.length_map] at h1
  have hi := hat i q[i] (List.getElem?_eq_getElem h1)
  rw [hsame i h1, List.getElem?_eq_getElem h2] at hi
  rw [List.getElem_map]
  exact (Option.some.inj hi).symm

/-- **The loop over the snapshot messages** ends well if there is no gap, with the events. -/
theorem scanSnapshot_spec : ∀ {k : Int} {events : List MatchingEngineMarketUpdate},
    MarketDataConsumer.scanSnapshot k q = some events →
    Contiguous k q ∧ events = (q.map Prod.snd).filter MarketDataConsumer.isEvent := by
  induction q with
  | nil =>
    intro k events h
    exact ⟨fun _ _ hi => by simp at hi, (Option.some.inj h).symm⟩
  | cons e q ih =>
    intro k events h
    obtain ⟨seq, u⟩ := e
    rw [MarketDataConsumer.scanSnapshot] at h
    split at h
    · cases h
    · next hseq =>
      obtain ⟨events', hrest, rfl⟩ := Option.map_eq_some_iff.mp h
      obtain ⟨hcont, rfl⟩ := ih hrest
      refine ⟨fun i e hi => ?_, by rw [List.map_cons, List.filter_cons]; rfl⟩
      cases i with
      | zero =>
        obtain rfl := Option.some.inj hi
        simpa using Decidable.not_not.mp hseq
      | succ i =>
        have := hcont i e hi
        push_cast
        omega

/-- **The loop over the incremental messages** ends well with a piece of the stream. -/
theorem scanIncrementals_spec (hevents : ∀ u ∈ us, MarketDataConsumer.isEvent u = true)
    {nextExp : Int} : ∀ {n : Nat} {events : List MatchingEngineMarketUpdate}, n ≤ us.length →
      (∀ e ∈ q, ∃ i : Nat, us[i]? = some e.2 ∧ e.1 = (1 + i : Nat)) →
      MarketDataConsumer.scanIncrementals (n + 1) q = (nextExp, some events) →
      ∃ m, n ≤ m ∧ m ≤ us.length ∧ nextExp = m + 1 ∧ events = (us.take m).drop n := by
  induction q with
  | nil =>
    intro n events hn _ h
    obtain ⟨hnext, hevents⟩ := Prod.mk.inj h
    refine ⟨n, le_rfl, hn, hnext.symm, ?_⟩
    rw [List.drop_eq_nil_of_le (by rw [List.length_take]; omega)]
    exact (Option.some.inj hevents).symm
  | cons e q ih =>
    intro n events hn hq h
    obtain ⟨seq, u⟩ := e
    have hq' := fun e he => hq e (List.mem_cons_of_mem _ he)
    rw [MarketDataConsumer.scanIncrementals] at h
    split at h
    · exact ih hn hq' h
    · split at h
      · cases h
      · next hseq =>
        obtain ⟨i, hi, hkey⟩ := hq (seq, u) List.mem_cons_self
        obtain ⟨hnext, hmap⟩ := Prod.mk.inj h
        obtain ⟨events', hrest, rfl⟩ := Option.map_eq_some_iff.mp hmap
        obtain rfl : i = n := by
          simp only at hkey
          omega
        obtain ⟨hlt, hget⟩ := List.getElem?_eq_some_iff.mp hi
        obtain ⟨m, hnm, hm, hnextExp, rfl⟩ := ih (n := i + 1) hlt hq'
          (Prod.ext hnext (by push_cast; exact hrest))
        refine ⟨m, by omega, hm, hnextExp, ?_⟩
        have hlt' : i < (us.take m).length := by
          rw [List.length_take]
          omega
        rw [MarketDataConsumer.pushEvent, if_pos (hevents u (List.mem_of_getElem? hi)),
          List.drop_eq_getElem_cons hlt', List.getElem_take, hget]

/-- **The snapshot queue** starts again with the message or has it at its end. -/
theorem queueSnapshot_toList {queue : QueuedMarketUpdates} (hcont : Contiguous 0 queue.toList)
    {request : MarketDataPublisherMarketUpdate} (hseq : ¬ request.seqNum < 0) :
    (MarketDataConsumer.queueSnapshot queue request).toList = [(request.seqNum, request.update)] ∨
      (MarketDataConsumer.queueSnapshot queue request).toList =
        queue.toList ++ [(request.seqNum, request.update)] := by
  have hempty : ((∅ : QueuedMarketUpdates).insert request.seqNum request.update).toList =
      [(request.seqNum, request.update)] := toList_insert_last (by simp) _
  simp only [MarketDataConsumer.queueSnapshot]
  by_cases hzero : request.seqNum = 0
  · exact .inl (by simpa [hzero] using hempty)
  rw [if_neg hzero]
  by_cases hmem : queue.contains request.seqNum = true
  · exact .inl (by simpa only [if_pos hmem] using hempty)
  rw [if_neg hmem]
  refine .inr (toList_insert_last (fun e he => ?_) _)
  obtain ⟨i, hi⟩ := List.mem_iff_getElem?.mp he
  by_contra hge
  -- a number that is not behind the others is one of them
  obtain ⟨k, hk⟩ := Int.eq_ofNat_of_zero_le (Int.not_lt.mp hseq)
  have hkey := hcont i e hi
  have hlt := (List.getElem?_eq_some_iff.mp hi).1
  have hkl : k < queue.toList.length := by omega
  have hget := List.getElem?_eq_getElem hkl
  have hseqk := hcont k _ hget
  have hsome : queue[(queue.toList[k]).1]? = some (queue.toList[k]).2 :=
    Std.TreeMap.mem_toList_iff_getElem?_eq_some.mp (List.mem_of_getElem? hget)
  rw [Std.TreeMap.contains_eq_isSome_getElem?, hk] at hmem
  rw [hseqk, Int.zero_add] at hsome
  exact hmem (by rw [hsome]; rfl)

end Queues

/-! ## 4. The consumer -/

namespace MarketDataConsumer

/-- **The consumer between two messages**, where no snapshot message has come from a cycle made
after update `a`. -/
structure Sound (us : List MatchingEngineMarketUpdate) (a : Nat) (c : MarketDataConsumer) :
    Prop where
  /-- The numbers of the stream fit the signed counter. -/
  short : us.length < 2 ^ 63
  anchor : a ≤ us.length
  stitched : Stitched us a c.snapshotQueuedMsgs.toList
  incremental : ∀ e ∈ c.incrementalQueuedMsgs.toList,
    ∃ i : Nat, us[i]? = some e.2 ∧ e.1 = (1 + i : Nat)
  applicable : Run.AlongRun replayMarket ApplicableMarket .empty c.incomingMdUpdates
  synced : ∃ n, n ≤ us.length ∧ c.incomingMdUpdates.foldl replayMarket .empty = marketAt us n ∧
    (c.inRecovery = false → c.nextExpIncSeqNum = n + 1)

/-- `checkSnapshotSync` leaves no gap in the snapshot queue. -/
structure Inv (us : List MatchingEngineMarketUpdate) (a : Nat) (c : MarketDataConsumer) : Prop
    extends Sound us a c where
  contiguous : Contiguous 0 c.snapshotQueuedMsgs.toList

section Steps

variable {us : List MatchingEngineMarketUpdate} {a b n : Nat} {c : MarketDataConsumer}
  {r : MarketDataPublisherMarketUpdate}

theorem init_inv (hshort : us.length < 2 ^ 63) : Inv us 0 init where
  short := hshort
  anchor := Nat.zero_le _
  stitched := Stitched.nil
  incremental := fun e he => absurd he List.not_mem_nil
  applicable := trivial
  synced := ⟨0, Nat.zero_le _, rfl, fun _ => rfl⟩
  contiguous := fun i e hi => by simp [init] at hi

theorem Inv.mono (h : Inv us a c) (hab : a ≤ b) (hb : b ≤ us.length) : Inv us b c where
  short := h.short
  anchor := hb
  stitched := h.stitched.mono hab
  incremental := h.incremental
  applicable := h.applicable
  synced := h.synced
  contiguous := h.contiguous

theorem Sound.clearSnapshot (h : Sound us a c) : Inv us a c.clearSnapshot where
  short := h.short
  anchor := h.anchor
  stitched := Stitched.nil
  incremental := h.incremental
  applicable := h.applicable
  synced := h.synced
  contiguous := fun i e hi => by simp [MarketDataConsumer.clearSnapshot] at hi

theorem queueMessage_incremental : c.queueMessage false r = MarketDataConsumer.checkSnapshotSync
    { c with incrementalQueuedMsgs := c.incrementalQueuedMsgs.insert r.seqNum r.update } := rfl

theorem queueMessage_snapshot : c.queueMessage true r = MarketDataConsumer.checkSnapshotSync
    { c with snapshotQueuedMsgs := queueSnapshot c.snapshotQueuedMsgs r } := rfl

theorem recvRecord_recovering (hrec : c.inRecovery = true) (isSnapshot : Bool)
    (hseq : ¬ r.seqNum < 0) : recvRecord isSnapshot c r = c.queueMessage isSnapshot r := by
  obtain ⟨nextExp, inRecovery, snapshots, incrementals, incoming⟩ := c
  obtain rfl : inRecovery = true := hrec
  simp [recvRecord, hseq]

theorem recvRecord_unwanted (hrec : c.inRecovery = false) : recvRecord true c r = c := by
  simp [recvRecord, hrec]

theorem recvRecord_old (hrec : c.inRecovery = false) (hlt : r.seqNum < c.nextExpIncSeqNum) :
    recvRecord false c r = c := by
  simp [recvRecord, hrec, hlt]

theorem recvRecord_next (hrec : c.inRecovery = false) (hseq : ¬ r.seqNum < 0)
    (heq : r.seqNum = c.nextExpIncSeqNum) : recvRecord false c r =
      { c with
        nextExpIncSeqNum := c.nextExpIncSeqNum + 1
        incomingMdUpdates := c.incomingMdUpdates ++ [r.update] } := by
  rw [heq] at hseq
  simp [recvRecord, hrec, heq, hseq]

theorem recvRecord_gap (hrec : c.inRecovery = false) (hseq : ¬ r.seqNum < 0)
    (hgt : c.nextExpIncSeqNum < r.seqNum) : recvRecord false c r =
      { c with inRecovery := true }.startSnapshotSync.queueMessage false r := by
  simp [recvRecord, hrec, hseq, Int.lt_asymm hgt, (Int.ne_of_lt hgt).symm]

variable (hpub : Run.AlongRun replayMarket (PublishedMarket kDefaultPriceBand) .empty us)

include hpub

/-- **The end of a recovery**, or one more attempt that fails. -/
theorem Sound.finishSync (h : Sound us a c) (hrec : c.inRecovery = true) (hn : n ≤ us.length) :
    Inv us a (c.finishSync n (cycleBody (marketAt us n))) := by
  unfold MarketDataConsumer.finishSync
  rw [ssize_eq (hn.trans_lt h.short)]
  split
  · next nextExp hscan =>
    have h' := h.clearSnapshot
    exact ⟨⟨h'.short, h'.anchor, h'.stitched, h'.incremental, h'.applicable, by
      obtain ⟨k, hk, hfold, -⟩ := h.synced
      refine ⟨k, hk, hfold, fun hoff => ?_⟩
      have hoff' : c.inRecovery = false := hoff
      rw [hrec] at hoff'
      cases hoff'⟩, h'.contiguous⟩
  · next nextExp incrementals hscan =>
    obtain ⟨m, hnm, hm, rfl, rfl⟩ :=
      scanIncrementals_spec (isEvent_of_published hpub) hn h.incremental hscan
    obtain ⟨k, -, hfold, -⟩ := h.synced
    obtain ⟨happ, hcycle⟩ := cycle_replay (consistent_marketAt hpub n)
      (consistent_marketAt hpub k).2
    refine ⟨⟨h.short, h.anchor, Stitched.nil, fun e he => absurd he List.not_mem_nil, ?_, m, hm, ?_,
      fun _ => rfl⟩, fun i e hi => by simp at hi⟩
    · rw [Run.alongRun_append, Run.alongRun_append, hfold, hcycle]
      exact ⟨h.applicable, happ, applicable_segment hpub n m⟩
    · rw [List.foldl_append, List.foldl_append, hfold, hcycle, ← marketAt_append hnm]

/-- **`checkSnapshotSync`** ends a recovery only with a whole cycle and what follows it. -/
theorem Sound.checkSnapshotSync (h : Sound us a c) (hrec : c.inRecovery = true) :
    Inv us a c.checkSnapshotSync := by
  unfold MarketDataConsumer.checkSnapshotSync
  split
  · next hempty =>
    exact ⟨h, fun i e hi => by simp [hempty] at hi⟩
  · next first rest hqueue =>
    have hst := h.stitched
    rw [hqueue] at hst
    split
    · exact h.clearSnapshot
    · next hstart =>
      split
      · exact h.clearSnapshot
      · next events hscan =>
        obtain ⟨hcont, rfl⟩ := scanSnapshot_spec hscan
        simp only
        split
        · exact ⟨h, by rwa [hqueue]⟩
        · next hend =>
          split
          · exact h.clearSnapshot
          · next hanchor =>
            obtain ⟨hle, hcycle⟩ := hst.of_anchors hcont (List.cons_ne_nil first rest)
              (Decidable.not_not.mp hstart) (Decidable.not_not.mp hend)
              (Decidable.not_not.mp hanchor)
            rw [hcycle, cycle_events]
            exact h.finishSync hpub hrec (hle.trans h.anchor)

/-- An incremental message of the stream. -/
theorem Inv.queueIncremental (h : Inv us a c) (hrec : c.inRecovery = true)
    (hr : r ∈ numbered 1 us) : Inv us a (c.queueMessage false r) := by
  obtain ⟨i, hi, hseq⟩ := mem_numbered hr
  rw [queueMessage_incremental]
  refine Sound.checkSnapshotSync hpub ⟨h.short, h.anchor, h.stitched, fun e he => ?_, h.applicable,
    h.synced⟩ hrec
  obtain ⟨k, u⟩ := e
  have hget := Std.TreeMap.mem_toList_iff_getElem?_eq_some.mp he
  rw [Std.TreeMap.getElem?_insert] at hget
  split at hget
  · next heq =>
    obtain rfl := Option.some.inj hget
    exact ⟨i, hi, (Std.LawfulEqCmp.eq_of_compare heq).symm.trans hseq⟩
  · exact h.incremental _ (Std.TreeMap.mem_toList_iff_getElem?_eq_some.mpr hget)

/-- A snapshot message of a cycle that is no earlier than those before it. -/
theorem Inv.queueSnapshot (h : Inv us a c) (hrec : c.inRecovery = true) (hab : a ≤ b)
    (hb : b ≤ us.length) (hseq : ¬ r.seqNum < 0) (hr : InCycle us b (r.seqNum, r.update)) :
    Inv us b (c.queueMessage true r) := by
  rw [queueMessage_snapshot]
  refine Sound.checkSnapshotSync hpub ⟨h.short, hb, ?_, h.incremental, h.applicable, h.synced⟩ hrec
  rcases queueSnapshot_toList h.contiguous hseq with hqueue | hqueue
  · rw [hqueue]
    exact Stitched.nil.snoc hab hr
  · rw [hqueue]
    exact h.stitched.snoc hab hr

/-- **An incremental record**: forwarded when it is the next one, dropped when it is an old one, and
the start of a recovery when there is a gap before it. -/
theorem Inv.recvIncremental (h : Inv us a c) (hr : r ∈ numbered 1 us) :
    Inv us a (recvRecord false c r) := by
  obtain ⟨i, hi, hseq⟩ := mem_numbered hr
  have hnonneg : ¬ r.seqNum < 0 := by omega
  cases hrec : c.inRecovery with
  | true =>
    rw [recvRecord_recovering hrec _ hnonneg]
    exact h.queueIncremental hpub hrec hr
  | false =>
    obtain ⟨n, hn, hfold, hnext⟩ := h.synced
    have hnext := hnext hrec
    rcases Int.lt_trichotomy r.seqNum c.nextExpIncSeqNum with hlt | heq | hgt
    · rw [recvRecord_old hrec hlt]
      exact h
    · obtain rfl : i = n := by omega
      rw [recvRecord_next hrec hnonneg heq]
      obtain ⟨hlt, hget⟩ := List.getElem?_eq_some_iff.mp hi
      have hseg : (us.take (i + 1)).drop i = [r.update] := by
        rw [List.take_succ_eq_append_getElem hlt, hget,
          List.drop_left' (by rw [List.length_take]; omega)]
      have happ := applicable_segment hpub i (i + 1)
      have hstep := @marketAt_append us i (i + 1) (Nat.le_succ i)
      rw [hseg] at happ hstep
      refine ⟨⟨h.short, h.anchor, h.stitched, h.incremental, ?_, i + 1, hlt, ?_, fun _ => ?_⟩,
        h.contiguous⟩
      · rw [Run.alongRun_append, hfold]
        exact ⟨h.applicable, happ⟩
      · rw [List.foldl_append, hfold, hstep]
      · push_cast
        omega
    · rw [recvRecord_gap hrec hnonneg hgt]
      refine Inv.queueIncremental hpub ⟨⟨h.short, h.anchor, Stitched.nil, fun e he => ?_,
        h.applicable, n, hn, hfold, fun hoff => ?_⟩, fun i e hi => ?_⟩ rfl hr
      · exact absurd he List.not_mem_nil
      · cases hoff
      · simp [startSnapshotSync] at hi

/-- **A snapshot record**: dropped outside a recovery. -/
theorem Inv.recvSnapshot (h : Inv us a c) (hab : a ≤ b) (hb : b ≤ us.length)
    (hr : InCycle us b (r.seqNum, r.update)) : Inv us b (recvRecord true c r) := by
  have hnonneg : ¬ r.seqNum < 0 := by
    obtain ⟨k, hk, -⟩ := hr
    simp only at hk
    omega
  cases hrec : c.inRecovery with
  | true =>
    rw [recvRecord_recovering hrec _ hnonneg]
    exact h.queueSnapshot hpub hrec hab hb hnonneg hr
  | false =>
    rw [recvRecord_unwanted hrec]
    exact h.mono hab hb

/-- **A datagram of the incremental channel.** -/
theorem Inv.recvIncrementals (h : Inv us a c) {rs : List MarketDataPublisherMarketUpdate}
    (hr : ∀ r ∈ rs, r ∈ numbered 1 us) : Inv us a (c.recvCallback ⟨false, rs⟩) := by
  simp only [recvCallback, Bool.false_and, Bool.false_eq_true, if_false]
  induction rs generalizing c with
  | nil => exact h
  | cons r rs ih =>
    exact ih (h.recvIncremental hpub (hr r List.mem_cons_self))
      fun r' hr' => hr r' (List.mem_cons_of_mem _ hr')

/-- **A datagram of the snapshot channel.** -/
theorem Inv.recvSnapshots (h : Inv us a c) (hab : a ≤ b) (hb : b ≤ us.length)
    {rs : List MarketDataPublisherMarketUpdate}
    (hr : ∀ r ∈ rs, InCycle us b (r.seqNum, r.update)) : Inv us b (c.recvCallback ⟨true, rs⟩) := by
  have h := h.mono hab hb
  simp only [recvCallback]
  split
  · exact h
  · clear * - hpub h hb hr
    induction rs generalizing c with
    | nil => exact h
    | cons r rs ih =>
      exact ih (fun r' hr' => hr r' (List.mem_cons_of_mem _ hr'))
        (h.recvSnapshot hpub le_rfl hb (hr r List.mem_cons_self))

/-- **Any interleaving of the two channels**, where the snapshot datagrams are labelled with the
place in the stream their cycle was made at. -/
theorem Inv.run {received : List Datagram} : ∀ {c : MarketDataConsumer} {a : Nat}
      {labelled : List (Nat × List MarketDataPublisherMarketUpdate)}, Inv us a c →
      labelled.Pairwise (fun x y => x.1 ≤ y.1) →
      (∀ x ∈ labelled, a ≤ x.1 ∧ x.1 ≤ us.length ∧
        ∀ r ∈ x.2, InCycle us x.1 (r.seqNum, r.update)) →
      labelled.map Prod.snd = (received.filter (·.isSnapshot)).map (·.records) →
      (∀ d ∈ received, d.isSnapshot = false → ∀ r ∈ d.records, r ∈ numbered 1 us) →
      ∃ b, Inv us b (received.foldl recvCallback c) := by
  induction received with
  | nil => exact fun h _ _ _ _ => ⟨_, h⟩
  | cons d received ih =>
    intro c a labelled h hasc hlabel hmap hinc
    have hinc' := fun d' hd' => hinc d' (List.mem_cons_of_mem d hd')
    obtain ⟨isSnapshot, records⟩ := d
    cases isSnapshot with
    | false =>
      exact ih (h.recvIncrementals hpub (hinc _ List.mem_cons_self rfl)) hasc hlabel hmap hinc'
    | true =>
      obtain ⟨⟨n, rs⟩, labelled', rfl, rfl, hmap'⟩ := List.map_eq_cons_iff.mp hmap
      obtain ⟨han, hn, hcycle⟩ := hlabel _ List.mem_cons_self
      obtain ⟨hle, hasc'⟩ := List.pairwise_cons.mp hasc
      exact ih (h.recvSnapshots hpub han hn hcycle) hasc' (fun x hx => ⟨hle x hx,
        (hlabel x (List.mem_cons_of_mem _ hx)).2⟩) hmap' hinc'

end Steps

/-! ## 5. Runs -/

/-- Packets of cycles, each with the place its cycle was made at. -/
theorem exists_labels {α : Type} {cycle : Nat → List α} {points : List Nat} :
    ∀ {packets : List (List (List α))}, packets.map List.flatten = points.map cycle →
      points.Pairwise (· ≤ ·) → ∃ labelled : List (Nat × List α),
        labelled.map Prod.snd = packets.flatten ∧ labelled.Pairwise (fun x y => x.1 ≤ y.1) ∧
        ∀ x ∈ labelled, x.1 ∈ points ∧ ∀ r ∈ x.2, r ∈ cycle x.1 := by
  induction points with
  | nil =>
    intro packets h _
    obtain rfl := List.map_eq_nil_iff.mp h
    exact ⟨[], rfl, List.Pairwise.nil, fun x hx => absurd hx List.not_mem_nil⟩
  | cons n points ih =>
    intro packets h hasc
    obtain ⟨ps, packets', rfl, hflat, hrest⟩ := List.map_eq_cons_iff.mp h
    obtain ⟨hle, hasc⟩ := List.pairwise_cons.mp hasc
    obtain ⟨labelled, hmap, hpair, hmem⟩ := ih hrest hasc
    refine ⟨ps.map (n, ·) ++ labelled, ?_, ?_, fun x hx => ?_⟩
    · rw [List.map_append, List.map_map, hmap, List.flatten_cons]
      congr 1
      exact List.map_id ps
    · refine List.pairwise_append.mpr ⟨?_, hpair, fun x hx y hy => ?_⟩
      · exact List.pairwise_map.mpr (List.pairwise_of_forall fun _ _ => le_rfl)
      · obtain ⟨p, -, rfl⟩ := List.mem_map.mp hx
        exact hle _ (hmem y hy).1
    · rcases List.mem_append.mp hx with hx | hx
      · obtain ⟨p, hp, rfl⟩ := List.mem_map.mp hx
        exact ⟨List.mem_cons_self, fun r hr => hflat ▸ List.mem_flatten_of_mem hp hr⟩
      · exact ⟨List.mem_cons_of_mem _ (hmem x hx).1, (hmem x hx).2⟩

/-- **The cycle made after the first `n` updates.** -/
theorem cycleAfter_eq {us : List MatchingEngineMarketUpdate}
    (hpub : Run.AlongRun replayMarket (PublishedMarket kDefaultPriceBand) .empty us)
    (hroom : ∀ vs, vs <+: us → (vs.foldl replayMarket .empty).total ≤ kMaxOrderIds) {n : Nat}
    (hn : n ≤ us.length) : SnapshotSynthesizer.cycleAfter ((numbered 1 us).take n) =
      .ok (numbered 0 (cycleMessages (marketAt us n) n)) := by
  have htake : (numbered 1 us).take n = numbered 1 (us.take n) := by
    conv_lhs => rw [← List.take_append_drop n us, numbered_append]
    rw [List.take_left' (by rw [length_numbered, List.length_take, min_eq_left hn])]
  have hpub' := hpub
  rw [← List.take_append_drop n us, Run.alongRun_append] at hpub'
  obtain ⟨s, addr, hs, h⟩ := (SnapshotSynthesizer.mirrors_init fun _ => id).foldlM hpub'.1
    fun vs hvs => hroom vs (hvs.trans (List.take_prefix n us))
  rw [Nat.zero_add, List.length_take, min_eq_left hn] at h
  rw [SnapshotSynthesizer.cycleAfter, htake, hs, ok_bind]
  exact h.publishSnapshot_eq fun symbol _ => ((consistent_marketAt hpub n).1 symbol).ascending

/-- **Recovery is sound.**  Whatever arrives of the incremental updates, and whatever arrives in
order of snapshot cycles made at any places of the stream: outside a recovery the forwarded events
lead to the live orders after the updates before the next expected one, and every event can be
applied where it arrives.  A cycle that has lost messages may be completed by those of a later one;
what makes that harmless is that the two ends of what is put together bear one number, and cycles
never go back in the stream (`Stitched.of_anchors`).  It is not said that a recovery ends: that
takes a cycle that arrives whole (`SnapshotQueue.lean`). -/
theorem recovers (requests : List MatchingEngineClientRequest)
    (hdoc : ∀ r ∈ requests, r.Documented) (hfew : IndexedBooks.Few .empty requests) :
    ∃ engine us, MatchingEngine.run requests = .ok engine ∧ engine.outgoingMarketUpdates = us ∧
      ((∀ vs, vs <+: us → (vs.foldl replayMarket .empty).total ≤ kMaxOrderIds) →
        ∀ points : List Nat, points.Pairwise (· ≤ ·) → (∀ n ∈ points, n ≤ us.length) →
          ∃ cycles, points.mapM (fun n => SnapshotSynthesizer.cycleAfter
              ((MarketDataPublisher.run us).snapshotMdUpdates.take n)) = .ok cycles ∧
            ∀ packets : List (List (List MarketDataPublisherMarketUpdate)),
              packets.map List.flatten = cycles → ∀ received : List Datagram,
              Channel.Delivered packets.flatten
                ((received.filter (·.isSnapshot)).map (·.records)) →
              (∀ d ∈ received, d.isSnapshot = false →
                ∀ r ∈ d.records, r ∈ (MarketDataPublisher.run us).incremental) →
              ((received.foldl recvCallback init).inRecovery = false →
                ∃ n, n ≤ us.length ∧ (received.foldl recvCallback init).nextExpIncSeqNum = n + 1 ∧
                  (received.foldl recvCallback init).incomingMdUpdates.foldl replayMarket .empty =
                    (us.take n).foldl replayMarket .empty) ∧
              Run.AlongRun replayMarket ApplicableMarket .empty
                (received.foldl recvCallback init).incomingMdUpdates) := by
  obtain ⟨engine, xs, hrun, -, hpub, -⟩ := MatchingEngine.run_published hdoc hfew
  have hshort := MatchingEngine.run_short hdoc hfew hrun
  refine ⟨engine, _, hrun, rfl, fun hroom points hasc hpoints => ?_⟩
  generalize engine.outgoingMarketUpdates = us at hpub hshort hroom hpoints
  rw [(run_publish us).1, (run_publish us).2]
  refine ⟨_, Run.mapM_ok fun n hn => cycleAfter_eq hpub hroom (hpoints n hn),
    fun packets hpackets received hdelivered hinc => ?_⟩
  obtain ⟨labelled, hmap, hpair, hlabel⟩ := exists_labels hpackets hasc
  rw [← hmap] at hdelivered
  obtain ⟨arrived, harrived, hmap'⟩ := hdelivered.exists_map
  obtain ⟨a, h⟩ := (init_inv hshort).run hpub (harrived.pairwise (fun _ _ => le_rfl) hpair)
    (fun x hx => ⟨Nat.zero_le _, hpoints _ (hlabel x (harrived.mem x hx)).1, fun r hr => by
      obtain ⟨k, hk, hseq⟩ := mem_numbered ((hlabel x (harrived.mem x hx)).2 r hr)
      exact ⟨k, by rw [hseq, Nat.zero_add], hk⟩⟩) hmap' hinc
  obtain ⟨n, hn, hfold, hnext⟩ := h.synced
  exact ⟨fun hrec => ⟨n, hn, hnext hrec, hfold⟩, h.applicable⟩

/-- Two symbols, a trade and a cancel. -/
theorem recovers_two_symbols :
    ∃ engine us, MatchingEngine.run [⟨.new, 1, 0, 1, .sell, 105, 10⟩, ⟨.new, 1, 3, 2, .buy, 7, 4⟩,
        ⟨.new, 2, 0, 1, .buy, 106, 3⟩, ⟨.canceled, 1, 3, 2, .unset, 0, 0⟩] = .ok engine ∧
      engine.outgoingMarketUpdates = us ∧
      ((∀ vs, vs <+: us → (vs.foldl replayMarket .empty).total ≤ kMaxOrderIds) →
        ∀ points : List Nat, points.Pairwise (· ≤ ·) → (∀ n ∈ points, n ≤ us.length) →
          ∃ cycles, points.mapM (fun n => SnapshotSynthesizer.cycleAfter
              ((MarketDataPublisher.run us).snapshotMdUpdates.take n)) = .ok cycles ∧
            ∀ packets : List (List (List MarketDataPublisherMarketUpdate)),
              packets.map List.flatten = cycles → ∀ received : List Datagram,
              Channel.Delivered packets.flatten
                ((received.filter (·.isSnapshot)).map (·.records)) →
              (∀ d ∈ received, d.isSnapshot = false →
                ∀ r ∈ d.records, r ∈ (MarketDataPublisher.run us).incremental) →
              ((received.foldl recvCallback init).inRecovery = false →
                ∃ n, n ≤ us.length ∧ (received.foldl recvCallback init).nextExpIncSeqNum = n + 1 ∧
                  (received.foldl recvCallback init).incomingMdUpdates.foldl replayMarket .empty =
                    (us.take n).foldl replayMarket .empty) ∧
              Run.AlongRun replayMarket ApplicableMarket .empty
                (received.foldl recvCallback init).incomingMdUpdates) :=
  recovers _ (by decide) (by decide)

end MarketDataConsumer

end YQuant
