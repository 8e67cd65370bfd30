/-
# The lock-free queue is a bounded FIFO channel

The producer has published `w` values and the consumer has released `r` of them, both counted
without a bound; the indices of the queue are these counters modulo `2 ^ 64`.  The private copies
stand for older counts, `cachedRead ≤ r` and `r ≤ cachedWrite ≤ w`, and what keeps everything apart
is one inequality about the older of the two counts the producer looks at: `w < cachedRead + 2 ^ k`.
It makes a comparison of masked words a comparison of counts, and it keeps every slot with a value
that was published and not released out of the producer's reach.

One slot more is out of its reach: the one released last.  `contents` therefore starts one value
before the unread ones.

* `bounded_fifo`: the values read are a prefix of those published, at most one of them not yet
  released; a slot keeps its value until it is released; a queue that tells its user that it is
  full or empty is so; and `size()` never underflows;
* `sizing_exact`: the size of the ring is the least power of two that holds what was asked for, and
  the mask is right for every word, also across the wrap of an index.

A queue of `2 ^ k` slots holds `2 ^ k - 1` values, as full and empty have to look different.  The
steps are taken to happen one after the other: that the memory orders of the source make them look
so to both threads is not modelled.
-/
import YQuant.Lib.RingIndex
import YQuant.LFQueue

namespace YQuant

/-! ## 1. The capacity -/

theorem kWord64_eq : kWord64 = 2 ^ 64 := by decide

/-- Six rounds of smearing reach 64 bits down: `RoundUpToPowerOf2` finds the least exponent, and
only `2 ^ 64` does not fit its word. -/
theorem roundUpToPowerOf2_smeared {n : Nat} (hpos : 1 ≤ n) (hn : n ≤ kWord64) :
    ∃ k, k ≤ 64 ∧ roundUpToPowerOf2 n = 2 ^ k % kWord64 ∧ ∀ j, k ≤ j ↔ n ≤ 2 ^ j := by
  have hlt : n - 1 < 2 ^ 64 := by
    rw [← kWord64_eq]
    omega
  have hfirst : ∀ i, (n - 1).testBit i = true ↔ ∃ j, j < 1 ∧ (n - 1).testBit (i + j) = true := by
    simp
  have hsmear := RingIndex.smear_or_shiftRight (RingIndex.smear_or_shiftRight
    (RingIndex.smear_or_shiftRight (RingIndex.smear_or_shiftRight
      (RingIndex.smear_or_shiftRight (RingIndex.smear_or_shiftRight hfirst)))))
  obtain ⟨k, hk, hy, hleast⟩ := RingIndex.smeared_eq hlt hsmear
  have hcapacity := congrArg (add64 · 1) hy
  simp only [add64, Nat.sub_add_cancel (Nat.two_pow_pos k)] at hcapacity
  refine ⟨k, hk, ?_, fun j => (hleast j).trans (by omega)⟩
  unfold roundUpToPowerOf2
  rw [if_neg (by omega)]
  exact hcapacity

/-- The capacity of a queue is a power of two. -/
theorem roundUpToPowerOf2_eq {n : Nat} (hn : n < kWord64) (hcap : 2 ≤ roundUpToPowerOf2 n) :
    ∃ k, k < 64 ∧ roundUpToPowerOf2 n = 2 ^ k := by
  have hpos : 1 ≤ n := by
    by_contra hzero
    obtain rfl : n = 0 := by omega
    simp [roundUpToPowerOf2] at hcap
  obtain ⟨k, hk, hround, -⟩ := roundUpToPowerOf2_smeared hpos hn.le
  rcases hk.lt_or_eq with hk | rfl
  · refine ⟨k, hk, hround.trans (Nat.mod_eq_of_lt ?_)⟩
    rw [kWord64_eq]
    exact Nat.pow_lt_pow_right (by decide) hk
  · have : (2 : Nat) ≤ 0 := hcap.trans_eq (hround.trans (by decide))
    omega

namespace LFQueue

/-- **Queue sizing is exact.**  The capacity of a queue is the least power of two that holds the
elements asked for, and the mask takes every 64-bit index to the index modulo the capacity: the
index after the last one too, which is 0 again, so that a count finds its slot however often its
word has wrapped. -/
theorem sizing_exact {T : Type} [Inhabited T] {n : Nat} (hpos : 1 ≤ n) (hn : n ≤ 2 ^ 63) :
    IsLeast {c | (∃ k, c = 2 ^ k) ∧ n ≤ c} (roundUpToPowerOf2 n) ∧
      (init n : LFQueue T).capacity = roundUpToPowerOf2 n ∧
      (init n : LFQueue T).mask = (init n : LFQueue T).capacity - 1 ∧
      (∀ index, index < kWord64 →
        index &&& (init n : LFQueue T).mask = index % (init n : LFQueue T).capacity ∧
        add64 index 1 &&& (init n : LFQueue T).mask =
          (index + 1) % (init n : LFQueue T).capacity) ∧
      ∀ count, count % kWord64 &&& (init n : LFQueue T).mask =
        count % (init n : LFQueue T).capacity := by
  obtain ⟨k, -, hround, hleast⟩ :=
    roundUpToPowerOf2_smeared hpos (hn.trans (by decide))
  have hk : k ≤ 63 := (hleast 63).mpr hn
  have hlt : 2 ^ k < kWord64 := by
    rw [kWord64_eq]
    exact Nat.pow_lt_pow_right (by decide) (by omega)
  have hcap : roundUpToPowerOf2 n = 2 ^ k := hround.trans (Nat.mod_eq_of_lt hlt)
  have hmask : (init n : LFQueue T).mask = 2 ^ k - 1 := by
    have hpow := Nat.two_pow_pos k
    change sub64 (roundUpToPowerOf2 n) 1 = 2 ^ k - 1
    rw [hcap, sub64_of_le hpow, Nat.mod_eq_of_lt (by omega)]
  have hcount : ∀ count, count % kWord64 &&& (init n : LFQueue T).mask =
      count % (init n : LFQueue T).capacity := by
    intro count
    rw [hmask, kWord64_eq, RingIndex.and_mask (by omega)]
    change _ = count % roundUpToPowerOf2 n
    rw [hcap]
  refine ⟨⟨⟨⟨k, hcap⟩, ?_⟩, ?_⟩, rfl, ?_, fun index hindex => ⟨?_, hcount (index + 1)⟩, hcount⟩
  · rw [hcap]
    exact (hleast k).mp le_rfl
  · rintro c ⟨⟨j, rfl⟩, hj⟩
    rw [hcap]
    exact Nat.pow_le_pow_right (by decide) ((hleast j).mpr hj)
  · rw [hmask]
    change _ = roundUpToPowerOf2 n - 1
    rw [hcap]
  · have h := hcount index
    rwa [Nat.mod_eq_of_lt hindex] at h

/-- Five elements need eight slots, and the index after the last 64-bit one is slot 0. -/
theorem sizing_exact_five :
    IsLeast {c | (∃ k, c = 2 ^ k) ∧ 5 ≤ c} (roundUpToPowerOf2 5) ∧
      (init 5 : LFQueue Nat).capacity = roundUpToPowerOf2 5 ∧
      (init 5 : LFQueue Nat).mask = (init 5 : LFQueue Nat).capacity - 1 ∧
      (∀ index, index < kWord64 →
        index &&& (init 5 : LFQueue Nat).mask = index % (init 5 : LFQueue Nat).capacity ∧
        add64 index 1 &&& (init 5 : LFQueue Nat).mask =
          (index + 1) % (init 5 : LFQueue Nat).capacity) ∧
      ∀ count, count % kWord64 &&& (init 5 : LFQueue Nat).mask =
        count % (init 5 : LFQueue Nat).capacity :=
  sizing_exact (by decide) (by decide)

end LFQueue

namespace SpscState

variable {T : Type}

/-! ## 2. The invariant -/

/-- What the producer knows where it stands. -/
def ProducerKnows (k cachedRead : Nat) (s : SpscState T) (h : History T) : Prop :=
  match s.producer with
  | .idle => True
  | .reload currentWrite => currentWrite = s.queue.nextWriteIndex
  | .slot index =>
    index = h.published.length % 2 ^ k ∧ h.published.length + 1 < cachedRead + 2 ^ k
  | .written value =>
    s.queue.store (h.published.length % 2 ^ k) = value ∧
      h.published.length + 1 < cachedRead + 2 ^ k
  | .storing value currentWriteIndex =>
    s.queue.store (h.published.length % 2 ^ k) = value ∧
      h.published.length + 1 < cachedRead + 2 ^ k ∧ currentWriteIndex = s.queue.nextWriteIndex

/-- What the consumer knows where it stands, and what it has read. -/
def ConsumerKnows (k cachedWrite : Nat) (s : SpscState T) (h : History T) : Prop :=
  match s.consumer with
  | .idle => h.taken = h.published.take h.released
  | .reload currentRead =>
    h.taken = h.published.take h.released ∧ currentRead = s.queue.nextReadIndex
  | .slot index =>
    h.taken = h.published.take h.released ∧ h.released < cachedWrite ∧
      index = h.released % 2 ^ k
  | .taken => h.taken = h.published.take (h.released + 1) ∧ h.released < cachedWrite
  | .storing currentReadIndex =>
    h.taken = h.published.take (h.released + 1) ∧ h.released < cachedWrite ∧
      currentReadIndex = s.queue.nextReadIndex

/-- **The invariant of a queue with `2 ^ k` slots**; the private copies stand for the counts
`cachedRead` and `cachedWrite`. -/
structure Inv (k cachedRead cachedWrite : Nat) (s : SpscState T) (h : History T) : Prop where
  width : k < 64
  mask : s.queue.mask = 2 ^ k - 1
  nextWrite : s.queue.nextWriteIndex = h.published.length % kWord64
  nextRead : s.queue.nextReadIndex = h.released % kWord64
  readCopy : s.queue.cachedReadIndex = cachedRead % kWord64
  writeCopy : s.queue.cachedWriteIndex = cachedWrite % kWord64
  cachedRead_le : cachedRead ≤ h.released
  released_le : h.released ≤ cachedWrite
  cachedWrite_le : cachedWrite ≤ h.published.length
  room : h.published.length < cachedRead + 2 ^ k
  contents : ∀ i v, h.published[i]? = some v → h.released ≤ i + 1 →
    s.queue.store (i % 2 ^ k) = v
  producer : ProducerKnows k cachedRead s h
  consumer : ConsumerKnows k cachedWrite s h
  observers : ∀ i r, s.observers i = some r →
    h.observed i ≤ h.released ∧ r = h.observed i % kWord64

/-- What an event tells the users of a queue of capacity `capacity`. -/
def Sound (capacity : Nat) (h : History T) : SpscEvent T → Prop
  | .full => h.published.length = h.released + (capacity - 1)
  | .empty => h.published.length = h.released
  | .read value => h.published[h.released]? = some value
  | .sized thread size => h.observed thread ≤ h.published.length ∧
      size = (h.published.length - h.observed thread) % kWord64
  | _ => True

theorem init_inv [Inhabited T] {k n : Nat} (hk : k < 64) (hcap : roundUpToPowerOf2 n = 2 ^ k) :
    Inv k 0 0 (init n : SpscState T) History.empty where
  width := hk
  mask := by
    change sub64 (roundUpToPowerOf2 n) 1 = _
    rw [hcap, sub64_of_le Nat.one_le_two_pow]
    refine Nat.mod_eq_of_lt ?_
    have := Nat.pow_lt_pow_right (a := 2) (by decide) hk
    rw [kWord64_eq]
    omega
  nextWrite := rfl
  nextRead := rfl
  readCopy := rfl
  writeCopy := rfl
  cachedRead_le := Nat.zero_le _
  released_le := Nat.zero_le _
  cachedWrite_le := Nat.zero_le _
  room := by
    rw [Nat.zero_add]
    exact Nat.two_pow_pos k
  contents := fun i v hv => by simp [History.empty] at hv
  producer := trivial
  consumer := rfl
  observers := fun i r hr => by simp [init] at hr

namespace Inv

variable {k cr cw : Nat} {s s' : SpscState T} {h : History T} {e : SpscEvent T}

/-- The slot of a word is the slot of its count. -/
theorem masked (hi : Inv k cr cw s h) (a : Nat) : a % kWord64 &&& s.queue.mask = a % 2 ^ k := by
  rw [hi.mask, kWord64_eq]
  exact RingIndex.and_mask hi.width.le

/-- `TryGetNextToWriteTo` compares counts. -/
theorem looksFull_iff (hi : Inv k cr cw s h) {r : Nat} (hle : r ≤ h.published.length)
    (hroom : h.published.length < r + 2 ^ k) :
    s.queue.looksFull s.queue.nextWriteIndex (r % kWord64) ↔
      h.published.length + 1 = r + 2 ^ k := by
  rw [LFQueue.looksFull, hi.nextWrite, add64_mod, hi.masked, hi.masked]
  constructor
  · intro heq
    by_contra hne
    have := (RingIndex.mod_eq_iff (by omega) (by omega)).mp heq.symm
    omega
  · intro heq
    rw [heq, Nat.add_mod_right]

/-- `GetNextToRead` compares counts. -/
theorem looksEmpty_iff (hi : Inv k cr cw s h) {w : Nat} (hle : h.released ≤ w)
    (hw : w ≤ h.published.length) :
    s.queue.nextReadIndex = w % kWord64 ↔ h.released = w := by
  rw [hi.nextRead]
  have hpow : 2 ^ k ≤ kWord64 := by
    rw [kWord64_eq]
    exact Nat.pow_le_pow_right (by decide) hi.width.le
  have hroom := hi.room
  have hcr := hi.cachedRead_le
  exact RingIndex.mod_eq_iff hle (by omega)

/-- A value just published is not in the way: the slot of the next one is neither unread nor the one
released last. -/
theorem slot_free (hi : Inv k cr cw s h) (hroom : h.published.length + 1 < cr + 2 ^ k) {i : Nat}
    (hlt : i < h.published.length) (hreleased : h.released ≤ i + 1) :
    i % 2 ^ k ≠ h.published.length % 2 ^ k := by
  intro heq
  have hcr := hi.cachedRead_le
  have := (RingIndex.mod_eq_iff hlt.le (by omega)).mp heq
  omega

/-! ## 3. The producer -/

/-- A new value is none of the values the consumer has read. -/
theorem consumer_published (hi : Inv k cr cw s h) (value : T) {s' : SpscState T}
    (hconsumer : s'.consumer = s.consumer)
    (hread : s'.queue.nextReadIndex = s.queue.nextReadIndex) :
    ConsumerKnows k cw s' { h with published := h.published ++ [value] } := by
  have hknows := hi.consumer
  have hle := hi.released_le.trans hi.cachedWrite_le
  have htake : ∀ n, n ≤ h.published.length →
      (h.published ++ [value]).take n = h.published.take n := fun n hn =>
    List.take_append_of_le_length hn
  unfold ConsumerKnows at hknows ⊢
  rw [hconsumer]
  cases hc : s.consumer with
  | idle =>
    rw [hc] at hknows
    simpa only [htake _ hle] using hknows
  | reload currentRead =>
    rw [hc] at hknows
    simpa only [htake _ hle, hread] using hknows
  | slot index =>
    rw [hc] at hknows
    simpa only [htake _ hle] using hknows
  | taken =>
    rw [hc] at hknows
    have hlt : h.released + 1 ≤ h.published.length := hknows.2.trans_le hi.cachedWrite_le
    simpa only [htake _ hlt] using hknows
  | storing currentReadIndex =>
    rw [hc] at hknows
    have hlt : h.released + 1 ≤ h.published.length := hknows.2.1.trans_le hi.cachedWrite_le
    simpa only [htake _ hlt, hread] using hknows

theorem produce (hi : Inv k cr cw s h) (value : T) :
    Sound (2 ^ k) h (s.produce value).2 ∧
      ∃ cr', Inv k cr' cw (s.produce value).1 (h.record (s.produce value).2) := by
  have hknows := hi.producer
  have hle := hi.cachedRead_le.trans (hi.released_le.trans hi.cachedWrite_le)
  have hwrite := hi.masked h.published.length
  rw [← hi.nextWrite] at hwrite
  unfold ProducerKnows at hknows
  unfold SpscState.produce
  cases hp : s.producer with
  | idle =>
    have hfull := hi.looksFull_iff hle hi.room
    rw [← hi.readCopy] at hfull
    dsimp only
    split
    · exact ⟨trivial, cr, { hi with producer := rfl }⟩
    · next hne =>
      rw [hfull] at hne
      have hroom : h.published.length + 1 < cr + 2 ^ k :=
        Nat.lt_of_le_of_ne hi.room hne
      exact ⟨trivial, cr, { hi with producer := ⟨hwrite, hroom⟩ }⟩
  | reload currentWrite =>
    rw [hp] at hknows
    obtain rfl := hknows
    have hread := hi.released_le.trans hi.cachedWrite_le
    have hroom : h.published.length < h.released + 2 ^ k :=
      hi.room.trans_le (Nat.add_le_add_right hi.cachedRead_le _)
    have hfull := hi.looksFull_iff hread hroom
    rw [← hi.nextRead] at hfull
    dsimp only
    split
    · next heq =>
      rw [hfull] at heq
      have hpow := Nat.two_pow_pos k
      refine ⟨?_, h.released, { hi with
        readCopy := hi.nextRead, cachedRead_le := le_rfl, room := hroom, producer := trivial }⟩
      change h.published.length = h.released + (2 ^ k - 1)
      omega
    · next hne =>
      rw [hfull] at hne
      exact ⟨trivial, h.released, { hi with
        readCopy := hi.nextRead, cachedRead_le := le_rfl, room := hroom
        producer := ⟨hwrite, Nat.lt_of_le_of_ne hroom hne⟩ }⟩
  | slot index =>
    rw [hp] at hknows
    obtain ⟨rfl, hroom⟩ := hknows
    refine ⟨trivial, cr, { hi with contents := fun i v hv hr => ?_, producer := ?_ }⟩
    · obtain ⟨hlt, -⟩ := List.getElem?_eq_some_iff.mp hv
      dsimp only
      rw [Function.update_of_ne (hi.slot_free hroom hlt hr)]
      exact hi.contents i v hv hr
    · exact ⟨Function.update_self _ _ _, hroom⟩
  | written value =>
    rw [hp] at hknows
    exact ⟨trivial, cr, { hi with producer := ⟨hknows.1, hknows.2, rfl⟩ }⟩
  | storing value currentWriteIndex =>
    rw [hp] at hknows
    obtain ⟨hvalue, hroom, rfl⟩ := hknows
    have hlen : (h.published ++ [value]).length = h.published.length + 1 := List.length_append
    refine ⟨trivial, cr, { hi with
      nextWrite := ?_, cachedWrite_le := ?_, room := ?_, contents := fun i v hv hr => ?_
      producer := trivial, consumer := ?_ }⟩
    · change add64 s.queue.nextWriteIndex 1 = (h.published ++ [value]).length % kWord64
      rw [hlen, hi.nextWrite, add64_mod]
    · exact hi.cachedWrite_le.trans (hlen ▸ Nat.le_succ _)
    · exact hlen ▸ hroom
    · rcases Nat.lt_or_ge i h.published.length with hlt | hge
      · exact hi.contents i v ((List.getElem?_append_left hlt).symm.trans hv) hr
      · obtain ⟨hlt, hget⟩ := List.getElem?_eq_some_iff.mp hv
        obtain rfl : i = h.published.length := by
          have : i < (h.published ++ [value]).length := hlt
          omega
        have hv' : value = v := by simpa [History.record] using hget
        exact hvalue.trans hv'
    · exact hi.consumer_published value rfl rfl
/-! ## 4. The consumer and the threads inside `size()` -/

theorem consume (hi : Inv k cr cw s h) :
    Sound (2 ^ k) h s.consume.2 ∧ ∃ cw', Inv k cr cw' s.consume.1 (h.record s.consume.2) := by
  have hknows := hi.consumer
  have hread := hi.masked h.released
  rw [← hi.nextRead] at hread
  unfold ConsumerKnows at hknows
  unfold SpscState.consume
  cases hc : s.consumer with
  | idle =>
    rw [hc] at hknows
    have hempty := hi.looksEmpty_iff hi.released_le hi.cachedWrite_le
    rw [← hi.writeCopy] at hempty
    dsimp only
    split
    · exact ⟨trivial, cw, { hi with consumer := ⟨hknows, rfl⟩ }⟩
    · next hne =>
      rw [hempty] at hne
      exact ⟨trivial, cw, { hi with
        consumer := ⟨hknows, Nat.lt_of_le_of_ne hi.released_le hne, hread⟩ }⟩
  | reload currentRead =>
    rw [hc] at hknows
    obtain ⟨htaken, rfl⟩ := hknows
    have hle := hi.released_le.trans hi.cachedWrite_le
    have hempty := hi.looksEmpty_iff hle le_rfl
    rw [← hi.nextWrite] at hempty
    dsimp only
    split
    · next heq =>
      rw [hempty] at heq
      exact ⟨heq.symm, h.published.length, { hi with
        writeCopy := hi.nextWrite, released_le := hle, cachedWrite_le := le_rfl
        consumer := htaken }⟩
    · next hne =>
      rw [hempty] at hne
      exact ⟨trivial, h.published.length, { hi with
        writeCopy := hi.nextWrite, released_le := hle, cachedWrite_le := le_rfl
        consumer := ⟨htaken, Nat.lt_of_le_of_ne hle hne, hread⟩ }⟩
  | slot index =>
    rw [hc] at hknows
    obtain ⟨htaken, hlt, rfl⟩ := hknows
    have hlt' := hlt.trans_le hi.cachedWrite_le
    have hget : h.published[h.released]? = some h.published[h.released] :=
      List.getElem?_eq_getElem hlt'
    have hstore := hi.contents h.released _ hget (Nat.le_succ _)
    refine ⟨hget.trans (congrArg some hstore.symm), cw, { hi with consumer := ⟨?_, hlt⟩ }⟩
    change h.taken ++ [s.queue.store (h.released % 2 ^ k)] = h.published.take (h.released + 1)
    rw [htaken, hstore, List.take_append_getElem hlt']
  | taken =>
    rw [hc] at hknows
    exact ⟨trivial, cw, { hi with consumer := ⟨hknows.1, hknows.2, rfl⟩ }⟩
  | storing currentReadIndex =>
    rw [hc] at hknows
    obtain ⟨htaken, hlt, rfl⟩ := hknows
    refine ⟨trivial, cw, { hi with
      nextRead := ?_, cachedRead_le := Nat.le_succ_of_le hi.cachedRead_le, released_le := hlt
      contents := fun i v hv hr => hi.contents i v hv (Nat.le_of_succ_le hr), consumer := htaken
      observers := fun i r hr =>
        ⟨Nat.le_succ_of_le (hi.observers i r hr).1, (hi.observers i r hr).2⟩ }⟩
    change add64 s.queue.nextReadIndex 1 = (h.released + 1) % kWord64
    rw [hi.nextRead, add64_mod]

/-- `size()` does not underflow: the write index is loaded last. -/
theorem observe (hi : Inv k cr cw s h) (thread : Nat) :
    Sound (2 ^ k) h (s.observe thread).2 ∧
      Inv k cr cw (s.observe thread).1 (h.record (s.observe thread).2) := by
  unfold SpscState.observe
  cases ho : s.observers thread with
  | none =>
    refine ⟨trivial, { hi with observers := fun i r hr => ?_ }⟩
    dsimp only [History.record] at hr ⊢
    by_cases he : i = thread
    · subst he
      rw [Function.update_self] at hr ⊢
      exact ⟨le_rfl, (Option.some.inj hr).symm.trans hi.nextRead⟩
    · rw [Function.update_of_ne he] at hr ⊢
      exact hi.observers i r hr
  | some r =>
    obtain ⟨hle, rfl⟩ := hi.observers thread r ho
    have hle' := hle.trans (hi.released_le.trans hi.cachedWrite_le)
    refine ⟨⟨hle', ?_⟩, { hi with observers := fun i r hr => ?_ }⟩
    · rw [hi.nextWrite, sub64_mod_right, sub64_mod hle']
    · dsimp only [History.record] at hr ⊢
      by_cases he : i = thread
      · subst he
        rw [Function.update_self] at hr
        cases hr
      · rw [Function.update_of_ne he] at hr
        exact hi.observers i r hr

/-- **One step keeps the invariant** and says something true. -/
theorem step (hi : Inv k cr cw s h) {action : SpscAction T} (hstep : s.step action = some (s', e)) :
    Sound (2 ^ k) h e ∧ ∃ cr' cw', Inv k cr' cw' s' (h.record e) := by
  cases action with
  | producer value =>
    obtain ⟨hsound, cr', hi'⟩ := hi.produce value
    rw [Option.some.inj hstep] at hsound hi'
    exact ⟨hsound, cr', cw, hi'⟩
  | consumer =>
    obtain ⟨hsound, cw', hi'⟩ := hi.consume
    rw [Option.some.inj hstep] at hsound hi'
    exact ⟨hsound, cr, cw', hi'⟩
  | giveUp =>
    have hknows := hi.consumer
    unfold ConsumerKnows at hknows
    unfold SpscState.step at hstep
    cases hc : s.consumer with
    | slot index =>
      rw [hc] at hstep hknows
      obtain ⟨rfl, rfl⟩ := Prod.mk.inj (Option.some.inj hstep)
      exact ⟨trivial, cr, cw, { hi with consumer := hknows.1 }⟩
    | _ =>
      rw [hc] at hstep
      cases hstep
  | observer thread =>
    obtain ⟨hsound, hi'⟩ := hi.observe thread
    rw [Option.some.inj hstep] at hsound hi'
    exact ⟨hsound, cr, cw, hi'⟩

end Inv

section Frames

variable {s : SpscState T} (h : History T)

/-- The producer leaves the consumer alone and only publishes. -/
theorem produce_frame (value : T) : (s.produce value).1.consumer = s.consumer ∧
    (h.record (s.produce value).2).released = h.released ∧
    ∃ l, (h.record (s.produce value).2).published = h.published ++ l := by
  unfold SpscState.produce
  cases hp : s.producer with
  | idle => dsimp only; split <;> exact ⟨rfl, rfl, [], (List.append_nil _).symm⟩
  | reload currentWrite => dsimp only; split <;> exact ⟨rfl, rfl, [], (List.append_nil _).symm⟩
  | slot index => exact ⟨rfl, rfl, [], (List.append_nil _).symm⟩
  | written value => exact ⟨rfl, rfl, [], (List.append_nil _).symm⟩
  | storing value currentWriteIndex => exact ⟨rfl, rfl, [value], rfl⟩

/-- The consumer leaves the producer alone and publishes nothing. -/
theorem consume_frame : s.consume.1.producer = s.producer ∧
    (h.record s.consume.2).published = h.published := by
  unfold SpscState.consume
  cases hc : s.consumer with
  | idle => dsimp only; split <;> exact ⟨rfl, rfl⟩
  | reload currentRead => dsimp only; split <;> exact ⟨rfl, rfl⟩
  | slot index => exact ⟨rfl, rfl⟩
  | taken => exact ⟨rfl, rfl⟩
  | storing currentReadIndex => exact ⟨rfl, rfl⟩

/-- A consumer inside `GetNextToRead` ends up there, outside or with a slot. -/
theorem consume_asking (hc : s.consumer = .idle ∨ ∃ r, s.consumer = .reload r) :
    (h.record s.consume.2).released = h.released ∧
      ((s.consume.1.consumer = .idle ∨ ∃ r, s.consume.1.consumer = .reload r) ∨
        ∃ index, s.consume.1.consumer = .slot index) := by
  unfold SpscState.consume
  rcases hc with hc | ⟨r, hc⟩
  · rw [hc]
    dsimp only
    split
    · exact ⟨rfl, .inl (.inr ⟨_, rfl⟩)⟩
    · exact ⟨rfl, .inr ⟨_, rfl⟩⟩
  · rw [hc]
    dsimp only
    split
    · exact ⟨rfl, .inl (.inl rfl)⟩
    · exact ⟨rfl, .inr ⟨_, rfl⟩⟩

/-- A producer inside `TryGetNextToWriteTo` ends up there, outside or with a slot. -/
theorem produce_asking (value : T)
    (hp : s.producer = .idle ∨ ∃ w, s.producer = .reload w) :
    (h.record (s.produce value).2).published = h.published ∧
      ((s.produce value).1.producer = .idle ∨ (∃ w, (s.produce value).1.producer = .reload w) ∨
        ∃ index, (s.produce value).1.producer = .slot index) := by
  unfold SpscState.produce
  rcases hp with hp | ⟨w, hp⟩
  · rw [hp]
    dsimp only
    split
    · exact ⟨rfl, .inr (.inl ⟨_, rfl⟩)⟩
    · exact ⟨rfl, .inr (.inr ⟨_, rfl⟩)⟩
  · rw [hp]
    dsimp only
    split
    · exact ⟨rfl, .inl rfl⟩
    · exact ⟨rfl, .inr (.inr ⟨_, rfl⟩)⟩

theorem observe_frame (thread : Nat) : (s.observe thread).1.producer = s.producer ∧
    (s.observe thread).1.consumer = s.consumer ∧
    (h.record (s.observe thread).2).published = h.published ∧
    (h.record (s.observe thread).2).released = h.released := by
  unfold SpscState.observe
  cases ho : s.observers thread <;> exact ⟨rfl, rfl, rfl, rfl⟩

/-- Whoever is not the producer publishes nothing. -/
theorem step_frame {s' : SpscState T} {action : SpscAction T} {e : SpscEvent T}
    (hstep : s.step action = some (s', e)) (haction : ∀ value, action ≠ .producer value) :
    s'.producer = s.producer ∧ (h.record e).published = h.published := by
  cases action with
  | producer value => exact absurd rfl (haction value)
  | consumer =>
    have hframe := consume_frame (s := s) h
    rwa [Option.some.inj hstep] at hframe
  | giveUp =>
    simp only [SpscState.step] at hstep
    split at hstep
    · obtain ⟨rfl, rfl⟩ := Prod.mk.inj (Option.some.inj hstep)
      exact ⟨rfl, rfl⟩
    · cases hstep
  | observer thread =>
    obtain ⟨hproducer, -, hpublished, -⟩ := observe_frame (s := s) h thread
    rw [Option.some.inj hstep] at hproducer hpublished
    exact ⟨hproducer, hpublished⟩

end Frames

/-! ## 5. Every interleaving -/

theorem Reachable.inv [Inhabited T] {n k : Nat} (hk : k < 64)
    (hcap : roundUpToPowerOf2 n = 2 ^ k) {s : SpscState T} {h : History T}
    (hreach : Reachable n s h) : ∃ cr cw, Inv k cr cw s h := by
  induction hreach with
  | init => exact ⟨0, 0, init_inv hk hcap⟩
  | step _ hstep ih =>
    obtain ⟨cr, cw, hi⟩ := ih
    exact (hi.step hstep).2

/-- **The lock-free queue is a bounded FIFO channel.**  In every state that any interleaving
reaches, the values read are a prefix of the values published; at most one of them is not released,
and at most `C - 1` published ones are not; a published slot that is not released holds its value
and is not the slot the producer is about to write; and `full`, `empty`, `read` and `sized` say what
`Sound` says. -/
theorem bounded_fifo [Inhabited T] {n : Nat} (hn : n < kWord64) (hcap : 2 ≤ roundUpToPowerOf2 n)
    {s : SpscState T} {h : History T} (hreach : Reachable n s h) :
    h.taken <+: h.published ∧
      h.released ≤ h.taken.length ∧ h.taken.length ≤ h.released + 1 ∧
      h.published.length ≤ h.released + (roundUpToPowerOf2 n - 1) ∧
      (∀ i v, h.released ≤ i → h.published[i]? = some v →
        s.queue.store (i % roundUpToPowerOf2 n) = v ∧
          s.producer ≠ .slot (i % roundUpToPowerOf2 n)) ∧
      ∀ action s' e, s.step action = some (s', e) → Sound (roundUpToPowerOf2 n) h e := by
  obtain ⟨k, hk, hpow⟩ := roundUpToPowerOf2_eq hn hcap
  obtain ⟨cr, cw, hi⟩ := hreach.inv hk hpow
  rw [hpow]
  have hle := hi.released_le.trans hi.cachedWrite_le
  have hroom := hi.room
  have hcr := hi.cachedRead_le
  have htaken : ∃ m, h.taken = h.published.take m ∧ h.released ≤ m ∧ m ≤ h.released + 1 ∧
      m ≤ h.published.length := by
    have hknows := hi.consumer
    unfold ConsumerKnows at hknows
    have hcw := hi.cachedWrite_le
    split at hknows
    · exact ⟨_, hknows, le_rfl, Nat.le_succ _, hle⟩
    · exact ⟨_, hknows.1, le_rfl, Nat.le_succ _, hle⟩
    · exact ⟨_, hknows.1, le_rfl, Nat.le_succ _, hle⟩
    · exact ⟨_, hknows.1, Nat.le_succ _, le_rfl, hknows.2.trans_le hcw⟩
    · exact ⟨_, hknows.1, Nat.le_succ _, le_rfl, hknows.2.1.trans_le hcw⟩
  obtain ⟨m, hm, hlow, hhigh, hlen⟩ := htaken
  have hlength : h.taken.length = m := by rw [hm, List.length_take, min_eq_left hlen]
  refine ⟨hm ▸ List.take_prefix m _, by omega, by omega, by omega, fun i v hr hv => ⟨?_, ?_⟩, ?_⟩
  · exact hi.contents i v hv (Nat.le_succ_of_le hr)
  · intro hp
    have hknows := hi.producer
    unfold ProducerKnows at hknows
    rw [hp] at hknows
    obtain ⟨hlt, -⟩ := List.getElem?_eq_some_iff.mp hv
    exact hi.slot_free hknows.2 hlt (Nat.le_succ_of_le hr) hknows.1
  · exact fun action s' e hstep => (hi.step hstep).1

/-- A value published by the slow path, and a read that finds it. -/
theorem bounded_fifo_slow_path :
    ∃ (s : SpscState Nat) (h : History Nat), Reachable 2 s h ∧ h.taken = [42] ∧
      h.taken <+: h.published ∧
      h.released ≤ h.taken.length ∧ h.taken.length ≤ h.released + 1 ∧
      h.published.length ≤ h.released + (roundUpToPowerOf2 2 - 1) ∧
      (∀ i v, h.released ≤ i → h.published[i]? = some v →
        s.queue.store (i % roundUpToPowerOf2 2) = v ∧
          s.producer ≠ .slot (i % roundUpToPowerOf2 2)) ∧
      ∀ action s' e, s.step action = some (s', e) → Sound (roundUpToPowerOf2 2) h e := by
  have hreach : ∃ (s : SpscState Nat) (h : History Nat), Reachable 2 s h ∧ h.taken = [42] := by
    have h₁ : Reachable 2 _ _ :=
      .step .init (rfl : (init 2 : SpscState Nat).step (.producer 42) = _)
    have h₂ := Reachable.step h₁ (rfl : SpscState.step _ (.producer 42) = _)
    have h₃ := Reachable.step h₂ (rfl : SpscState.step _ (.producer 42) = _)
    have h₄ := Reachable.step h₃ (rfl : SpscState.step _ (.producer 42) = _)
    have h₅ := Reachable.step h₄ (rfl : SpscState.step _ .consumer = _)
    have h₆ := Reachable.step h₅ (rfl : SpscState.step _ .consumer = _)
    exact ⟨_, _, Reachable.step h₆ (rfl : SpscState.step _ .consumer = _), rfl⟩
  obtain ⟨s, h, hreach, htaken⟩ := hreach
  exact ⟨s, h, hreach, htaken, bounded_fifo (by decide) (by decide) hreach⟩

end SpscState

end YQuant
