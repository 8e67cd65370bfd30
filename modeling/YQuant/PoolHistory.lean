/-
# What a pool has handed out

A pool under any calls that return only what is live.  `PoolRun` keeps beside the pool what the
calls say about it: which objects have been handed out and not been returned, and how many were in
use after each call.

`Tracks` is what every call keeps; the high-water mark is the largest number of objects ever in use
because the cursor moves only when every slot below it is live.

`hands_out_once` is about every state that calls can reach: the handed-out slots are distinct, lie
within the capacity, and are the live ones of the pool.  Both halves of an allocation matter for
the high-water mark.  A recycled slot leaves the cursor where it is; and a fresh slot is only taken
when the free list is empty, that is when everything below the cursor is in use.

`Warmup` may be called at any time: the bytes it writes are those of slots that have never been
handed out (`slot_of_mem_warmupOffsets`), so no object and no link is touched.  A caller that
returns a slot twice, or one that was never handed out, is outside of this.
-/
import YQuant.MemPool
import YQuant.Lib.Run

namespace YQuant

namespace MemPool

variable {T : Type} {p p' : MemPool T} {live : List Nat} {a blockSize : Nat} {value : T}

/-! ## 1. The bytes that `Warmup` writes -/

/-- **`Warmup` writes to slots that have not been handed out**, and within the storage. -/
theorem slot_of_mem_warmupOffsets (hsize : 0 < blockSize) {count offset : Nat}
    (h : offset ∈ p.warmupOffsets blockSize count) :
    p.nextUnused ≤ offset / blockSize ∧ offset / blockSize < p.capacity := by
  unfold warmupOffsets at h
  dsimp only at h
  split at h
  · cases h
  · next hlimit =>
    have hlt : p.nextUnused < min count p.capacity := Nat.not_le.mp hlimit
    have hroom : p.nextUnused * blockSize < min count p.capacity * blockSize :=
      Nat.mul_lt_mul_of_pos_right hlt hsize
    have hrange : p.nextUnused * blockSize ≤ offset ∧
        offset < min count p.capacity * blockSize := by
      rcases List.mem_append.mp h with h | h
      · obtain ⟨i, hi, rfl⟩ := List.mem_range'.mp h
        unfold kPageStride at hi ⊢
        omega
      · rw [List.mem_singleton.mp h]
        omega
    refine ⟨(Nat.le_div_iff_mul_le hsize).mpr hrange.1, ?_⟩
    exact ((Nat.div_lt_iff_lt_mul hsize).mpr hrange.2).trans_le (min_le_right _ _)

/-- Writing to slots from the cursor on changes nothing below it. -/
theorem foldl_touch (offsets : List Nat)
    (h : ∀ offset ∈ offsets, p.nextUnused ≤ offset / blockSize) :
    let p' := offsets.foldl (fun p offset => p.touch (offset / blockSize)) p
    p' = { p with storage := p'.storage } ∧ ∀ a < p.nextUnused, p'.storage a = p.storage a := by
  induction offsets generalizing p with
  | nil => exact ⟨rfl, fun _ _ => rfl⟩
  | cons offset offsets ih =>
    obtain ⟨hsame, hbelow⟩ := ih (p := p.touch (offset / blockSize))
      fun o ho => h o (List.mem_cons_of_mem offset ho)
    refine ⟨hsame, fun a ha => (hbelow a ha).trans (Function.update_of_ne ?_ _ _)⟩
    exact Nat.ne_of_lt (ha.trans_le (h offset List.mem_cons_self))

/-- **`Warmup` changes nothing below the cursor.** -/
theorem warmup_spec (p : MemPool T) (hsize : 0 < blockSize) (count : Nat) :
    p.warmup blockSize count = { p with storage := (p.warmup blockSize count).storage } ∧
      ∀ a < p.nextUnused, (p.warmup blockSize count).storage a = p.storage a :=
  foldl_touch _ fun _ ho => (slot_of_mem_warmupOffsets hsize ho).1

theorem object?_warmup (hsize : 0 < blockSize) {count : Nat} (ha : a < p.nextUnused) :
    (p.warmup blockSize count).object? a = p.object? a := by
  unfold object?
  rw [(p.warmup_spec hsize count).2 a ha]

/-- The slots on the free list are those below the cursor that are not live. -/
theorem mem_free_iff {free : List Nat}
    (hperm : (live ++ free).Perm (List.range p.nextUnused)) :
    a ∈ free ↔ a < p.nextUnused ∧ a ∉ live := by
  have hnodup := List.nodup_append.mp (hperm.nodup_iff.mpr List.nodup_range)
  have hmem : a ∈ live ++ free ↔ a < p.nextUnused := hperm.mem_iff.trans List.mem_range
  constructor
  · intro ha
    exact ⟨hmem.mp (List.mem_append_right _ ha), fun hlive => hnodup.2.2 a hlive a ha rfl⟩
  · rintro ⟨hlt, hlive⟩
    exact (List.mem_append.mp (hmem.mpr hlt)).resolve_left hlive

namespace Inv

theorem warmup (h : p.Inv live) (hsize : 0 < blockSize) (count : Nat) :
    (p.warmup blockSize count).Inv live := by
  obtain ⟨hsame, hbelow⟩ := p.warmup_spec hsize count
  obtain ⟨free, hfree, hperm⟩ := h.slots
  rw [hsame]
  refine ⟨⟨free, hfree.congr fun a ha => hbelow a ?_, hperm⟩, fun a ha => ?_, h.inUse, h.bounded⟩
  · exact ((mem_free_iff hperm).mp ha).1
  · obtain ⟨value, hvalue⟩ := h.objects a ha
    exact ⟨value, by rw [← hsame, object?_warmup hsize (h.lt_nextUnused ha), hvalue]⟩

theorem length_le_nextUnused (h : p.Inv live) : live.length ≤ p.nextUnused := by
  obtain ⟨free, -, hperm⟩ := h.slots
  have hlength := hperm.length_eq
  rw [List.length_append, List.length_range] at hlength
  omega

/-- With an empty free list every slot below the cursor is live. -/
theorem length_eq_of_freeHead (h : p.Inv live) (hnone : p.freeHead = none) :
    live.length = p.nextUnused := by
  obtain ⟨free, hfree, hperm⟩ := h.slots
  have hnil : free = [] := by
    cases free with
    | nil => rfl
    | cons a free =>
      rw [hnone] at hfree
      cases hfree.1
  rw [hnil, List.append_nil] at hperm
  rw [hperm.length_eq, List.length_range]

/-- **What a successful allocation does.** -/
theorem of_allocate (h : p.Inv live) (halloc : p.allocate value = .ok (a, p')) :
    a ∉ live ∧ p'.Inv (live ++ [a]) ∧ p'.capacity = p.capacity ∧
      ∀ b, p'.object? b = if b = a then some value else p.object? b := by
  have hlt : live.length < p.capacity := by
    by_contra hge
    have hfull := h.allocate_full (Nat.le_antisymm h.length_le (Nat.not_lt.mp hge)) value
    rw [halloc] at hfull
    cases hfull
  obtain ⟨a', q, hq, hspec⟩ := h.allocate_spec hlt value
  obtain ⟨rfl, rfl⟩ := Prod.mk.inj (Except.ok.inj (halloc.symm.trans hq))
  exact hspec

/-- **The cursor moves only when every slot below it is live.** -/
theorem nextUnused_allocate (h : p.Inv live) (halloc : p.allocate value = .ok (a, p')) :
    p'.nextUnused = max p.nextUnused (live.length + 1) := by
  obtain ⟨-, hinv, -⟩ := h.of_allocate halloc
  have hlength := hinv.length_le_nextUnused
  rw [List.length_append, List.length_singleton] at hlength
  unfold MemPool.allocate at halloc
  cases hhead : p.freeHead with
  | some block =>
    rw [hhead] at halloc
    dsimp only at halloc
    split at halloc
    · cases halloc
      exact (max_eq_left hlength).symm
    · cases halloc
  | none =>
    rw [hhead] at halloc
    obtain ⟨-, -, hok⟩ := bind_ok halloc
    cases hok
    rw [h.length_eq_of_freeHead hhead]
    exact (max_eq_right (Nat.le_succ _)).symm

theorem allocate_iff (h : p.Inv live) (value : T) :
    (∃ r, p.allocate value = .ok r) ↔ live.length ≠ p.capacity := by
  constructor
  · rintro ⟨r, hr⟩ hfull
    rw [h.allocate_full hfull] at hr
    cases hr
  · intro hne
    obtain ⟨a, p', halloc, -⟩ := h.allocate_spec (Nat.lt_of_le_of_ne h.length_le hne) value
    exact ⟨_, halloc⟩

end Inv

end MemPool

/-! ## 2. A pool and its history -/

inductive PoolCall (T : Type) where
  | allocate (value : T)
  | deallocate (elem : Nat)
  | warmup (count : Nat)

/-- A pool, with what its calls say about it. -/
structure PoolRun (T : Type) where
  pool : MemPool T
  /-- The objects handed out and not returned. -/
  live : List (Nat × T)
  /-- `in_use()` at the start and after every call. -/
  usage : List Nat

namespace PoolRun

variable {T : Type}

def start (capacity : Nat) : PoolRun T := ⟨.init capacity, [], [0]⟩

/-- The slots of the live objects. -/
def slots (s : PoolRun T) : List Nat := s.live.map Prod.fst

def step (blockSize : Nat) (s : PoolRun T) : PoolCall T → Except Fault (PoolRun T)
  | .allocate value => do
    let (a, pool) ← s.pool.allocate value
    .ok ⟨pool, s.live ++ [(a, value)], s.usage ++ [pool.inUse]⟩
  | .deallocate elem =>
    let pool := s.pool.deallocate elem
    .ok ⟨pool, s.live.filter fun e => e.1 ≠ elem, s.usage ++ [pool.inUse]⟩
  | .warmup count =>
    let pool := s.pool.warmup blockSize count
    .ok ⟨pool, s.live, s.usage ++ [pool.inUse]⟩

/-- Only live elements are returned. -/
def Allowed (s : PoolRun T) : PoolCall T → Prop
  | .deallocate elem => elem ∈ s.slots
  | .allocate _ | .warmup _ => True

instance (s : PoolRun T) : (call : PoolCall T) → Decidable (s.Allowed call)
  | .deallocate elem => inferInstanceAs (Decidable (elem ∈ s.slots))
  | .allocate _ | .warmup _ => isTrue trivial

/-- The largest number of objects that were ever in use. -/
def peak (s : PoolRun T) : Nat := s.usage.foldr max 0

/-- **What every call keeps.** -/
structure Tracks (capacity : Nat) (s : PoolRun T) : Prop where
  pool : s.pool.Inv s.slots
  capacity : s.pool.capacity = capacity
  objects : ∀ e ∈ s.live, s.pool.object? e.1 = some e.2
  highWater : s.pool.highWater = s.peak

variable {capacity blockSize : Nat} {s s' : PoolRun T} {pool : MemPool T} {n : Nat}

theorem peak_append {live : List (Nat × T)} :
    peak ⟨pool, live, s.usage ++ [n]⟩ = max s.peak n := by
  unfold peak
  rw [List.foldr_append]
  induction s.usage with
  | nil => exact max_comm n 0
  | cons m ms ih =>
    rw [List.foldr_cons, ih, List.foldr_cons, max_assoc]

theorem Tracks.start (capacity : Nat) : Tracks capacity (start capacity : PoolRun T) where
  pool := MemPool.init_inv capacity
  capacity := rfl
  objects _ he := absurd he List.not_mem_nil
  highWater := rfl

/-- The live objects are no more than were in use at the peak. -/
theorem Tracks.inUse_le (h : Tracks capacity s) : s.pool.inUse ≤ s.peak := by
  rw [h.pool.inUse, ← h.highWater]
  exact h.pool.length_le_nextUnused

theorem slots_filter (live : List (Nat × T)) (hnodup : (live.map Prod.fst).Nodup) (a : Nat) :
    (live.filter fun e => e.1 ≠ a).map Prod.fst = (live.map Prod.fst).erase a := by
  rw [hnodup.erase_eq_filter, List.filter_map]
  congr 1
  refine List.filter_congr fun e _ => ?_
  by_cases he : e.1 = a <;> simp [he]

/-- **Every call keeps what is tracked.** -/
theorem Tracks.step {call : PoolCall T} (h : Tracks capacity s) (hsize : 0 < blockSize)
    (hallowed : s.Allowed call) (hstep : s.step blockSize call = .ok s') :
    Tracks capacity s' := by
  cases call with
  | allocate value =>
    obtain ⟨⟨a, pool⟩, halloc, hs'⟩ := bind_ok hstep
    cases hs'
    obtain ⟨hfresh, hinv, hcapacity, hobjects⟩ := h.pool.of_allocate halloc
    have hslots : slots ⟨pool, s.live ++ [(a, value)], s.usage ++ [pool.inUse]⟩ =
        s.slots ++ [a] := List.map_append
    refine ⟨?_, hcapacity.trans h.capacity, fun e he => ?_, ?_⟩
    · rw [hslots]
      exact hinv
    · rw [hobjects]
      rcases List.mem_append.mp he with he | he
      · have hold : e.1 ∈ s.slots := List.mem_map_of_mem he
        rw [if_neg fun heq : e.1 = a => hfresh (heq ▸ hold)]
        exact h.objects e he
      · rw [List.mem_singleton.mp he, if_pos rfl]
    · have hinUse : pool.inUse = s.slots.length + 1 := by
        rw [hinv.inUse, List.length_append, List.length_singleton]
      rw [peak_append, ← h.highWater, hinUse]
      exact h.pool.nextUnused_allocate halloc
  | deallocate a =>
    cases hstep
    have hslots : slots ⟨s.pool.deallocate a, s.live.filter fun e => e.1 ≠ a,
        s.usage ++ [(s.pool.deallocate a).inUse]⟩ = s.slots.erase a :=
      slots_filter s.live h.pool.nodup a
    have hinv := h.pool.deallocate hallowed
    refine ⟨?_, h.capacity, fun e he => ?_, ?_⟩
    · rw [hslots]
      exact hinv
    · obtain ⟨he, hne⟩ := List.mem_filter.mp he
      rw [MemPool.object?_deallocate_of_ne (by simpa using hne)]
      exact h.objects e he
    · have hle : (s.pool.deallocate a).inUse ≤ s.peak := (Nat.sub_le _ _).trans h.inUse_le
      rw [peak_append, max_eq_left hle]
      exact h.highWater
  | warmup count =>
    cases hstep
    obtain ⟨hsame, -⟩ := s.pool.warmup_spec hsize count
    have hinUse : (s.pool.warmup blockSize count).inUse = s.pool.inUse := by rw [hsame]
    have hcursor : (s.pool.warmup blockSize count).highWater = s.pool.highWater := by
      rw [hsame]
      rfl
    refine ⟨h.pool.warmup hsize count, ?_, fun e he => ?_, ?_⟩
    · rw [hsame]
      exact h.capacity
    · have hlt := h.pool.lt_nextUnused (List.mem_map_of_mem he)
      rw [MemPool.object?_warmup hsize hlt]
      exact h.objects e he
    · rw [peak_append, hinUse, max_eq_left h.inUse_le, hcursor]
      exact h.highWater

/-! ## 3. What a pool promises -/

/-- **A pool hands out every slot at most once.** -/
structure HandsOutOnce (blockSize capacity : Nat) (s : PoolRun T) : Prop where
  /-- The live objects are in different slots below the cursor, and nothing has changed them. -/
  distinct : s.slots.Nodup
  below : ∀ a ∈ s.slots, a < s.pool.nextUnused
  objects : ∀ e ∈ s.live, s.pool.object? e.1 = some e.2
  /-- The free list ends, visits no slot twice, and has every other slot below the cursor. -/
  freeList : ∃ free, MemPool.FreeList s.pool.storage s.pool.freeHead free ∧ free.Nodup ∧
    ∀ a, a ∈ free ↔ a < s.pool.nextUnused ∧ a ∉ s.slots
  inUse : s.pool.inUse = s.live.length
  highWater : s.pool.highWater = s.peak
  sameCapacity : s.pool.capacity = capacity
  /-- The pool is exhausted exactly when every slot is in use. -/
  exhausted : ∀ value, s.pool.allocate value = .error (.assertion "Memory pool exhausted") ↔
    s.pool.inUse = capacity
  allocates : ∀ value, (∃ r, s.pool.allocate value = .ok r) ↔ s.pool.inUse ≠ capacity
  /-- `Warmup` writes to slots from the cursor on, and changes nothing else. -/
  warmup : ∀ count, (∀ offset ∈ s.pool.warmupOffsets blockSize count,
      s.pool.nextUnused ≤ offset / blockSize ∧ offset / blockSize < capacity) ∧
    s.pool.warmup blockSize count =
      { s.pool with storage := (s.pool.warmup blockSize count).storage } ∧
    ∀ a < s.pool.nextUnused, (s.pool.warmup blockSize count).storage a = s.pool.storage a

theorem Tracks.handsOutOnce (h : Tracks capacity s) (hsize : 0 < blockSize) :
    HandsOutOnce blockSize capacity s where
  distinct := h.pool.nodup
  below _ ha := h.pool.lt_nextUnused ha
  objects := h.objects
  freeList := by
    obtain ⟨free, hfree, hperm⟩ := h.pool.slots
    refine ⟨free, hfree, ?_, fun a => MemPool.mem_free_iff hperm⟩
    exact (List.nodup_append.mp (hperm.nodup_iff.mpr List.nodup_range)).2.1
  inUse := h.pool.inUse.trans (List.length_map _)
  highWater := h.highWater
  sameCapacity := h.capacity
  exhausted value := by
    rw [h.pool.inUse, ← h.capacity]
    constructor
    · intro hfull
      by_contra hne
      obtain ⟨r, hr⟩ := (h.pool.allocate_iff value).mpr hne
      rw [hfull] at hr
      cases hr
    · intro hfull
      exact h.pool.allocate_full hfull value
  allocates value := by
    rw [h.pool.inUse, ← h.capacity]
    exact h.pool.allocate_iff value
  warmup count := by
    rw [← h.capacity]
    exact ⟨fun _ ho => MemPool.slot_of_mem_warmupOffsets hsize ho, s.pool.warmup_spec hsize count⟩

/-- **In every state that calls can reach**, a pool of any capacity has handed out every slot at
most once, and its high-water mark is the largest number of objects that were ever in use.  A
caller has to return only what it holds (`Allowed`); `Warmup` may come at any time, and writes only
to slots that nobody has been handed yet. -/
theorem hands_out_once (hsize : 0 < blockSize) {calls : List (PoolCall T)}
    (hallowed : Run.EachStep (step blockSize) Allowed (start capacity) calls) :
    Run.Always (step blockSize) (HandsOutOnce blockSize capacity) (start capacity) calls := by
  have htracks : Run.Always (PoolRun.step blockSize) (Tracks capacity) (start capacity) calls :=
    hallowed.always (fun _ _ _ h hcall hstep => h.step hsize hcall hstep) (.start capacity)
  exact htracks.mono fun _ h => h.handsOutOnce hsize

/-- Slots returned in another order than they were handed out, and a warm-up in between. -/
def recycled : List (PoolCall Nat) :=
  [.allocate 10, .allocate 11, .allocate 12, .deallocate 0, .deallocate 2, .warmup 5, .allocate 13]

theorem hands_out_once_recycled : ∃ s, recycled.foldlM (step 8) (start 4) = .ok s ∧
    s.live = [(1, 11), (2, 13)] ∧ s.peak = 3 ∧ HandsOutOnce 8 4 s := by
  obtain ⟨s, hrun, hcheck⟩ : ∃ s, recycled.foldlM (step 8) (start 4) = .ok s ∧
      decide (s.live = [(1, 11), (2, 13)] ∧ s.peak = 3) = true :=
    exists_of_returns (by decide +kernel)
  obtain ⟨hlive, hpeak⟩ := of_decide_eq_true hcheck
  have hall : Run.Always (step 8) (HandsOutOnce 8 4) (start 4) recycled :=
    hands_out_once (by decide) (by decide +kernel)
  exact ⟨s, hrun, hlive, hpeak, hall.of_foldlM hrun⟩

end PoolRun

end YQuant
