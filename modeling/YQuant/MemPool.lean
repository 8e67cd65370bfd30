/-
# The object pool

`common/mem_pool.h`: a fixed block of slots, handed out from an intrusive free list first and
from a bump cursor only when that list is empty.  The free-list links live in the freed slots
themselves (`union ObjectBlock`), so a slot is modelled by what its bytes currently are:
untouched, an object, or a link.  A pointer into the pool is the index of its slot.

`MarkSlot` and its flag table exist in debug builds only and are left out.  `Warmup` writes single
bytes; `blockSize` is the size of a slot, and a slot that such a byte falls into is untouched after
it, whatever it held before.

`MemPool.Inv p live` is the representation invariant: `live` lists the slots that hold objects,
the free list holds the other slots below the cursor, and each slot is in exactly one of the
two.  `Inv.allocate_spec` and `Inv.deallocate` say what the two operations do to `live`.

Exhaustion is not an error that a caller could handle: `allocate` ends the process
(`allocate_full`), and it does so exactly when all slots are live.  Results that a run goes through
therefore come with a bound on what is live at the same time.

`deref`, `modify` and `release` are what the program does with a pointer it has read from memory.
They fail on a slot that holds no object, where the source would read a link as an object or put a
slot on the free list twice; that they do not fail is shown by the owners of the pointers.
-/
import Mathlib.Data.List.Perm.Basic
import Mathlib.Data.List.Range
import Mathlib.Logic.Function.Basic
import YQuant.Types

namespace YQuant

/-- What the storage of one slot holds. -/
inductive ObjectBlock (T : Type) where
  | raw
  | object (value : T)
  | nextFree (next : Option Nat)

/-- `MemPool<T>`. -/
structure MemPool (T : Type) where
  capacity : Nat
  nextUnused : Nat
  freeHead : Option Nat
  inUse : Nat
  storage : Nat → ObjectBlock T

namespace MemPool

variable {T : Type}

/-! ## 1. The operations -/

/-- A pool that has handed out nothing. -/
def init (capacity : Nat) : MemPool T where
  capacity := capacity
  nextUnused := 0
  freeHead := none
  inUse := 0
  storage := fun _ => .raw

/-- The object in a slot, if the slot holds one. -/
def object? (p : MemPool T) (a : Nat) : Option T :=
  match p.storage a with
  | .object value => some value
  | _ => none

/-- Place an object into a slot. -/
def put (p : MemPool T) (a : Nat) (value : T) : MemPool T :=
  { p with storage := Function.update p.storage a (.object value) }

/-- `allocate`: a recycled slot first, the next untouched one otherwise. -/
def allocate (p : MemPool T) (value : T) : Except Fault (Nat × MemPool T) :=
  match p.freeHead with
  | some block =>
    match p.storage block with
    | .nextFree next =>
      .ok (block, { p with freeHead := next, inUse := p.inUse + 1 }.put block value)
    | _ => .error .danglingPointer
  | none => do
    assertThat (decide (p.nextUnused < p.capacity)) "Memory pool exhausted"
    .ok (p.nextUnused,
      { p with nextUnused := p.nextUnused + 1, inUse := p.inUse + 1 }.put p.nextUnused value)

/-- `deallocate`: the slot becomes the head of the free list. -/
def deallocate (p : MemPool T) (elem : Nat) : MemPool T :=
  { p with
    storage := Function.update p.storage elem (.nextFree p.freeHead)
    freeHead := some elem
    inUse := p.inUse - 1 }

/-- `high_water()`. -/
def highWater (p : MemPool T) : Nat := p.nextUnused

/-- The step of `Warmup`. -/
def kPageStride : Nat := 4096

/-- The bytes that `Warmup` writes: one of every page, and the last one.  Without storage the
capacity is zero. -/
def warmupOffsets (p : MemPool T) (blockSize count : Nat) : List Nat :=
  let limit := min count p.capacity
  if limit ≤ p.nextUnused then []
  else
    let first := p.nextUnused * blockSize
    let last := limit * blockSize
    List.range' first ((last - first + kPageStride - 1) / kPageStride) kPageStride ++ [last - 1]

/-- A byte of a slot is written. -/
def touch (p : MemPool T) (a : Nat) : MemPool T :=
  { p with storage := Function.update p.storage a .raw }

/-- `Warmup`. -/
def warmup (p : MemPool T) (blockSize count : Nat) : MemPool T :=
  (p.warmupOffsets blockSize count).foldl (fun p offset => p.touch (offset / blockSize)) p

/-- `*ptr`. -/
def deref (p : MemPool T) (ptr : Option Nat) : Except Fault T :=
  match ptr with
  | none => .error .nullPointer
  | some a =>
    match p.object? a with
    | some value => .ok value
    | none => .error .danglingPointer

/-- `*ptr` assigned through: `f` is what happens to the fields of the object. -/
def modify (p : MemPool T) (ptr : Option Nat) (f : T → T) : Except Fault (MemPool T) :=
  match ptr with
  | none => .error .nullPointer
  | some a =>
    match p.object? a with
    | some value => .ok (p.put a (f value))
    | none => .error .danglingPointer

/-- `deallocate(ptr)` for a pointer read from memory: releasing a slot that holds no object would
corrupt the free list. -/
def release (p : MemPool T) (ptr : Option Nat) : Except Fault (MemPool T) :=
  match ptr with
  | none => .error .nullPointer
  | some a =>
    match p.object? a with
    | some _ => .ok (p.deallocate a)
    | none => .error .danglingPointer

/-- `if (ptr != nullptr) *ptr = ...`. -/
def modifyNonNull (p : MemPool T) (ptr : Option Nat) (f : T → T) : Except Fault (MemPool T) :=
  if ptr.isSome then p.modify ptr f else .ok p

/-! ## 2. What the operations leave in the slots -/

section Slots

variable {p : MemPool T} {a b : Nat} {value : T}

theorem object?_put : (p.put a value).object? b = if b = a then some value else p.object? b := by
  unfold object? put
  by_cases h : b = a
  · subst h; simp
  · simp [h]

@[simp] theorem object?_put_self : (p.put a value).object? a = some value := by
  simp [object?_put]

theorem object?_put_of_ne (h : b ≠ a) : (p.put a value).object? b = p.object? b := by
  simp [object?_put, h]

theorem object?_deallocate_of_ne (h : b ≠ a) :
    (p.deallocate a).object? b = p.object? b := by
  unfold object? deallocate
  simp [h]

@[simp] theorem capacity_put : (p.put a value).capacity = p.capacity := rfl
@[simp] theorem capacity_deallocate : (p.deallocate a).capacity = p.capacity := rfl

theorem deref_some (h : p.object? a = some value) : p.deref (some a) = .ok value := by
  simp [deref, h]

theorem modify_some {f : T → T} (h : p.object? a = some value) :
    p.modify (some a) f = .ok (p.put a (f value)) := by
  simp [modify, h]

theorem release_some (h : p.object? a = some value) :
    p.release (some a) = .ok (p.deallocate a) := by
  simp [release, h]

theorem object?_of_allocate {p' : MemPool T} (h : p.allocate value = .ok (a, p')) :
    p'.object? a = some value := by
  unfold allocate at h
  split at h
  · split at h
    · cases h
      exact object?_put_self
    · cases h
  · obtain ⟨-, -, h⟩ := bind_ok h
    cases h
    exact object?_put_self

/-- Every object of the pool. -/
def All (p : MemPool T) (P : T → Prop) : Prop := ∀ a value, p.object? a = some value → P value

namespace All

variable {p p' : MemPool T} {P : T → Prop} {ptr : Option Nat} {a : Nat} {value : T}

theorem init (capacity : Nat) : (init capacity : MemPool T).All P := fun _ _ h => by cases h

theorem put (h : p.All P) (hvalue : P value) : (p.put a value).All P := by
  intro b w hw
  rw [object?_put] at hw
  split at hw
  · rwa [← Option.some.inj hw]
  · exact h b w hw

theorem allocate (h : p.All P) (hvalue : P value) (halloc : p.allocate value = .ok (a, p')) :
    p'.All P := by
  unfold MemPool.allocate at halloc
  split at halloc
  · split at halloc
    · cases halloc
      exact put (p := { p with freeHead := _, inUse := _ }) h hvalue
    · cases halloc
  · obtain ⟨-, -, halloc⟩ := bind_ok halloc
    cases halloc
    exact put (p := { p with nextUnused := _, inUse := _ }) h hvalue

theorem deref (h : p.All P) (hderef : p.deref ptr = .ok value) : P value := by
  unfold MemPool.deref at hderef
  split at hderef
  · cases hderef
  · split at hderef
    · next hobj =>
      cases hderef
      exact h _ _ hobj
    · cases hderef

theorem modify (h : p.All P) {f : T → T} (hf : ∀ v, P v → P (f v))
    (hmodify : p.modify ptr f = .ok p') : p'.All P := by
  unfold MemPool.modify at hmodify
  split at hmodify
  · cases hmodify
  · split at hmodify
    · next hobj =>
      cases hmodify
      exact h.put (hf _ (h _ _ hobj))
    · cases hmodify

theorem release (h : p.All P) (hrelease : p.release ptr = .ok p') : p'.All P := by
  unfold MemPool.release at hrelease
  split at hrelease
  · cases hrelease
  · next b =>
    split at hrelease
    · cases hrelease
      intro c w hw
      by_cases hcb : c = b
      · subst hcb
        simp [object?, deallocate] at hw
      · rw [object?_deallocate_of_ne hcb] at hw
        exact h c w hw
    · cases hrelease

end All

end Slots

/-! ## 3. The representation invariant -/

/-- `free` are the slots on the free list that starts at `head`. -/
def FreeList (storage : Nat → ObjectBlock T) : Option Nat → List Nat → Prop
  | head, [] => head = none
  | head, a :: free => head = some a ∧ ∃ next, storage a = .nextFree next ∧
      FreeList storage next free

/-- The free list only reads its own slots. -/
theorem FreeList.congr {storage storage' : Nat → ObjectBlock T} :
    ∀ {free : List Nat} {head : Option Nat}, FreeList storage head free →
      (∀ a ∈ free, storage' a = storage a) → FreeList storage' head free
  | [], _, h, _ => h
  | a :: free, _, ⟨h1, next, h2, h3⟩, hag =>
    ⟨h1, next, (hag a (by simp)).trans h2, h3.congr fun b hb => hag b (by simp [hb])⟩

/-- **The pool invariant.**  `live` are the slots that hold objects. -/
structure Inv (p : MemPool T) (live : List Nat) : Prop where
  /-- Every slot below the cursor is live or on the free list, and in only one place. -/
  slots : ∃ free, FreeList p.storage p.freeHead free ∧
    (live ++ free).Perm (List.range p.nextUnused)
  objects : ∀ a ∈ live, ∃ value, p.object? a = some value
  inUse : p.inUse = live.length
  bounded : p.nextUnused ≤ p.capacity

theorem init_inv (capacity : Nat) : (init capacity : MemPool T).Inv [] where
  slots := ⟨[], rfl, by simp [init]⟩
  objects := by simp
  inUse := rfl
  bounded := Nat.zero_le _

namespace Inv

variable {p : MemPool T} {live live' : List Nat} {a : Nat} {value : T}

theorem perm (h : p.Inv live) (hp : live.Perm live') : p.Inv live' where
  slots := by
    obtain ⟨free, hf, hperm⟩ := h.slots
    exact ⟨free, hf, (hp.symm.append_right free).trans hperm⟩
  objects := fun a ha => h.objects a (hp.mem_iff.mpr ha)
  inUse := h.inUse.trans hp.length_eq
  bounded := h.bounded

/-- No slot is live twice. -/
theorem nodup (h : p.Inv live) : live.Nodup := by
  obtain ⟨free, -, hperm⟩ := h.slots
  exact (List.nodup_append.mp (hperm.nodup_iff.mpr List.nodup_range)).1

theorem lt_nextUnused (h : p.Inv live) (ha : a ∈ live) : a < p.nextUnused := by
  obtain ⟨free, -, hperm⟩ := h.slots
  exact List.mem_range.mp (hperm.mem_iff.mp (List.mem_append_left _ ha))

theorem length_le (h : p.Inv live) : live.length ≤ p.capacity := by
  obtain ⟨free, -, hperm⟩ := h.slots
  have := hperm.length_eq
  have := h.bounded
  simp only [List.length_append, List.length_range] at *
  omega

/-- Writing to a live object moves no slot. -/
theorem put (h : p.Inv live) (ha : a ∈ live) : (p.put a value).Inv live where
  slots := by
    obtain ⟨free, hf, hperm⟩ := h.slots
    have hnd := hperm.nodup_iff.mpr List.nodup_range
    have hnot : a ∉ free := fun hfree => (List.nodup_append.mp hnd).2.2 a ha a hfree rfl
    refine ⟨free, hf.congr fun b hb => ?_, hperm⟩
    exact Function.update_of_ne (fun e : b = a => hnot (e ▸ hb)) _ _
  objects := fun b hb => by
    by_cases hba : b = a
    · exact ⟨value, by rw [hba]; exact object?_put_self⟩
    · rw [object?_put_of_ne hba]; exact h.objects b hb
  inUse := h.inUse
  bounded := h.bounded

/-- **Allocation succeeds exactly below the capacity**, and returns a slot that was not live. -/
theorem allocate_spec (h : p.Inv live) (hlt : live.length < p.capacity) (value : T) :
    ∃ a p', p.allocate value = .ok (a, p') ∧ a ∉ live ∧ p'.Inv (live ++ [a]) ∧
      p'.capacity = p.capacity ∧
      ∀ b, p'.object? b = if b = a then some value else p.object? b := by
  obtain ⟨free, hf, hperm⟩ := h.slots
  have hnd := hperm.nodup_iff.mpr List.nodup_range
  cases free with
  | cons a free =>
    obtain ⟨hhead, next, hnext, hrest⟩ := hf
    have halive : a ∉ live := fun ha =>
      (List.nodup_append.mp hnd).2.2 a ha a (by simp) rfl
    have hafree : a ∉ free := (List.nodup_cons.mp (List.nodup_append.mp hnd).2.1).1
    refine ⟨a, { p with freeHead := next, inUse := p.inUse + 1 }.put a value, ?_, halive, ?_,
      rfl, fun b => object?_put⟩
    · simp [allocate, hhead, hnext]
    · refine ⟨⟨free, hrest.congr fun b hb => ?_, ?_⟩, ?_, ?_, h.bounded⟩
      · exact Function.update_of_ne (fun e : b = a => hafree (e ▸ hb)) _ _
      · change (live ++ [a] ++ free).Perm (List.range p.nextUnused)
        simpa using hperm
      · intro b hb
        by_cases hba : b = a
        · exact ⟨value, by rw [hba]; exact object?_put_self⟩
        · rw [object?_put_of_ne hba]
          exact h.objects b ((List.mem_append.mp hb).resolve_right (by simpa using hba))
      · simp [MemPool.put, h.inUse]
  | nil =>
    have hhead : p.freeHead = none := hf
    have hlen : p.nextUnused = live.length := by simpa using hperm.length_eq.symm
    have halive : p.nextUnused ∉ live := fun ha => Nat.lt_irrefl _ (h.lt_nextUnused ha)
    refine ⟨p.nextUnused,
      { p with nextUnused := p.nextUnused + 1, inUse := p.inUse + 1 }.put p.nextUnused value,
      ?_, halive, ?_, rfl, fun b => object?_put⟩
    · have : decide (p.nextUnused < p.capacity) = true := by
        simp only [decide_eq_true_eq]; omega
      simp [allocate, hhead, this]
    · refine ⟨⟨[], hf, ?_⟩, ?_, ?_, ?_⟩
      · simp only [MemPool.put, List.append_nil, List.range_succ] at hperm ⊢
        exact hperm.append_right _
      · intro b hb
        by_cases hba : b = p.nextUnused
        · exact ⟨value, by rw [hba]; exact object?_put_self⟩
        · rw [object?_put_of_ne hba]
          exact h.objects b ((List.mem_append.mp hb).resolve_right (by simpa using hba))
      · simp [MemPool.put, h.inUse]
      · simp only [MemPool.put]; omega

/-- **At capacity the pool stops the process.** -/
theorem allocate_full (h : p.Inv live) (hfull : live.length = p.capacity) (value : T) :
    p.allocate value = .error (.assertion "Memory pool exhausted") := by
  obtain ⟨free, hf, hperm⟩ := h.slots
  have hlen := hperm.length_eq
  have hb := h.bounded
  simp only [List.length_append, List.length_range] at hlen
  have hfree : free = [] := List.length_eq_zero_iff.mp (by omega)
  subst hfree
  have hhead : p.freeHead = none := hf
  have hnot : decide (p.nextUnused < p.capacity) = false := by
    simp only [List.length_nil, Nat.add_zero] at hlen
    simp only [decide_eq_false_iff_not]; omega
  simp [allocate, hhead, hnot]

/-- A guarded write rewrites at most the object it points to. -/
theorem modifyNonNull_spec (h : p.Inv live) (ptr : Option Nat)
    (hptr : ∀ a, ptr = some a → a ∈ live) (f : T → T) :
    ∃ p', p.modifyNonNull ptr f = .ok p' ∧ p'.Inv live ∧ p'.capacity = p.capacity ∧
      ∀ b, p'.object? b = (p.object? b).map fun v => if ptr = some b then f v else v := by
  cases ptr with
  | none => exact ⟨p, rfl, h, rfl, fun b => by simp⟩
  | some a =>
    obtain ⟨v, hv⟩ := h.objects a (hptr a rfl)
    refine ⟨p.put a (f v), by simp [modifyNonNull, modify_some hv], h.put (hptr a rfl), rfl,
      fun b => ?_⟩
    rw [object?_put]
    by_cases hb : b = a
    · subst hb; simp [hv]
    · have hab : ¬ a = b := fun e => hb e.symm
      cases p.object? b <;> simp [hb, hab]

/-- **Releasing a live slot** puts it at the head of the free list. -/
theorem deallocate (h : p.Inv live) (ha : a ∈ live) : (p.deallocate a).Inv (live.erase a) where
  slots := by
    obtain ⟨free, hf, hperm⟩ := h.slots
    have hnd := hperm.nodup_iff.mpr List.nodup_range
    have hnot : a ∉ free := fun hfree => (List.nodup_append.mp hnd).2.2 a ha a hfree rfl
    refine ⟨a :: free, ⟨rfl, p.freeHead, Function.update_self _ _ _, ?_⟩, ?_⟩
    · exact hf.congr fun b hb => Function.update_of_ne (fun e : b = a => hnot (e ▸ hb)) _ _
    · have h1 : (live.erase a ++ a :: free).Perm (a :: live.erase a ++ free) :=
        List.perm_middle
      have h2 : (a :: live.erase a ++ free).Perm (live ++ free) :=
        (List.perm_cons_erase ha).symm.append_right free
      exact (h1.trans h2).trans hperm
  objects := fun b hb => by
    have hba : b ≠ a := fun e => h.nodup.not_mem_erase (e ▸ hb)
    rw [object?_deallocate_of_ne hba]
    exact h.objects b (List.mem_of_mem_erase hb)
  inUse := by
    change p.inUse - 1 = _
    rw [List.length_erase_of_mem ha, h.inUse]
  bounded := h.bounded

end Inv

end MemPool

end YQuant
