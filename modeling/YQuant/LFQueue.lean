/-
# The lock-free queue

`common/ringBuffer.h`: a ring of a power of two slots between one producer and one consumer.  Each
side owns one index, publishes it by a store, and keeps a private copy of the other side's index
that it reloads only when the copy says full or empty.

A thread inside an operation is described by where it stands and what it has loaded; one step is
one load, one store or one access to a slot, and the steps of the producer, of the consumer and of
any number of threads inside `size()` interleave in any order.  The indices are 64-bit words that
wrap.  `History` records what a run has published, read and released; no step looks at it.

Loading an index and comparing it is one step, because nothing that another thread does can come in
between; loading an index of the other side is a step of its own, and what was loaded may be old by
the time it is used.  The slow path of either side is one such reload.  A store is a step of its
own as well, so a value is in its slot before anybody can know of it.

Nothing here keeps a slot from being written while it is read, or read before it is written; that
neither happens is shown in `BoundedFifo.lean`, from how far apart the indices are.  A run may be
of any length, and the words wrap in it.
-/
import YQuant.Types

namespace YQuant

/-! ## 1. The queue -/

/-- `RoundUpToPowerOf2`, on 64-bit words. -/
def roundUpToPowerOf2 (num : Nat) : Nat :=
  if num = 0 then 1
  else
    let num := num - 1
    let num := num ||| num >>> 1
    let num := num ||| num >>> 2
    let num := num ||| num >>> 4
    let num := num ||| num >>> 8
    let num := num ||| num >>> 16
    let num := num ||| num >>> 32
    add64 num 1

structure LFQueue (T : Type) where
  store : Nat → T
  mask : Nat
  capacity : Nat
  nextWriteIndex : Nat
  cachedReadIndex : Nat
  nextReadIndex : Nat
  cachedWriteIndex : Nat

namespace LFQueue

variable {T : Type}

def init [Inhabited T] (numElems : Nat) : LFQueue T where
  store := fun _ => default
  mask := sub64 (roundUpToPowerOf2 numElems) 1
  capacity := roundUpToPowerOf2 numElems
  nextWriteIndex := 0
  cachedReadIndex := 0
  nextReadIndex := 0
  cachedWriteIndex := 0

/-- `TryGetNextToWriteTo` compares the slot after `currentWrite` with the slot of a read index. -/
def looksFull (q : LFQueue T) (currentWrite readIndex : Nat) : Prop :=
  add64 currentWrite 1 &&& q.mask = readIndex &&& q.mask

instance (q : LFQueue T) (currentWrite readIndex : Nat) :
    Decidable (q.looksFull currentWrite readIndex) := inferInstanceAs (Decidable (_ = _))

end LFQueue

/-! ## 2. The threads -/

/-- Where the producer stands: in `TryGetNextToWriteTo`, with a slot, or in `UpdateWriteIndex`.
The value is the one it puts into the slot. -/
inductive ProducerAt (T : Type) where
  | idle
  | reload (currentWrite : Nat)
  | slot (index : Nat)
  | written (value : T)
  | storing (value : T) (currentWriteIndex : Nat)
deriving DecidableEq, Repr

/-- Where the consumer stands: in `GetNextToRead`, with a slot, or in `UpdateReadIndex`. -/
inductive ConsumerAt where
  | idle
  | reload (currentRead : Nat)
  | slot (index : Nat)
  | taken
  | storing (currentReadIndex : Nat)
deriving DecidableEq, Repr

/-- A queue and the threads that use it.  A thread inside `size()` has loaded the read index. -/
structure SpscState (T : Type) where
  queue : LFQueue T
  producer : ProducerAt T
  consumer : ConsumerAt
  observers : Nat → Option Nat

/-- Whose step is next.  `value` is what the producer would write; `giveUp` is a consumer that drops
the slot it was given and will ask again. -/
inductive SpscAction (T : Type) where
  | producer (value : T)
  | consumer
  | giveUp
  | observer (thread : Nat)

/-- What a step amounts to for the users of the queue. -/
inductive SpscEvent (T : Type) where
  | quiet
  | published (value : T)
  | read (value : T)
  | released
  /-- `TryGetNextToWriteTo` returned null. -/
  | full
  /-- `GetNextToRead` returned null. -/
  | empty
  | sizing (thread : Nat)
  | sized (thread size : Nat)

namespace SpscState

variable {T : Type}

def init [Inhabited T] (numElems : Nat) : SpscState T where
  queue := .init numElems
  producer := .idle
  consumer := .idle
  observers := fun _ => none

/-- One step of the producer. -/
def produce (s : SpscState T) (value : T) : SpscState T × SpscEvent T :=
  let q := s.queue
  match s.producer with
  | .idle =>
    let currentWrite := q.nextWriteIndex
    if q.looksFull currentWrite q.cachedReadIndex then
      ({ s with producer := .reload currentWrite }, .quiet)
    else ({ s with producer := .slot (currentWrite &&& q.mask) }, .quiet)
  | .reload currentWrite =>
    let s := { s with queue := { q with cachedReadIndex := q.nextReadIndex } }
    if q.looksFull currentWrite q.nextReadIndex then ({ s with producer := .idle }, .full)
    else ({ s with producer := .slot (currentWrite &&& q.mask) }, .quiet)
  | .slot index =>
    ({ s with
      queue := { q with store := Function.update q.store index value }
      producer := .written value }, .quiet)
  | .written value => ({ s with producer := .storing value q.nextWriteIndex }, .quiet)
  | .storing value currentWriteIndex =>
    ({ s with
      queue := { q with nextWriteIndex := add64 currentWriteIndex 1 }
      producer := .idle }, .published value)

/-- One step of the consumer. -/
def consume (s : SpscState T) : SpscState T × SpscEvent T :=
  let q := s.queue
  match s.consumer with
  | .idle =>
    let currentRead := q.nextReadIndex
    if currentRead = q.cachedWriteIndex then
      ({ s with consumer := .reload currentRead }, .quiet)
    else ({ s with consumer := .slot (currentRead &&& q.mask) }, .quiet)
  | .reload currentRead =>
    let s := { s with queue := { q with cachedWriteIndex := q.nextWriteIndex } }
    if currentRead = q.nextWriteIndex then ({ s with consumer := .idle }, .empty)
    else ({ s with consumer := .slot (currentRead &&& q.mask) }, .quiet)
  | .slot index => ({ s with consumer := .taken }, .read (q.store index))
  | .taken => ({ s with consumer := .storing q.nextReadIndex }, .quiet)
  | .storing currentReadIndex =>
    ({ s with
      queue := { q with nextReadIndex := add64 currentReadIndex 1 }
      consumer := .idle }, .released)

/-- One step of a thread inside `size()`: the read index first, then the write index. -/
def observe (s : SpscState T) (thread : Nat) : SpscState T × SpscEvent T :=
  match s.observers thread with
  | none =>
    ({ s with observers := Function.update s.observers thread (some s.queue.nextReadIndex) },
      .sizing thread)
  | some currentReadIndex =>
    ({ s with observers := Function.update s.observers thread none },
      .sized thread (sub64 s.queue.nextWriteIndex currentReadIndex))

/-- One step. -/
def step (s : SpscState T) : SpscAction T → Option (SpscState T × SpscEvent T)
  | .producer value => some (s.produce value)
  | .consumer => some s.consume
  | .giveUp =>
    match s.consumer with
    | .slot _ => some ({ s with consumer := .idle }, .quiet)
    | _ => none
  | .observer thread => some (s.observe thread)

end SpscState

/-! ## 3. Histories -/

/-- What has happened on a queue: the values published, the values read, the number of slots
released, and for each thread inside `size()` how many were released when it loaded the read
index. -/
structure History (T : Type) where
  published : List T
  taken : List T
  released : Nat
  observed : Nat → Nat

namespace History

variable {T : Type}

def empty : History T := ⟨[], [], 0, fun _ => 0⟩

def record (h : History T) : SpscEvent T → History T
  | .published value => { h with published := h.published ++ [value] }
  | .read value => { h with taken := h.taken ++ [value] }
  | .released => { h with released := h.released + 1 }
  | .sizing thread => { h with observed := Function.update h.observed thread h.released }
  | .quiet | .full | .empty | .sized .. => h

end History

/-- The states that a queue of the given size and its threads can reach. -/
inductive SpscState.Reachable {T : Type} [Inhabited T] (numElems : Nat) :
    SpscState T → History T → Prop
  | init : Reachable numElems (.init numElems) .empty
  | step {s s' : SpscState T} {h : History T} {action : SpscAction T} {event : SpscEvent T}
      (hreach : Reachable numElems s h) (hstep : s.step action = some (s', event)) :
      Reachable numElems s' (h.record event)

end YQuant
