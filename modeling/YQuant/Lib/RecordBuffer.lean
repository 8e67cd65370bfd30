/-
# A receive buffer of fixed-size records

Bytes are appended behind the valid ones, a loop over an offset takes the complete records, and what
is left of the last one is copied to the front.  The loop sees the records that `Codec.frames` cuts
from the valid bytes (`recordLoop_eq`), and the copy leaves `Codec.rest` of them
(`valid_moveFront`).  Whoever has handled the complete records after every read has decoded the
stream, however it was cut (`Framed`).

The memory behind the valid bytes holds what earlier reads have left there, and nothing depends on
it.  The copy to the front is the one place where the layout matters: source and destination lie in
one buffer, which `memmove` allows and `memcpy` does only if they do not overlap.  They do not when
at least as much was taken as is left, and less than a record is left (`next_lt`), so one complete
record is enough (`memcpy_rest`).

Appending is not checked here; that a read stays within the buffer is known to whoever sizes it.
-/
import Mathlib.Data.List.GetD
import YQuant.Lib.Codec

/-- A buffer as it lies in memory. -/
structure RecordBuffer where
  /-- All bytes of it, the stale ones included. -/
  bytes : Nat → UInt8
  /-- How many bytes at the front are valid. -/
  next : Nat

namespace RecordBuffer

variable {α σ ε : Type}

/-! ## 1. Operations -/

/-- The `n` bytes from offset `i` on. -/
def slice (b : RecordBuffer) (i n : Nat) : List UInt8 := (List.range n).map fun k => b.bytes (i + k)

def valid (b : RecordBuffer) : List UInt8 := b.slice 0 b.next

/-- A read puts its bytes behind the valid ones. -/
def append (b : RecordBuffer) (data : List UInt8) : RecordBuffer where
  bytes i :=
    if b.next ≤ i ∧ i < b.next + data.length then data.getD (i - b.next) 0 else b.bytes i
  next := b.next + data.length

/-- `memmove` copies as if through a second buffer. -/
def memmove (b : RecordBuffer) (dst src n : Nat) : RecordBuffer :=
  { b with bytes i := if dst ≤ i ∧ i < dst + n then b.bytes (src + (i - dst)) else b.bytes i }

/-- `memcpy` is defined on regions that do not overlap. -/
def memcpy (b : RecordBuffer) (dst src n : Nat) : Option RecordBuffer :=
  if dst + n ≤ src ∨ src + n ≤ dst then some (b.memmove dst src n) else none

/-- The loop over the records from offset `i` on, with the offset at which it stops.  A record has
at least one byte. -/
def recordLoop (b : RecordBuffer) (c : Codec α) (step : σ → α → Except ε σ) (i : Nat) (s : σ) :
    Except ε (σ × Nat) :=
  if _h : 0 < c.size ∧ i + c.size ≤ b.next then do
    let s ← step s (c.decode (b.slice i c.size))
    recordLoop b c step (i + c.size) s
  else .ok (s, i)
termination_by b.next - i

/-! ## 2. What they do to the valid bytes -/

section Bytes

variable {b : RecordBuffer} {i n : Nat}

@[simp] theorem length_slice : (b.slice i n).length = n := by
  rw [slice, List.length_map, List.length_range]

@[simp] theorem length_valid : b.valid.length = b.next := length_slice

theorem slice_add (k : Nat) : b.slice i (k + n) = b.slice i k ++ b.slice (i + k) n := by
  simp only [slice, List.range_add, List.map_append, List.map_map, Function.comp_def, Nat.add_assoc]

theorem valid_append (data : List UInt8) : (b.append data).valid = b.valid ++ data := by
  have hold : (b.append data).slice 0 b.next = b.valid :=
    List.map_congr_left fun k hk =>
      if_neg fun h => Nat.not_le.mpr (List.mem_range.mp hk) (Nat.zero_add k ▸ h.1)
  have hnew : (b.append data).slice (0 + b.next) data.length = data := by
    refine List.ext_getElem length_slice fun k hk hk' => ?_
    simp only [slice, append, List.getElem_map, List.getElem_range, Nat.zero_add]
    rw [if_pos ⟨Nat.le_add_right _ _, Nat.add_lt_add_left hk' _⟩, Nat.add_sub_cancel_left,
      List.getD_eq_getElem _ _ hk']
  rw [valid, append, slice_add]
  exact congr (congrArg _ hold) hnew

/-- The copy of what is left behind offset `i` to the front. -/
theorem valid_moveFront (hi : i ≤ b.next) :
    ({ b.memmove 0 i (b.next - i) with next := b.next - i } : RecordBuffer).valid =
      b.valid.drop i := by
  have hsplit : b.valid = b.slice 0 i ++ b.slice i (b.next - i) := by
    rw [valid, ← Nat.add_sub_cancel' hi, slice_add, Nat.zero_add, Nat.add_sub_cancel_left]
  rw [hsplit, List.drop_left' length_slice]
  refine List.map_congr_left fun k hk => ?_
  have hk := List.mem_range.mp hk
  rw [Nat.zero_add]
  exact if_pos ⟨Nat.zero_le k, (Nat.zero_add _).symm ▸ hk⟩

/-- **What is left of a buffer is shorter than what was taken from it**, so the two regions of the
copy do not overlap. -/
theorem memcpy_rest {size : Nat} (hsize : 0 < size) (hle : size ≤ b.next) :
    b.memcpy 0 (b.next / size * size) (b.next - b.next / size * size) =
      some (b.memmove 0 (b.next / size * size) (b.next - b.next / size * size)) := by
  refine if_pos (.inl ?_)
  have hleft : b.next - b.next / size * size < size := by
    rw [Nat.mul_comm, ← Nat.mod_eq_sub]
    exact Nat.mod_lt _ hsize
  have htaken : size ≤ b.next / size * size := Nat.le_mul_of_pos_left _ (Nat.div_pos hle hsize)
  omega

/-- The copy leaves what is left of the last record. -/
theorem valid_rest (c : Codec α) :
    ({ b.memmove 0 (b.next / c.size * c.size) (b.next - b.next / c.size * c.size) with
      next := b.next - b.next / c.size * c.size } : RecordBuffer).valid = c.rest b.valid := by
  rw [valid_moveFront (Nat.div_mul_le_self _ _), Codec.rest, length_valid]

end Bytes

/-! ## 3. The loop -/

/-- **The loop** handles the complete records and stops behind the last of them. -/
theorem recordLoop_eq {b : RecordBuffer} {c : Codec α} (hsize : 0 < c.size)
    (step : σ → α → Except ε σ) (i : Nat) (s : σ) :
    b.recordLoop c step i s = ((c.frames (b.slice i (b.next - i))).foldlM step s >>= fun s' =>
      .ok (s', i + (b.next - i) / c.size * c.size)) := by
  fun_induction recordLoop b c step i s with
  | case1 i s h ih =>
    obtain ⟨n, hn⟩ : ∃ n, b.next - i = c.size + n := ⟨b.next - i - c.size, by omega⟩
    have hrest : b.next - (i + c.size) = n := by omega
    have hslice : b.slice i (b.next - i) = b.slice i c.size ++ b.slice (i + c.size) n := by
      rw [hn, slice_add]
    have hframes : c.frames (b.slice i (b.next - i)) =
        c.decode (b.slice i c.size) :: c.frames (b.slice (i + c.size) n) := by
      rw [(Codec.frames_of_le hsize (by rw [length_slice]; omega)).1, hslice,
        List.take_left' length_slice, List.drop_left' length_slice]
    have hstop : i + (b.next - i) / c.size * c.size = i + c.size + n / c.size * c.size := by
      rw [hn, Nat.add_div_left _ hsize, Nat.succ_mul]
      omega
    rw [hframes, hstop, List.foldlM_cons]
    cases step s (c.decode (b.slice i c.size)) with
    | error e => rfl
    | ok s' => exact (ih s').trans (by rw [hrest]; rfl)
  | case2 i s h =>
    have hshort : b.next - i < c.size := by omega
    rw [(Codec.frames_of_lt (length_slice.trans_lt hshort)).1, Nat.div_eq_of_lt hshort,
      Nat.zero_mul]
    rfl

/-! ## 4. The stream -/

/-- What a receiver has to know about a stream of which it has `decoded` the records. -/
structure Framed (c : Codec α) (stream : List UInt8) (decoded : List α) (b : RecordBuffer) :
    Prop where
  decoded_eq : decoded = c.frames stream
  valid_eq : b.valid = c.rest stream

namespace Framed

variable {c : Codec α} {stream : List UInt8} {decoded : List α} {b b' : RecordBuffer}

theorem init (hsize : 0 < c.size) (bytes : Nat → UInt8) : Framed c [] [] ⟨bytes, 0⟩ := by
  obtain ⟨hframes, hrest⟩ := Codec.frames_of_lt (c := c)
    (show ([] : List UInt8).length < c.size from hsize)
  exact ⟨hframes.symm, hrest.symm⟩

/-- Less than a record is left. -/
theorem next_lt (hsize : 0 < c.size) (h : Framed c stream decoded b) : b.next < c.size := by
  rw [← length_valid, h.valid_eq]
  exact Codec.length_rest_lt hsize

/-- **A read** whose complete records are handled. -/
theorem receive (hsize : 0 < c.size) (h : Framed c stream decoded b) (data : List UInt8)
    (hvalid : b'.valid = c.rest (b.valid ++ data)) :
    Framed c (stream ++ data) (decoded ++ c.frames (b.valid ++ data)) b' := by
  obtain ⟨hframes, hrest⟩ := Codec.frames_append hsize stream data
  refine ⟨?_, ?_⟩
  · rw [h.decoded_eq, h.valid_eq, hframes]
  · rw [hvalid, h.valid_eq, hrest]

end Framed

end RecordBuffer
