/-
# Records of fixed size in a byte stream

A `Codec` writes a value as a fixed number of bytes and reads it back from them.  Numbers are
little-endian (`unsigned`, `signed`), an enumeration is one byte (`enum`), and a packed structure is
the sequence of its fields (`pair`) under its constructor (`iso`).

`frames` are the complete records of a buffer and `rest` is what remains of it.  A stream that
arrives in chunks yields the same records however it is cut (`frames_append`), and the records that
were written (`frames_encodeAll`).

Not every value can be written: `Representable` says that one survives the way through its bytes.
It is a property of the value and not of the codec, since a number that is too large for its field
is cut off and read back as another one.  In the other direction every sequence of bytes of the
right length is read as some value; what a reader makes of bytes that nobody wrote is a matter of
the codec, and nothing here forbids it.

A buffer is never parsed from the middle: `frames` cuts from its first byte on, so one byte too
many or too few shifts every record behind it.  `frames_split` is what a receiver needs that stops
in between: after part of the records it has what remains of the buffer, and the rest of the
stream.
-/
import Mathlib.Data.Nat.Digits.Defs
import Mathlib.Tactic.Common

/-! ## 1. Little-endian numbers -/

namespace LittleEndian

/-- The `w` lowest bytes of a number, the lowest first. -/
def toBytes : Nat → Nat → List UInt8
  | 0, _ => []
  | w + 1, n => UInt8.ofNat n :: toBytes w (n / 256)

def ofBytes (bs : List UInt8) : Nat := Nat.ofDigits 256 (bs.map UInt8.toNat)

@[simp] theorem length_toBytes (w n : Nat) : (toBytes w n).length = w := by
  induction w generalizing n with
  | zero => rfl
  | succ w ih => rw [toBytes, List.length_cons, ih]

theorem ofBytes_toBytes (w n : Nat) : ofBytes (toBytes w n) = n % 256 ^ w := by
  induction w generalizing n with
  | zero => rw [pow_zero, Nat.mod_one]; rfl
  | succ w ih =>
    have hhead : (UInt8.ofNat n).toNat = n % 256 := UInt8.toNat_ofNat'
    have htail : Nat.ofDigits 256 ((toBytes w (n / 256)).map UInt8.toNat) = n / 256 % 256 ^ w :=
      ih (n / 256)
    rw [toBytes, ofBytes, List.map_cons, Nat.ofDigits_cons, htail, hhead, pow_succ', Nat.mod_mul]

/-- Only the lowest bytes count. -/
theorem toBytes_mod (w n : Nat) : toBytes w (n % 256 ^ w) = toBytes w n := by
  induction w generalizing n with
  | zero => rfl
  | succ w ih =>
    have hhead : UInt8.ofNat (n % 256 ^ (w + 1)) = UInt8.ofNat n := by
      rw [UInt8.ofNat_eq_iff_mod_eq_toNat, UInt8.toNat_ofNat', pow_succ', Nat.mod_mul_right_mod]
    have htail : n % 256 ^ (w + 1) / 256 = n / 256 % 256 ^ w := by
      rw [pow_succ', Nat.mod_mul_right_div_self]
    rw [toBytes, toBytes, hhead, htail, ih]

end LittleEndian

/-! ## 2. Codecs -/

structure Codec (α : Type) where
  size : Nat
  encode : α → List UInt8
  decode : List UInt8 → α
  length_encode : ∀ a, (encode a).length = size

namespace Codec

variable {α β : Type}

/-- The value survives the way through its bytes. -/
def Representable (c : Codec α) (a : α) : Prop := c.decode (c.encode a) = a

/-- An unsigned number of `w` bytes. -/
def unsigned (w : Nat) : Codec Nat := ⟨w, LittleEndian.toBytes w, LittleEndian.ofBytes, by simp⟩

/-- A number of `w` bytes in two's complement. -/
def signed (w : Nat) : Codec Int where
  size := w
  encode x := LittleEndian.toBytes w (x % (256 ^ w : Nat)).toNat
  decode bs := Int.bmod (LittleEndian.ofBytes bs) (256 ^ w)
  length_encode := by simp

/-- An enumeration over a byte. -/
def enum (toByte : α → UInt8) (ofByte : UInt8 → α) : Codec α :=
  ⟨1, fun a => [toByte a], fun bs => ofByte (bs.headD 0), fun _ => rfl⟩

/-- One value after the other. -/
def pair (c : Codec α) (d : Codec β) : Codec (α × β) where
  size := c.size + d.size
  encode x := c.encode x.1 ++ d.encode x.2
  decode bs := (c.decode (bs.take c.size), d.decode (bs.drop c.size))
  length_encode x := by rw [List.length_append, c.length_encode, d.length_encode]

/-- The same bytes under another type. -/
def iso (c : Codec α) (build : α → β) (fields : β → α) : Codec β :=
  ⟨c.size, fun b => c.encode (fields b), fun bs => build (c.decode bs),
    fun b => c.length_encode (fields b)⟩

theorem representable_unsigned {w n : Nat} (h : n < 256 ^ w) : (unsigned w).Representable n :=
  (LittleEndian.ofBytes_toBytes w n).trans (Nat.mod_eq_of_lt h)

theorem representable_signed {w : Nat} {x : Int} (h : Int.bmod x (256 ^ w) = x) :
    (signed w).Representable x := by
  have hpos : ((256 ^ w : Nat) : Int) ≠ 0 := by positivity
  have hmod : (((x % (256 ^ w : Nat)).toNat % 256 ^ w : Nat) : Int) = x % (256 ^ w : Nat) := by
    rw [Int.natCast_emod, Int.toNat_of_nonneg (Int.emod_nonneg x hpos),
      Int.emod_emod_of_dvd _ dvd_rfl]
  change Int.bmod (LittleEndian.ofBytes (LittleEndian.toBytes w _)) _ = x
  rw [LittleEndian.ofBytes_toBytes, hmod, Int.emod_bmod, h]

/-- A number is written as the signed number of the same bytes is. -/
theorem encode_signed_bmod (w n : Nat) :
    (signed w).encode (Int.bmod n (256 ^ w)) = (unsigned w).encode n := by
  have hmod : (Int.bmod n (256 ^ w) % ((256 ^ w : Nat) : Int)).toNat = n % 256 ^ w := by
    rw [Int.bmod_emod, ← Int.natCast_emod, Int.toNat_natCast]
  change LittleEndian.toBytes w _ = LittleEndian.toBytes w n
  rw [hmod, LittleEndian.toBytes_mod]

theorem representable_enum {toByte : α → UInt8} {ofByte : UInt8 → α} {a : α}
    (h : ofByte (toByte a) = a) : (enum toByte ofByte).Representable a := h

theorem representable_pair {c : Codec α} {d : Codec β} {x : α × β} (hc : c.Representable x.1)
    (hd : d.Representable x.2) : (c.pair d).Representable x := by
  change (c.decode ((c.encode x.1 ++ d.encode x.2).take c.size),
    d.decode ((c.encode x.1 ++ d.encode x.2).drop c.size)) = x
  rw [List.take_left' (c.length_encode _), List.drop_left' (c.length_encode _), hc, hd]

theorem representable_iso {c : Codec α} {build : α → β} {fields : β → α} {b : β}
    (hbuild : build (fields b) = b) (hc : c.Representable (fields b)) :
    (c.iso build fields).Representable b :=
  (congrArg build hc).trans hbuild

/-! ## 3. Records of a stream -/

/-- The first `n` records of a buffer. -/
def records (c : Codec α) : Nat → List UInt8 → List α
  | 0, _ => []
  | n + 1, bs => c.decode (bs.take c.size) :: c.records n (bs.drop c.size)

/-- The complete records of a buffer. -/
def frames (c : Codec α) (bs : List UInt8) : List α := c.records (bs.length / c.size) bs

/-- What remains of a buffer behind its complete records. -/
def rest (c : Codec α) (bs : List UInt8) : List UInt8 := bs.drop (bs.length / c.size * c.size)

/-- The records one after the other. -/
def encodeAll (c : Codec α) (as : List α) : List UInt8 := as.flatMap c.encode

section Stream

variable {c : Codec α} {bs cs : List UInt8}

theorem frames_of_lt (h : bs.length < c.size) : c.frames bs = [] ∧ c.rest bs = bs := by
  rw [frames, rest, Nat.div_eq_of_lt h, Nat.zero_mul]
  exact ⟨rfl, rfl⟩

/-- A buffer with a complete record starts with one. -/
theorem frames_of_le (hsize : 0 < c.size) (h : c.size ≤ bs.length) :
    c.frames bs = c.decode (bs.take c.size) :: c.frames (bs.drop c.size) ∧
      c.rest bs = c.rest (bs.drop c.size) := by
  have hcount : bs.length / c.size = (bs.drop c.size).length / c.size + 1 := by
    rw [List.length_drop, Nat.div_eq_sub_div hsize h]
  unfold frames rest
  refine ⟨by rw [hcount, records], ?_⟩
  rw [hcount, List.drop_drop, Nat.succ_mul, Nat.add_comm]

theorem length_rest_lt (hsize : 0 < c.size) : (c.rest bs).length < c.size := by
  rw [rest, List.length_drop]
  have := Nat.div_add_mod' bs.length c.size
  have := Nat.mod_lt bs.length hsize
  omega

/-- **A stream yields the same records however it is cut into chunks.** -/
theorem frames_append (hsize : 0 < c.size) (bs cs : List UInt8) :
    c.frames (bs ++ cs) = c.frames bs ++ c.frames (c.rest bs ++ cs) ∧
      c.rest (bs ++ cs) = c.rest (c.rest bs ++ cs) := by
  rcases Nat.lt_or_ge bs.length c.size with hlt | hle
  · obtain ⟨hframes, hrest⟩ := frames_of_lt hlt
    rw [hframes, hrest]
    exact ⟨rfl, rfl⟩
  · obtain ⟨hframes, hrest⟩ := frames_of_le hsize hle
    have hle' : c.size ≤ (bs ++ cs).length := by
      rw [List.length_append]
      exact hle.trans (Nat.le_add_right _ _)
    obtain ⟨hframes', hrest'⟩ := frames_of_le hsize hle'
    obtain ⟨ihframes, ihrest⟩ := frames_append hsize (bs.drop c.size) cs
    rw [List.take_append_of_le_length hle, List.drop_append_of_le_length hle] at hframes'
    rw [List.drop_append_of_le_length hle] at hrest'
    rw [hframes', hrest', hframes, hrest, ihframes, ihrest]
    exact ⟨rfl, rfl⟩
termination_by bs.length
decreasing_by
  rw [List.length_drop]
  omega

/-- **The records that were written are read.** -/
theorem frames_encodeAll (hsize : 0 < c.size) {as : List α} (h : ∀ a ∈ as, c.Representable a) :
    c.frames (c.encodeAll as) = as ∧ c.rest (c.encodeAll as) = [] := by
  induction as with
  | nil => exact frames_of_lt hsize
  | cons a as ih =>
    obtain ⟨hframes, hrest⟩ := ih fun b hb => h b (List.mem_cons_of_mem a hb)
    have hlen := c.length_encode a
    have hcons : c.encodeAll (a :: as) = c.encode a ++ c.encodeAll as := List.flatMap_cons
    have hle : c.size ≤ (c.encodeAll (a :: as)).length := by
      rw [hcons, List.length_append, hlen]
      exact Nat.le_add_right _ _
    obtain ⟨hframes', hrest'⟩ := frames_of_le hsize hle
    rw [hframes', hrest', hcons, List.take_left' hlen, List.drop_left' hlen, hframes, hrest]
    exact ⟨congrArg (· :: as) (h a List.mem_cons_self), rfl⟩

theorem length_encodeAll (as : List α) : (c.encodeAll as).length = as.length * c.size := by
  induction as with
  | nil => rw [List.length_nil, Nat.zero_mul]; rfl
  | cons a as ih =>
    rw [encodeAll, List.flatMap_cons, List.length_append, c.length_encode, List.length_cons,
      Nat.succ_mul, Nat.add_comm]
    exact congrArg (· + c.size) ih

theorem encodeAll_append (as bs : List α) :
    c.encodeAll (as ++ bs) = c.encodeAll as ++ c.encodeAll bs := List.flatMap_append

/-- How many records a buffer holds. -/
theorem count_frames (bs : List UInt8) : (c.frames bs).length = bs.length / c.size := by
  have hrecords : ∀ (n : Nat) (bs : List UInt8), (c.records n bs).length = n := by
    intro n
    induction n with
    | zero => exact fun _ => rfl
    | succ n ih => exact fun bs => congrArg (· + 1) (ih _)
  exact hrecords _ bs

/-- The records of a buffer and what remains of it make up the buffer. -/
theorem length_frames (hsize : 0 < c.size) (bs : List UInt8) :
    (c.frames bs).length * c.size + (c.rest bs).length = bs.length := by
  rcases Nat.lt_or_ge bs.length c.size with hlt | hle
  · obtain ⟨hframes, hrest⟩ := frames_of_lt hlt
    rw [hframes, hrest, List.length_nil, Nat.zero_mul, Nat.zero_add]
  · obtain ⟨hframes, hrest⟩ := frames_of_le hsize hle
    have ih := length_frames hsize (bs.drop c.size)
    rw [List.length_drop] at ih
    rw [hframes, hrest, List.length_cons, Nat.succ_mul]
    omega
termination_by bs.length
decreasing_by
  rw [List.length_drop]
  omega

/-- **A part of the records that were written** has been read: what is still to come starts with
what remains of the buffer. -/
theorem frames_split (hsize : 0 < c.size) {as : List α} {tail : List UInt8}
    (has : ∀ a ∈ as, c.Representable a) (h : bs ++ tail = c.encodeAll as) :
    ∃ as', as = c.frames bs ++ as' ∧ c.rest bs ++ tail = c.encodeAll as' := by
  have hframes := (frames_append hsize bs tail).1
  rw [h, (frames_encodeAll hsize has).1] at hframes
  refine ⟨_, hframes, ?_⟩
  -- the first records and the buffer without its remainder have the same length
  have hlen := length_frames hsize bs
  have htaken : bs ++ tail = bs.take (bs.length / c.size * c.size) ++ (c.rest bs ++ tail) := by
    rw [rest, ← List.append_assoc, List.take_append_drop]
  rw [h, hframes, encodeAll_append] at htaken
  refine (List.append_inj_right htaken ?_).symm
  rw [length_encodeAll, List.length_take, rest, List.length_drop] at *
  have := Nat.div_mul_le_self bs.length c.size
  omega

end Stream

end Codec
