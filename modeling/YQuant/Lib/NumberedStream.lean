/-
# Numbered messages in a byte stream

A sender puts messages behind consecutive numbers and writes the records to a byte stream; a
receiver takes complete records off the stream and keeps those with the number it expects.
`InTransit` relates the bytes that have been written and not yet consumed, wherever they are, to
the messages: they are exactly the records of the messages that were sent and have not been
received, under their numbers.

The receiver looks at its own buffer only, and what it finds there is some beginning of what is on
the way.  `InTransit.receive` says that these records carry the numbers it expects next, so that it
will take all of them, and that what is left is in transit again; sender and receiver may therefore
go on in any order, and no argument about the chunks is needed where the relation is used.

How a number is written into a record is a parameter.  The stream loses nothing, and one sender
writes to it; of a channel that loses messages nothing of this is true.
-/
import YQuant.Lib.Codec

namespace NumberedStream

variable {α ρ : Type}

/-- The records of messages, numbered from `n` on. -/
def stamped (number : Nat → α → ρ) : Nat → List α → List ρ
  | _, [] => []
  | n, a :: as => number n a :: stamped number (n + 1) as

section Stream

variable {number : Nat → α → ρ} {c : Codec ρ} {bytes bs tail : List UInt8}
  {received sent : List α}

theorem stamped_append (n : Nat) (as bs : List α) :
    stamped number n (as ++ bs) = stamped number n as ++ stamped number (n + as.length) bs := by
  induction as generalizing n with
  | nil => rfl
  | cons a as ih =>
    rw [List.cons_append, stamped, ih, stamped, List.cons_append, List.length_cons, Nat.add_assoc,
      Nat.add_comm 1]

theorem length_stamped (n : Nat) (as : List α) : (stamped number n as).length = as.length := by
  induction as generalizing n with
  | nil => rfl
  | cons a as ih => rw [stamped, List.length_cons, List.length_cons, ih]

/-- A part of a numbered list is numbered. -/
theorem stamped_split {n : Nat} {as : List α} {rs rs' : List ρ}
    (h : stamped number n as = rs ++ rs') : ∃ bs cs, as = bs ++ cs ∧
      rs = stamped number n bs ∧ rs' = stamped number (n + bs.length) cs := by
  induction rs generalizing n as with
  | nil => exact ⟨[], as, rfl, rfl, h.symm⟩
  | cons r rs ih =>
    cases as with
    | nil => cases h
    | cons a as =>
      obtain ⟨hhead, htail⟩ := List.cons.inj h
      obtain ⟨bs, cs, rfl, rfl, rfl⟩ := ih htail
      refine ⟨a :: bs, cs, rfl, by rw [← hhead, stamped], ?_⟩
      rw [List.length_cons, Nat.add_assoc, Nat.add_comm 1]

theorem mem_stamped {n : Nat} {as : List α} {r : ρ} (h : r ∈ stamped number n as) :
    ∃ k, ∃ a ∈ as, r = number k a := by
  induction as generalizing n with
  | nil => exact absurd h List.not_mem_nil
  | cons a as ih =>
    rcases List.mem_cons.mp h with rfl | h
    · exact ⟨n, a, List.mem_cons_self, rfl⟩
    · obtain ⟨k, b, hb, hr⟩ := ih h
      exact ⟨k, b, List.mem_cons_of_mem a hb, hr⟩

/-- The bytes on the way are the records of the messages on the way. -/
def InTransit (c : Codec ρ) (number : Nat → α → ρ) (bytes : List UInt8) (received sent : List α) :
    Prop :=
  ∃ waiting, sent = received ++ waiting ∧
    bytes = c.encodeAll (stamped number (received.length + 1) waiting)

theorem InTransit.init : InTransit c number [] [] [] := ⟨[], rfl, rfl⟩

/-- The sender writes the next record. -/
theorem InTransit.send (h : InTransit c number bytes received sent) (a : α) :
    InTransit c number (bytes ++ c.encode (number (sent.length + 1) a)) received (sent ++ [a]) := by
  obtain ⟨waiting, rfl, rfl⟩ := h
  refine ⟨waiting ++ [a], List.append_assoc _ _ _, ?_⟩
  rw [stamped_append, Codec.encodeAll_append, List.length_append, Nat.add_right_comm]
  rw [stamped, stamped, Codec.encodeAll, Codec.encodeAll, List.flatMap_singleton]

/-- **The receiver** finds the next messages under the next numbers, whatever part of the stream has
arrived. -/
theorem InTransit.receive (hsize : 0 < c.size)
    (h : InTransit c number (bs ++ tail) received sent)
    (hrep : ∀ a ∈ sent, ∀ n, c.Representable (number n a)) :
    ∃ as, c.frames bs = stamped number (received.length + 1) as ∧ (∀ a ∈ as, a ∈ sent) ∧
      InTransit c number (c.rest bs ++ tail) (received ++ as) sent := by
  obtain ⟨waiting, rfl, hbytes⟩ := h
  have hreadable : ∀ r ∈ stamped number (received.length + 1) waiting, c.Representable r := by
    intro r hr
    obtain ⟨k, a, ha, rfl⟩ := mem_stamped hr
    exact hrep a (List.mem_append_right _ ha) k
  obtain ⟨rs, hrs, htail⟩ := Codec.frames_split hsize hreadable hbytes
  obtain ⟨as, waiting', rfl, hframes, rfl⟩ := stamped_split hrs
  refine ⟨as, hframes, fun a ha => by simp [ha], waiting', (List.append_assoc _ _ _).symm, ?_⟩
  rw [htail, List.length_append, Nat.add_right_comm]

theorem InTransit.prefix_sent (h : InTransit c number bytes received sent) : received <+: sent := by
  obtain ⟨waiting, rfl, -⟩ := h
  exact List.prefix_append received waiting

/-- When nothing is on the way, everything has been received. -/
theorem InTransit.drained (hsize : 0 < c.size) (h : InTransit c number [] received sent) :
    received = sent := by
  obtain ⟨waiting, rfl, hbytes⟩ := h
  cases waiting with
  | nil => exact (List.append_nil _).symm
  | cons a as =>
    have hlen := congrArg List.length hbytes
    rw [Codec.length_encodeAll, stamped, List.length_cons, List.length_nil] at hlen
    exact absurd hlen.symm (Nat.mul_ne_zero (Nat.succ_ne_zero _) (Nat.ne_of_gt hsize))

end Stream

end NumberedStream
