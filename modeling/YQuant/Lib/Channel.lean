/-
# Channels that lose and duplicate

`Delivered sent received` is the contract of a channel that may lose what was sent on it and may
deliver it several times, but keeps its order.  Whatever relates every earlier message to every
later one, and each message to itself, relates what arrives in the same way.

`mem` says that nothing arrives that was not sent, `pairwise` that the order is kept.  The second
one is stated for relations that hold of a message and itself, because a message may arrive twice.
What arrives of messages that carry a label can be given its labels back (`exists_map`), so that an
argument about the labels, which no receiver sees, is possible.

Nothing is said about what has to arrive: a channel that delivers nothing fulfils the contract.  A
result that needs an arrival has it as a hypothesis of its own.
-/
import Mathlib.Data.List.Basic
import Mathlib.Tactic.Common

namespace Channel

variable {α β : Type}

/-- What can arrive of what was sent, in the order in which it was sent. -/
inductive Delivered : List α → List α → Prop
  | nothing (sent : List α) : Delivered sent []
  | lost {sent received : List α} (a : α) :
      Delivered sent received → Delivered (a :: sent) received
  -- a message that has arrived may arrive again
  | arrives {sent received : List α} {a : α} :
      Delivered (a :: sent) received → Delivered (a :: sent) (a :: received)

namespace Delivered

variable {sent received : List α}

theorem mem (h : Delivered sent received) : ∀ a ∈ received, a ∈ sent := by
  induction h with
  | nothing => exact fun _ ha => absurd ha List.not_mem_nil
  | lost b _ ih => exact fun a ha => List.mem_cons_of_mem b (ih a ha)
  | arrives _ ih =>
    intro a ha
    rcases List.mem_cons.mp ha with rfl | ha
    · exact List.mem_cons_self
    · exact ih a ha

/-- **Order is kept.** -/
theorem pairwise {R : α → α → Prop} (h : Delivered sent received) (hrefl : ∀ a ∈ sent, R a a)
    (hsent : sent.Pairwise R) : received.Pairwise R := by
  induction h with
  | nothing => exact List.Pairwise.nil
  | lost b _ ih =>
    exact ih (fun a ha => hrefl a (List.mem_cons_of_mem b ha)) (List.pairwise_cons.mp hsent).2
  | arrives hrest ih =>
    refine List.pairwise_cons.mpr ⟨fun a ha => ?_, ih hrefl hsent⟩
    rcases List.mem_cons.mp (hrest.mem a ha) with rfl | ha
    · exact hrefl a List.mem_cons_self
    · exact (List.pairwise_cons.mp hsent).1 a ha

/-- What arrives of labelled messages carries labels. -/
theorem exists_map {f : β → α} {labelled : List β} (h : Delivered (labelled.map f) received) :
    ∃ received', Delivered labelled received' ∧ received'.map f = received := by
  generalize hsent : labelled.map f = sent at h
  induction h generalizing labelled with
  | nothing => exact ⟨[], .nothing _, rfl⟩
  | lost a _ ih =>
    obtain ⟨b, rest, rfl, -, hrest⟩ := List.map_eq_cons_iff.mp hsent
    obtain ⟨received', h', hmap⟩ := ih hrest
    exact ⟨received', .lost b h', hmap⟩
  | arrives _ ih =>
    obtain ⟨b, rest, rfl, rfl, -⟩ := List.map_eq_cons_iff.mp hsent
    obtain ⟨received', h', hmap⟩ := ih hsent
    exact ⟨b :: received', .arrives h', by rw [List.map_cons, hmap]⟩

end Delivered

end Channel
