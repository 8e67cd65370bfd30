/-
# What is said about one order

What a client sends and hears about one order, in the order in which it sends and hears it, is a
word of a small language.  A client enters the order and hears that it is accepted and what is
filled.  After the last fill nothing more is said.  A cancel may be sent once, at any time in
between.  It is answered by what is left of the order, or, when the last fill was heard first, by a
reject.

`OrderStage.next` is the automaton of this language.  `OrderStage.Agrees` ties its state to what
the client believes and to what is on the way, and whatever the client does or hears in a session
is a step of the automaton (`Agrees.cancel`, `Agrees.told`).

A client that has asked to cancel does not know which end of the race it will hear of, and neither
does its stage: `canceling` allows both answers, and only what is on the way decides.  `Agrees.told`
is the result that protocols are read off from: what is told in a session may be told at its stage,
and leads to the stage that agrees with the session that follows.

Nothing is said about time.  An answer may come arbitrarily late, and a word that has not ended is
as good as one that has.
-/
import Mathlib.Data.List.Basic
import YQuant.Lib.OrderSession

namespace OrderSession

/-- Something that is said about an order, by the client or to it. -/
inductive Said where
  | asked (a : Ask)
  | told (t : Tell)
deriving DecidableEq, Repr

inductive OrderStage where
  | unborn
  | entering (quantity : Nat)
  | live (quantity : Nat)
  | canceling (quantity : Nat)
  /-- The last fill has crossed a cancel, which is still to be rejected. -/
  | late
  | settled
deriving DecidableEq, Repr

/-- What comes when all is over leaves the client where it is. -/
theorem Session.hear_over {q w : Nat} {asks : List Ask} {t : Tell} {ts : List Tell}
    (h : Session .finished q asks (t :: ts) w) : OrderSession.hear .finished q t =
    (.finished, q) := by
  cases h with
  | finishedRejected => rfl

namespace OrderStage

/-- What may be said at a stage, and what it leads to. -/
def next : OrderStage → Said → Option OrderStage
  | .unborn, .asked (.enter q) => if 0 < q then some (.entering q) else none
  | .entering q, .told .accepted => some (.live q)
  | .live q, .told (.filled e r) =>
    if 0 < e ∧ r + e = q then some (if r = 0 then .settled else .live r) else none
  | .live q, .asked .cancel => some (.canceling q)
  | .canceling q, .told (.filled e r) =>
    if 0 < e ∧ r + e = q then some (if r = 0 then .late else .canceling r) else none
  | .canceling q, .told (.canceled r) => if r = q then some .settled else none
  | .late, .told .rejected => some .settled
  | _, _ => none

/-- The stage after all that has been said, if it was said in order. -/
def after (said : List Said) : Option OrderStage := said.foldlM next .unborn

variable {st st' : OrderStage} {phase : Phase} {q q' w : Nat} {asks asks' : List Ask} {t : Tell}
  {ts ts' : List Tell}

theorem after_concat {l : List Said} (h : after l = some st) (x : Said) :
    after (l ++ [x]) = st.next x := by
  rw [after, List.foldlM_append]
  change (after l >>= fun s => [x].foldlM next s) = _
  rw [h]
  change (st.next x >>= fun s => some s) = _
  cases st.next x <;> rfl

theorem next_ne_unborn (st : OrderStage) (x : Said) : st.next x ≠ some .unborn := by
  fun_cases next st x <;> grind

/-- An order is unborn as long as nothing is said about it. -/
theorem eq_nil_of_unborn {l : List Said} (h : after l = some .unborn) : l = [] := by
  rcases List.eq_nil_or_concat' l with rfl | ⟨l, x, rfl⟩
  · rfl
  · rw [after, List.foldlM_append] at h
    obtain ⟨st, -, hx⟩ := Option.bind_eq_some_iff.mp h
    obtain ⟨st', hnext, hst'⟩ := Option.bind_eq_some_iff.mp hx
    obtain rfl := Option.some.inj hst'
    exact absurd hnext (next_ne_unborn st x)

/-- A stage fits what the client believes and what is still on the way. -/
inductive Agrees : OrderStage → Phase → Nat → List Ask → List Tell → Prop
  | unborn {q : Nat} : Agrees .unborn .finished q [] []
  | entering {q : Nat} {asks : List Ask} {ts : List Tell} :
      Agrees (.entering q) .pendingNew q asks ts
  | live {q : Nat} {asks : List Ask} {ts : List Tell} : Agrees (.live q) .live q asks ts
  | canceling {q : Nat} {asks : List Ask} {ts : List Tell} :
      Agrees (.canceling q) .pendingCancel q asks ts
  | late {q : Nat} {asks : List Ask} {ts : List Tell} : Agrees .late .finished q asks ts
  | settled {q : Nat} : Agrees .settled .finished q [] []

namespace Agrees

theorem eq_of_finished (h : Agrees st .finished q asks ts) :
    st = .unborn ∨ st = .late ∨ st = .settled := by
  cases h with
  | unborn => exact .inl rfl
  | late => exact .inr (.inl rfl)
  | settled => exact .inr (.inr rfl)

theorem eq_of_live (h : Agrees st .live q asks ts) : st = .live q := by
  cases h
  rfl

/-- What the client last believed of an order that is over does not matter. -/
theorem forget (h : Agrees st .finished q asks ts) : Agrees st .finished q' asks ts := by
  cases h with
  | unborn => exact .unborn
  | late => exact .late
  | settled => exact .settled

/-- The stage does not see what is on the way, unless there is nothing. -/
theorem onTheWay (h : Agrees st phase q asks ts)
    (hquiet : phase = .finished → asks = [] → ts = [] → asks' = [] ∧ ts' = []) :
    Agrees st phase q asks' ts' := by
  cases h with
  | unborn =>
    obtain ⟨rfl, rfl⟩ := hquiet rfl rfl rfl
    exact .unborn
  | settled =>
    obtain ⟨rfl, rfl⟩ := hquiet rfl rfl rfl
    exact .settled
  | entering => exact .entering
  | live => exact .live
  | canceling => exact .canceling
  | late => exact .late

theorem cancel (h : Agrees st .live q asks ts) :
    ∃ st', st.next (.asked .cancel) = some st' ∧
      Agrees st' .pendingCancel q (asks ++ [.cancel]) ts := by
  cases h with
  | live => exact ⟨_, rfl, .canceling⟩

/-- **Whatever is told in a session may be told at its stage.** -/
theorem told (h : Agrees st phase q asks (t :: ts)) (hs : Session phase q asks (t :: ts) w) :
    ∃ st', st.next (.told t) = some st' ∧
      Agrees st' (hear phase q t).1 (hear phase q t).2 asks ts := by
  generalize hts : t :: ts = ts₀ at h hs
  cases hs with
  | entering | finished | finishedCanceling => cases hts
  | accepted hq hf =>
    cases hts
    cases h with
    | entering => exact ⟨_, rfl, .live⟩
  | live hq hf =>
    cases h with
    | live =>
      cases hf with
      | nil => cases hts
      | @cons _ e r _ _ he hsum hf =>
        cases hts
        refine ⟨_, if_pos ⟨he, hsum⟩, ?_⟩
        rcases Nat.eq_zero_or_pos r with rfl | hr
        · obtain ⟨rfl, rfl⟩ := hf.of_zero
          exact .settled
        · rw [hear, if_neg (by omega), if_neg (by omega)]
          exact .live
  | canceling hq hf =>
    cases h with
    | canceling =>
      cases hf with
      | nil => cases hts
      | @cons _ e r _ _ he hsum hf =>
        cases hts
        refine ⟨_, if_pos ⟨he, hsum⟩, ?_⟩
        rcases Nat.eq_zero_or_pos r with rfl | hr
        · exact .late
        · rw [hear, if_neg (by omega), if_neg (by omega)]
          exact .canceling
  | canceled hr hf =>
    cases h with
    | canceling =>
      cases hf with
      | nil =>
        cases hts
        exact ⟨_, if_pos rfl, .settled⟩
      | @cons _ e r' _ _ he hsum hf =>
        cases hts
        have := hf.le
        refine ⟨_, if_pos ⟨he, hsum⟩, ?_⟩
        rw [hear, if_neg (by omega), if_neg (by omega)]
        exact .canceling
  | tooLate hq hf =>
    cases h with
    | canceling =>
      cases hf with
      | nil => exact absurd hq (Nat.lt_irrefl 0)
      | @cons _ e r _ _ he hsum hf =>
        cases hts
        refine ⟨_, if_pos ⟨he, hsum⟩, ?_⟩
        rcases Nat.eq_zero_or_pos r with rfl | hr
        · exact .late
        · rw [hear, if_neg (by omega), if_neg (by omega)]
          exact .canceling
  | finishedRejected =>
    cases hts
    cases h with
    | late => exact ⟨_, rfl, .settled⟩

end Agrees

end OrderStage

end OrderSession
