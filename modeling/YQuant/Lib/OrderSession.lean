/-
# One order between a client and a venue

A client enters an order, may ask to cancel it, and hears of its fills.  Requests and answers
travel in order but take any time, so a fill, a cancel and the answer to a cancel can cross.
`Session phase quantity asks tells working` lists the states such an order can be in: what the
client believes (`phase` and `quantity`), what is on its way to the venue (`asks`), what is on its
way back (`tells`), and the quantity still at work there.

Each thing that either party can do leads from a session to a session, and in every session the
quantity the client believes is accounted for (`Session.accounted`).

A session is an inductive type with one constructor for each way in which requests and answers can
cross, and not a conjunction of facts; that there are few of them is what makes the step lemmas
short.  What a client must know to stay within a limit are `executed_le` and `atRisk_hear`: what
has been executed without its knowledge is at risk for it, and what it hears leaves that sum as it
is.

One order is asked to be cancelled once, and an answer that comes when all is over changes nothing
(`late`).  An id that is used again is a new session.
-/
import Mathlib.Tactic.Common

namespace OrderSession

/-- Where the client believes the order to be. -/
inductive Phase where
  | pendingNew
  | live
  | pendingCancel
  | finished
deriving DecidableEq, Repr

/-- What a client asks of the venue. -/
inductive Ask where
  | enter (quantity : Nat)
  | cancel
deriving DecidableEq, Repr

/-- What the venue tells the client. -/
inductive Tell where
  | accepted
  | filled (executed remaining : Nat)
  | canceled (remaining : Nat)
  | rejected
deriving DecidableEq, Repr

/-! ## 1. Fills -/

/-- Fills that bring an order from one quantity to another. -/
inductive Fills : Nat → List Tell → Nat → Prop
  | nil {q : Nat} : Fills q [] q
  | cons {q e r q' : Nat} {ts : List Tell} (he : 0 < e) (hq : r + e = q) (h : Fills r ts q') :
      Fills q (.filled e r :: ts) q'

/-- The quantity executed by the answers of a list. -/
def executed : List Tell → Nat
  | [] => 0
  | .filled e _ :: ts => e + executed ts
  | _ :: ts => executed ts

theorem executed_append (ts ts' : List Tell) :
    executed (ts ++ ts') = executed ts + executed ts' := by
  induction ts with
  | nil => simp [executed]
  | cons t ts ih => cases t <;> simp [executed, ih, Nat.add_assoc]

namespace Fills

variable {q q' q'' e r : Nat} {ts ts' : List Tell}

theorem append (h : Fills q ts q') (h' : Fills q' ts' q'') : Fills q (ts ++ ts') q'' := by
  induction h with
  | nil => exact h'
  | cons he hq _ ih => exact .cons he hq (ih h')

theorem executed_add (h : Fills q ts q') : executed ts + q' = q := by
  induction h with
  | nil => exact Nat.zero_add _
  | cons _ hq _ ih =>
    rw [executed]
    omega

theorem le (h : Fills q ts q') : q' ≤ q := by
  have := h.executed_add
  omega

/-- Nothing can be filled of nothing. -/
theorem of_zero (h : Fills 0 ts q') : ts = [] ∧ q' = 0 := by
  cases h with
  | nil => exact ⟨rfl, rfl⟩
  | cons he hq _ => omega

theorem filled_of_mem (h : Fills q ts q') {t : Tell} (ht : t ∈ ts) :
    ∃ e r, t = .filled e r := by
  induction h with
  | nil => cases ht
  | cons _ _ _ ih =>
    rcases List.mem_cons.mp ht with rfl | ht
    · exact ⟨_, _, rfl⟩
    · exact ih ht

theorem canceled_notMem (h : Fills q ts q') (r : Nat) : Tell.canceled r ∉ ts := by
  intro hmem
  obtain ⟨_, _, heq⟩ := h.filled_of_mem hmem
  cases heq

end Fills

/-! ## 2. Sessions -/

/-- **The states of an order.** -/
inductive Session : Phase → Nat → List Ask → List Tell → Nat → Prop
  | entering {q : Nat} (hq : 0 < q) : Session .pendingNew q [.enter q] [] 0
  | accepted {q w : Nat} {ts : List Tell} (hq : 0 < q) (h : Fills q ts w) :
      Session .pendingNew q [] (.accepted :: ts) w
  | live {q w : Nat} {ts : List Tell} (hq : 0 < q) (h : Fills q ts w) : Session .live q [] ts w
  /-- The cancel is on its way. -/
  | canceling {q w : Nat} {ts : List Tell} (hq : 0 < q) (h : Fills q ts w) :
      Session .pendingCancel q [.cancel] ts w
  /-- The cancel found the order. -/
  | canceled {q r : Nat} {ts : List Tell} (hr : 0 < r) (h : Fills q ts r) :
      Session .pendingCancel q [] (ts ++ [.canceled r]) 0
  /-- The cancel came after the last fill. -/
  | tooLate {q : Nat} {ts : List Tell} (hq : 0 < q) (h : Fills q ts 0) :
      Session .pendingCancel q [] (ts ++ [.rejected]) 0
  | finished {q : Nat} : Session .finished q [] [] 0
  /-- The client has heard of the last fill while its cancel is still on its way. -/
  | finishedCanceling {q : Nat} : Session .finished q [.cancel] [] 0
  | finishedRejected {q : Nat} : Session .finished q [] [.rejected] 0

/-- What the client believes after it has heard an answer. -/
def hear (phase : Phase) (quantity : Nat) : Tell → Phase × Nat
  | .accepted => (.live, quantity)
  | .filled _ remaining => (if remaining = 0 then .finished else phase, remaining)
  | .canceled _ => (.finished, quantity)
  | .rejected => (.finished, quantity)

/-- The quantity that the client believes may still be executed. -/
def atRisk : Phase → Nat → Nat
  | .finished, _ => 0
  | _, quantity => quantity

namespace Session

variable {phase : Phase} {q q' w w' : Nat} {a : Ask} {asks : List Ask} {t : Tell}
    {ts fs : List Tell}

/-- With nothing on its way, an order is finished or live. -/
theorem quiet (h : Session phase q [] [] w) : phase = .finished ∨ phase = .live ∧ 0 < q := by
  generalize htells : ([] : List Tell) = tells at h
  generalize hasks : ([] : List Ask) = asks at h
  cases h with
  | live hq _ => exact .inr ⟨rfl, hq⟩
  | finished => exact .inl rfl
  | entering | canceling | finishedCanceling => cases hasks
  | accepted | finishedRejected => cases htells
  | canceled | tooLate => exact absurd htells.symm (List.append_ne_nil_of_right_ne_nil _ (by simp))

/-! ### The client -/

/-- The client asks to cancel. -/
theorem cancel (h : Session .live q asks ts w) :
    Session .pendingCancel q (asks ++ [.cancel]) ts w := by
  cases h with
  | live hq h => exact .canceling hq h

/-- The client hears an answer. -/
theorem hear (h : Session phase q asks (t :: ts) w) :
    Session (hear phase q t).1 (OrderSession.hear phase q t).2 asks ts w := by
  generalize hts : t :: ts = ts₀ at h
  cases h with
  | entering | finished | finishedCanceling => cases hts
  | accepted hq h =>
    cases hts
    exact .live hq h
  | live hq h =>
    cases h with
    | nil => cases hts
    | @cons _ e r _ _ _ _ h =>
      cases hts
      rcases Nat.eq_zero_or_pos r with rfl | hr
      · obtain ⟨rfl, rfl⟩ := h.of_zero
        exact .finished
      · rw [OrderSession.hear, if_neg (by omega)]
        exact .live hr h
  | canceling hq h =>
    cases h with
    | nil => cases hts
    | @cons _ e r _ _ _ _ h =>
      cases hts
      rcases Nat.eq_zero_or_pos r with rfl | hr
      · obtain ⟨rfl, rfl⟩ := h.of_zero
        exact .finishedCanceling
      · rw [OrderSession.hear, if_neg (by omega)]
        exact .canceling hr h
  | canceled hr h =>
    cases h with
    | nil =>
      cases hts
      exact .finished
    | cons _ _ h =>
      cases hts
      have := h.le
      rw [OrderSession.hear, if_neg (by omega)]
      exact .canceled hr h
  | tooLate hq h =>
    cases h with
    | nil => exact absurd hq (Nat.lt_irrefl 0)
    | @cons _ e r _ _ _ _ h =>
      cases hts
      rcases Nat.eq_zero_or_pos r with rfl | hr
      · obtain ⟨rfl, -⟩ := h.of_zero
        exact .finishedRejected
      · rw [OrderSession.hear, if_neg (by omega)]
        exact .tooLate hr h
  | finishedRejected =>
    cases hts
    exact .finished

/-- An answer that comes when all is over changes nothing. -/
theorem late (h : Session .finished q asks (t :: ts) w) : Session .finished q asks ts w := by
  cases h with
  | finishedRejected => exact .finished

/-- What the client last believed of an order that is over does not matter. -/
theorem forget (h : Session .finished q asks ts w) : Session .finished q' asks ts w := by
  cases h with
  | finished => exact .finished
  | finishedCanceling => exact .finishedCanceling
  | finishedRejected => exact .finishedRejected

/-! ### The venue -/

/-- The venue fills part of what is at work. -/
theorem fill (h : Session phase q asks ts w) (hfs : Fills w fs w') :
    Session phase q asks (ts ++ fs) w' := by
  cases h with
  | accepted hq h => exact .accepted hq (h.append hfs)
  | live hq h => exact .live hq (h.append hfs)
  | canceling hq h => exact .canceling hq (h.append hfs)
  | entering hq =>
    obtain ⟨rfl, rfl⟩ := hfs.of_zero
    exact .entering hq
  | canceled hr h =>
    obtain ⟨rfl, rfl⟩ := hfs.of_zero
    rw [List.append_nil]
    exact .canceled hr h
  | tooLate hq h =>
    obtain ⟨rfl, rfl⟩ := hfs.of_zero
    rw [List.append_nil]
    exact .tooLate hq h
  | finished =>
    obtain ⟨rfl, rfl⟩ := hfs.of_zero
    exact .finished
  | finishedCanceling =>
    obtain ⟨rfl, rfl⟩ := hfs.of_zero
    exact .finishedCanceling
  | finishedRejected =>
    obtain ⟨rfl, rfl⟩ := hfs.of_zero
    exact .finishedRejected

/-- An order that is still to be entered is not at work. -/
theorem working_of_enter (h : Session phase q (.enter q' :: asks) ts w) : w = 0 := by
  cases h
  rfl

/-- The venue takes the order, which may trade at once. -/
theorem takeEnter (h : Session phase q (.enter q' :: asks) ts w) (hfs : Fills q' fs w') :
    Session phase q asks (ts ++ .accepted :: fs) w' := by
  cases h with
  | entering hq => exact .accepted hq hfs

/-- The venue takes a cancel of an order that is at work. -/
theorem takeCancel (h : Session phase q (.cancel :: asks) ts w) (hw : 0 < w) :
    Session phase q asks (ts ++ [.canceled w]) 0 := by
  cases h with
  | canceling _ h => exact .canceled hw h
  | finishedCanceling => exact absurd hw (Nat.lt_irrefl 0)

/-- The venue takes a cancel of an order that is not at work. -/
theorem takeLateCancel (h : Session phase q (.cancel :: asks) ts 0) :
    Session phase q asks (ts ++ [.rejected]) 0 := by
  cases h with
  | canceling hq h => exact .tooLate hq h
  | finishedCanceling => exact .finishedRejected

/-! ### What a session says -/

/-- **An order that the client holds to be over is over**: nothing of it is at work, is to be
entered, or has been executed without the client knowing. -/
theorem eq_of_over (h : Session .finished q asks ts w) :
    w = 0 ∧ (∀ n, .enter n ∉ asks) ∧ ∀ e r, .filled e r ∉ ts := by
  cases h <;> simp

/-- An order that is still to be entered is asked for once and is not at work. -/
theorem eq_of_enter (h : Session phase q asks ts w) (ha : .enter q' ∈ asks) :
    asks = [.enter q] ∧ w = 0 := by
  cases h <;> simp at ha ⊢

/-- What is to be entered is at risk. -/
theorem enter_le_atRisk (h : Session phase q asks ts w) (ha : .enter q' ∈ asks) :
    q' ≤ atRisk phase q := by
  cases h with
  | entering =>
    obtain rfl : q' = q := Ask.enter.inj (List.mem_singleton.mp ha)
    exact Nat.le_refl _
  | _ => simp at ha

/-- **The quantity the client believes is accounted for**: part of it has been executed, and the
rest is at work, or is returned by a cancel, or there is none. -/
theorem accounted (h : Session phase q asks ts w)
    (hphase : phase = .live ∨ phase = .pendingCancel) :
    ∃ left, q = executed ts + left ∧
      ((left = w ∧ 0 < w) ∨ (.canceled left ∈ ts ∧ w = 0) ∨
        (left = 0 ∧ w = 0 ∧ ∀ r, .canceled r ∉ ts)) := by
  cases h with
  | entering | accepted | finished | finishedCanceling | finishedRejected => simp at hphase
  | live _ h | canceling _ h =>
    refine ⟨w, h.executed_add.symm, ?_⟩
    rcases Nat.eq_zero_or_pos w with rfl | hw
    · exact .inr (.inr ⟨rfl, rfl, h.canceled_notMem⟩)
    · exact .inl ⟨rfl, hw⟩
  | @canceled _ r _ hr h =>
    refine ⟨r, ?_, .inr (.inl ⟨by simp, rfl⟩)⟩
    rw [executed_append]
    exact h.executed_add.symm
  | tooLate hq h =>
    refine ⟨0, ?_, .inr (.inr ⟨rfl, rfl, ?_⟩)⟩
    · rw [executed_append]
      exact h.executed_add.symm
    · intro r hmem
      rcases List.mem_append.mp hmem with hmem | hmem
      · exact h.canceled_notMem r hmem
      · cases List.mem_singleton.mp hmem

/-- What has been executed without the client knowing is at risk for it. -/
theorem executed_le (h : Session phase q asks ts w) : executed ts ≤ atRisk phase q := by
  cases h with
  | entering => exact Nat.zero_le _
  | finished | finishedCanceling | finishedRejected => exact Nat.le_refl 0
  | accepted _ h | live _ h | canceling _ h => exact Nat.le.intro h.executed_add
  | canceled _ h | tooLate _ h =>
    have := h.executed_add
    rw [executed_append]
    simp only [executed, atRisk]
    omega

/-- **What the client hears to be executed it no longer has at risk.** -/
theorem atRisk_hear (h : Session phase q asks (t :: ts) w) :
    executed [t] + atRisk (OrderSession.hear phase q t).1 (OrderSession.hear phase q t).2 ≤
      atRisk phase q := by
  have hfilled {e r q : Nat} {phase : Phase} (hq : r + e = q) (hphase : phase ≠ .finished) :
      executed [.filled e r] + atRisk (OrderSession.hear phase q (.filled e r)).1
        (OrderSession.hear phase q (.filled e r)).2 ≤ atRisk phase q := by
    cases phase with
    | finished => exact absurd rfl hphase
    | _ =>
      simp only [executed, OrderSession.hear]
      split <;> simp only [atRisk] <;> omega
  generalize hts : t :: ts = ts₀ at h
  cases h with
  | entering | finished | finishedCanceling => cases hts
  | accepted _ h =>
    cases hts
    exact Nat.le_of_eq (Nat.zero_add _)
  | live _ h | canceling _ h =>
    cases h with
    | nil => cases hts
    | cons _ hq _ =>
      cases hts
      exact hfilled hq (by decide)
  | canceled _ h | tooLate _ h =>
    cases h with
    | nil =>
      cases hts
      exact Nat.zero_le _
    | cons _ hq _ =>
      cases hts
      exact hfilled hq (by decide)
  | finishedRejected =>
    cases hts
    exact Nat.le_refl 0

end Session

end OrderSession
