/-
# What the sequencer does to the order of a client's requests

`recvCallback` accepts the requests of a client in the order of their numbers and the sequencer
sorts a pass by receive time.  All records of one read share one receive time, and the sort is not
stable: it may publish two requests of a client in either order unless the receive time of the later
one is later (`keepsClientOrder_iff`).

What waits for the end of a pass is what the pass has accepted, in that order
(`pending_eq_accepted`); so the only thing that can go wrong is the sort, and the condition is on
its input (`TimesIncrease`).  The theorem lets the sort be any that keeps its contract, and the
condition decides whether every one of them keeps the order of every client.

* `keepsClientOrder_two_reads`: one record in each of two reads;
* `not_keepsClientOrder`: both in one read, and a cancel that overtakes the order it cancels.

Requests of different clients may change places in either case; nobody promises them anything.
-/
import YQuant.OrderManager.OrderManager

namespace YQuant

namespace OrderManager

/-- A turn other than the end of a pass. -/
def Reading : OrderManagerEvent → Prop
  | .recvFinished _ => False
  | .sendAndRecv .. | .sendResponse _ => True

instance : DecidablePred Reading := fun e => by
  cases e <;> unfold Reading <;> infer_instance

/-- **What the end of a pass should do** to the requests `accepted` in it: all of them are
published, each once, and those of a client in the order in which they were accepted. -/
structure KeepsClientOrder (ranges : ReceiveTimeSort) (accepted : List Arrival)
    (m : OrderManager) : Prop where
  published : (m.recvFinishedCallback ranges).fifoSequencer.incomingRequest =
    m.fifoSequencer.incomingRequest ++
      ((ranges.arrange (accepted.map Arrival.timestamped)).map fun x => x.1.request)
  once : (ranges.arrange (accepted.map Arrival.timestamped)).Perm
    (accepted.map Arrival.timestamped).zipIdx
  inOrder : (ranges.arrange (accepted.map Arrival.timestamped)).Pairwise fun x y =>
    x.1.request.clientId = y.1.request.clientId → x.2 < y.2

/-- The receive times of each client's pending requests strictly increase. -/
def TimesIncrease (m : OrderManager) : Prop :=
  m.fifoSequencer.pendingClientRequests.Pairwise fun a b =>
    a.request.clientId = b.request.clientId → a.receiveTime < b.receiveTime

instance (m : OrderManager) : Decidable m.TimesIncrease :=
  inferInstanceAs (Decidable (List.Pairwise _ _))

/-- What waits for the end of a pass is what the pass has accepted. -/
theorem pending_eq_accepted {m₀ m : OrderManager} {events : List OrderManagerEvent}
    (hstart : m₀.fifoSequencer.pendingClientRequests = []) (hpass : ∀ e ∈ events, Reading e)
    (hrun : events.foldlM step m₀ = .ok m) :
    m.fifoSequencer.pendingClientRequests =
      (acceptedOf (log m₀ events)).map Arrival.timestamped := by
  have h := log_inv (l := []) (I := fun l m => m.fifoSequencer.pendingClientRequests =
    (acceptedOf l).map Arrival.timestamped) (fun _ _ _ _ h => h) ?_
    (fun _ _ _ _ hfinished => hfinished.elim) ?_ hstart hpass hrun
  · rwa [List.nil_append] at h
  · intro l m a m' h hrequest
    obtain ⟨-, ⟨haccepts, -, rfl⟩ | ⟨hrejects, rfl⟩⟩ := receiveRequest_cases hrequest
    · rw [haccepts, acceptedOf_append, acceptedOf_accepted, List.map_append, ← h]
      rfl
    · rw [hrejects, acceptedOf_append, acceptedOf_rejected, List.append_nil, ← h, bindSocket_fifo]
  · intro l m r m' h hresponse
    obtain ⟨-, socket, -, rfl⟩ := sendResponse_cases hresponse
    exact h

/-- **The sequencer keeps every client's order, whatever permitted output the sort picks, if and
only if the receive times of each client's requests strictly increase.**  All requests of one read
have one receive time, so two of them are enough for it to fail.  What a particular sort does to
equal elements is left open, as its contract leaves it. -/
theorem keepsClientOrder_iff {m₀ m : OrderManager} {events : List OrderManagerEvent}
    (hstart : m₀.fifoSequencer.pendingClientRequests = []) (hpass : ∀ e ∈ events, Reading e)
    (hrun : events.foldlM step m₀ = .ok m) :
    (∀ ranges : ReceiveTimeSort, KeepsClientOrder ranges (acceptedOf (log m₀ events)) m) ↔
      m.TimesIncrease := by
  have hpending := pending_eq_accepted hstart hpass hrun
  have hpublished : ∀ ranges : ReceiveTimeSort,
      (m.recvFinishedCallback ranges).fifoSequencer.incomingRequest =
        m.fifoSequencer.incomingRequest ++
          ((ranges.arrange ((acceptedOf (log m₀ events)).map Arrival.timestamped)).map
            fun x => x.1.request) := fun ranges => by
    rw [← hpending]
    change m.fifoSequencer.incomingRequest ++ (ranges.sort _).map _ = _
    rw [SortBy.sort, List.map_map]
    rfl
  unfold TimesIncrease
  rw [hpending, ← SortBy.keepsClasses_iff]
  exact ⟨fun h ranges => (h ranges).inOrder,
    fun h ranges => ⟨hpublished ranges, ranges.perm _, h ranges⟩⟩

/-- An order of client 1 and the request to cancel it. -/
def orderAndCancel : List OrderManagerClientRequest :=
  [⟨1, ⟨.new, 1, 0, 7, .buy, 10, 5⟩⟩, ⟨2, ⟨.canceled, 1, 0, 7, .unset, 0, 0⟩⟩]

/-- One record in each of two reads. -/
def twoReads : List OrderManagerEvent :=
  orderAndCancel.mapIdx fun i r =>
    .sendAndRecv 3 (orderManagerClientRequestCodec.encode r) (100 + i)

/-- Both records in one read. -/
def oneRead : List OrderManagerEvent :=
  [.sendAndRecv 3 (orderManagerClientRequestCodec.encodeAll orderAndCancel) 100]

theorem keepsClientOrder_two_reads : ∃ m, run twoReads = .ok m ∧
    ∀ ranges : ReceiveTimeSort, KeepsClientOrder ranges (acceptedOf (log init twoReads)) m := by
  obtain ⟨m, hrun, htimes⟩ : ∃ m, run twoReads = .ok m ∧ decide m.TimesIncrease = true :=
    exists_of_returns (by decide +kernel)
  exact ⟨m, hrun, (keepsClientOrder_iff rfl (by decide) hrun).mpr (of_decide_eq_true htimes)⟩

/-- **The cancel can overtake its order** when one read delivers both. -/
theorem not_keepsClientOrder : ¬ ∀ (m₀ m : OrderManager) (events : List OrderManagerEvent),
    m₀.fifoSequencer.pendingClientRequests = [] → (∀ e ∈ events, Reading e) →
    events.foldlM step m₀ = .ok m →
    ∀ ranges : ReceiveTimeSort, KeepsClientOrder ranges (acceptedOf (log m₀ events)) m := by
  intro hkeeps
  obtain ⟨m, hrun, htimes⟩ : ∃ m, run oneRead = .ok m ∧ decide (¬ m.TimesIncrease) = true :=
    exists_of_returns (by decide +kernel)
  have hpending := pending_eq_accepted rfl (by decide) hrun
  refine absurd ?_ (of_decide_eq_true htimes)
  unfold TimesIncrease
  rw [hpending, ← SortBy.keepsClasses_iff]
  exact fun ranges => (hkeeps init m oneRead rfl (by decide) hrun ranges).inOrder

end OrderManager

end YQuant
