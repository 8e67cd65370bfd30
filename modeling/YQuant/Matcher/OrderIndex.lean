/-
# The order index never dangles

An entry of the index outlives the call that wrote it, and several live nodes can share one entry
when a client uses an id again.  Whatever happened before, a non-null entry points to a node that
rests on one of the two sides under the entry's client and id (`IndexedBook.Inv.sound`, read off
the nodes): it is not on the pool's free list, so a cancel can use it.

An entry is cleared when the order leaves that it names, and also when another order of the same id
leaves; it is overwritten when a new order of that id comes to rest.  So it may be missing although
an order of its id rests, but while it stands, the order that it names rests.  What could go wrong
is that a node is released with its entry still there and then handed out again for another
client's order: then a cancel would take out an order of somebody else.

Whether every resting order is named is another question, and the answer depends on the run
(`Cancellable.lean`).
-/
import YQuant.Matcher.Cancellable

namespace YQuant

/-- A slot on the free list holds no object. -/
theorem MemPool.FreeList.object?_eq_none {T : Type} {p : MemPool T} :
    ∀ {free : List Nat} {head : Option Nat}, FreeList p.storage head free →
      ∀ a ∈ free, p.object? a = none
  | [], _, _ => fun _ ha => absurd ha List.not_mem_nil
  | b :: free, _, ⟨_, next, hb, hrest⟩ => fun a ha => by
    rcases List.mem_cons.mp ha with rfl | ha
    · rw [object?, hb]
    · exact hrest.object?_eq_none a ha

namespace BookCore

/-- The entry of the two-level index: null without a table of the client. -/
def entry (b : BookCore) (clientId clientOrderId : Nat) : Option Nat :=
  (b.orders clientId).bind fun table => table clientOrderId

theorem findOrder_eq_entry (b : BookCore) {clientId clientOrderId : Nat}
    (hclient : clientId < kMaxNumClients) (horder : clientOrderId < kMaxOrderIds) :
    b.findOrder clientId clientOrderId = .ok (b.entry clientId clientOrderId) := by
  rw [findOrder, if_pos hclient, entry]
  cases b.orders clientId with
  | none => rfl
  | some table => exact if_pos horder

/-- **The order index never dangles.**  After any documented calls, with ids repeated in any way,
an entry is null or points to a node that is linked in a level of one side, is not on the free list
and belongs to the entry's client and id; so a cancel always returns.  An order that leaves clears
the entry of its id whatever the entry says, so no entry outlives the order it names.  The converse
fails: not every resting order is named (`not_always_cancellable`). -/
theorem index_never_dangles (symbolId : Nat) {band : PriceBand} {calls : List BookCall}
    {b : BookCore} (hband : band.isValid = true) (hdoc : ∀ call ∈ calls, call.Documented band)
    (hrun : run symbolId band calls = .ok b) {clientId clientOrderId : Nat}
    (hclient : clientId < kMaxNumClients) (horder : clientOrderId < kMaxOrderIds) :
    (∀ a, b.entry clientId clientOrderId = some a →
      ∃ side tick node, b.RestsAt side tick a node ∧ node.level = some ⟨side, tick⟩ ∧
        node.clientId = clientId ∧ node.clientOrderId = clientOrderId ∧
        ∀ free, MemPool.FreeList b.orderPool.storage b.orderPool.freeHead free → a ∉ free) ∧
      ∃ b', b.cancel clientId clientOrderId = .ok b' := by
  obtain ⟨b₂, hrun₂, hsim, -, -⟩ := run_sim symbolId hband (admits_of_run hband hdoc hrun)
  obtain rfl := Except.ok.inj (hrun.symm.trans hrun₂)
  obtain ⟨addr, hrep⟩ := hsim.rep
  have hinv := hsim.inv
  rw [← hsim.band] at hinv
  constructor
  · intro a hentry
    have hfind := findOrder_eq_entry b hclient horder
    rw [hentry, hrep.index _ _ hclient horder] at hfind
    obtain ⟨arrival, hix, rfl⟩ := Option.map_eq_some_iff.mp (Except.ok.inj hfind)
    obtain ⟨o, ho, rfl, hkey⟩ := hinv.sound _ _ _ hix
    obtain ⟨tick, node, hrests, hstored, -, hlevel⟩ := hrep.exists_restsAt hinv ho
    refine ⟨o.side, tick, node, hrests, hlevel, hstored.clientId.trans hkey.1,
      hstored.clientOrderId.trans hkey.2, fun free hfree hmem => ?_⟩
    have hnone := hfree.object?_eq_none _ hmem
    rw [hrests.node] at hnone
    cases hnone
  · obtain ⟨b', hcancel, -⟩ := hrep.cancel hinv hclient horder
    exact ⟨b', hcancel⟩

/-- An id used again while its first order rests: the entry points to the second order. -/
theorem index_never_dangles_reused :
    ∃ b, run 0 kDefaultPriceBand [.add 1 7 .buy 10 5, .add 1 7 .buy 11 5] = .ok b ∧
      b.entry 1 7 = some 1 ∧ (∀ a, b.entry 1 7 = some a →
        ∃ side tick node, b.RestsAt side tick a node ∧ node.level = some ⟨side, tick⟩ ∧
          node.clientId = 1 ∧ node.clientOrderId = 7 ∧
          ∀ free, MemPool.FreeList b.orderPool.storage b.orderPool.freeHead free → a ∉ free) ∧
        ∃ b', b.cancel 1 7 = .ok b' := by
  have hband : kDefaultPriceBand.isValid = true := by decide
  have hdoc : ∀ call ∈ [BookCall.add 1 7 .buy 10 5, .add 1 7 .buy 11 5],
      call.Documented kDefaultPriceBand := by decide
  exact ⟨_, rfl, rfl, index_never_dangles 0 hband hdoc rfl (by decide) (by decide)⟩

end BookCore

end YQuant
