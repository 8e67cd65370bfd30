/-
# Circular lists of pool objects

The client's book links objects of a pool into circular doubly linked lists, with two kinds of
object and the same few sequences of pointer assignments.  `LinkFields` says where an object keeps
its links; the sequences are written once, statement by statement, and each is specified on the
`Links.Ring` that the link fields spell out.

A link write changes no other field: `Relinked` carries the new link maps, and says that every
object is otherwise what it was.

* `insertBefore_spec`, `insertAfter_spec`, `append_spec`: a new cell at the end of the ring, by
  three different sequences of assignments;
* `unlink_spec`: a cell that is not alone leaves the ring;
* `linkToSelf_spec`: a ring of one.

Each reads and writes through pointers that must not be null or dangling, and the specifications
say so: with the cells of the ring live in the pool, no access fails.  The order of the assignments
is the one of the source, since some of them read what others have written.  Which objects are in
the ring, and what the head of a ring is called, is left to the callers.
-/
import YQuant.Lib.Links
import YQuant.MemPool

namespace YQuant

/-- Where an object keeps its two links; `bare` is the object without them. -/
structure LinkFields (T : Type) where
  next : T → Option Nat
  prev : T → Option Nat
  setNext : Option Nat → T → T
  setPrev : Option Nat → T → T
  bare : T → T
  next_setNext : ∀ v n, next (setNext v n) = v
  prev_setNext : ∀ v n, prev (setNext v n) = prev n
  next_setPrev : ∀ v n, next (setPrev v n) = next n
  prev_setPrev : ∀ v n, prev (setPrev v n) = v
  bare_setNext : ∀ v n, bare (setNext v n) = bare n
  bare_setPrev : ∀ v n, bare (setPrev v n) = bare n

/-- `ptr->field`. -/
def MemPool.read {T α : Type} (p : MemPool T) (ptr : Option Nat) (field : T → α) :
    Except Fault α := do
  let value ← p.deref ptr
  .ok (field value)

namespace LinkFields

variable {T : Type} (L : LinkFields T)

/-! ## 1. The pointer assignments -/

/-- `entry->prev = target->prev; entry->next = target; target->prev->next = entry;
target->prev = entry`. -/
def insertBefore (p : MemPool T) (entry target : Option Nat) : Except Fault (MemPool T) := do
  let p ← p.modify entry (L.setPrev (← p.read target L.prev))
  let p ← p.modify entry (L.setNext target)
  let p ← p.modify (← p.read target L.prev) (L.setNext entry)
  p.modify target (L.setPrev entry)

/-- `entry->prev = target; target->next->prev = entry; entry->next = target->next;
target->next = entry`. -/
def insertAfter (p : MemPool T) (entry target : Option Nat) : Except Fault (MemPool T) := do
  let p ← p.modify entry (L.setPrev target)
  let p ← p.modify (← p.read target L.next) (L.setPrev entry)
  let p ← p.modify entry (L.setNext (← p.read target L.next))
  p.modify target (L.setNext entry)

/-- `first->prev->next = entry; entry->prev = first->prev; entry->next = first;
first->prev = entry`. -/
def append (p : MemPool T) (entry first : Option Nat) : Except Fault (MemPool T) := do
  let p ← p.modify (← p.read first L.prev) (L.setNext entry)
  let p ← p.modify entry (L.setPrev (← p.read first L.prev))
  let p ← p.modify entry (L.setNext first)
  p.modify first (L.setPrev entry)

/-- `entry->prev = entry->next = entry`. -/
def linkToSelf (p : MemPool T) (entry : Option Nat) : Except Fault (MemPool T) := do
  let p ← p.modify entry (L.setNext entry)
  p.modify entry (L.setPrev entry)

/-- `entry->prev->next = entry->next; entry->next->prev = entry->prev`. -/
def unlink (p : MemPool T) (entry : Option Nat) : Except Fault (MemPool T) := do
  let p ← p.modify (← p.read entry L.prev) (L.setNext (← p.read entry L.next))
  p.modify (← p.read entry L.next) (L.setPrev (← p.read entry L.prev))

/-- `before->next = after; after->prev = before`, with the two neighbours read beforehand. -/
def bypass (p : MemPool T) (before after : Option Nat) : Except Fault (MemPool T) := do
  let p ← p.modify before (L.setNext after)
  p.modify after (L.setPrev before)

/-- `entry->prev = entry->next = nullptr`. -/
def clearLinks (p : MemPool T) (entry : Option Nat) : Except Fault (MemPool T) := do
  let p ← p.modify entry (L.setNext none)
  p.modify entry (L.setPrev none)

/-! ## 2. What a link write changes -/

/-- The forward link of a slot. -/
def nx (p : MemPool T) (a : Nat) : Option Nat := (p.object? a).bind L.next

/-- The backward link of a slot. -/
def pv (p : MemPool T) (a : Nat) : Option Nat := (p.object? a).bind L.prev

/-- The object of a slot without its links. -/
def core (p : MemPool T) (a : Nat) : Option T := (p.object? a).map L.bare

/-- `p'` is `p` with the link maps `nx` and `pv`. -/
structure Relinked (p p' : MemPool T) (live : List Nat) (nx pv : Nat → Option Nat) : Prop where
  inv : p'.Inv live
  capacity : p'.capacity = p.capacity
  nx_eq : L.nx p' = nx
  pv_eq : L.pv p' = pv
  core_eq : ∀ b, L.core p' b = L.core p b

variable {L} {p p' p'' : MemPool T} {live : List Nat} {a : Nat}

theorem nx_of_object {v : T} (h : p.object? a = some v) : L.nx p a = L.next v := by simp [nx, h]
theorem pv_of_object {v : T} (h : p.object? a = some v) : L.pv p a = L.prev v := by simp [pv, h]

theorem Relinked.refl (h : p.Inv live) : L.Relinked p p live (L.nx p) (L.pv p) :=
  ⟨h, rfl, rfl, rfl, fun _ => rfl⟩

theorem Relinked.trans {n v n' v' : Nat → Option Nat} (h : L.Relinked p p' live n v)
    (h' : L.Relinked p' p'' live n' v') : L.Relinked p p'' live n' v' :=
  ⟨h'.inv, h'.capacity.trans h.capacity, h'.nx_eq, h'.pv_eq,
    fun b => (h'.core_eq b).trans (h.core_eq b)⟩

/-- An object whose links were rewritten is otherwise what it was. -/
theorem object_of_core {v : T} (hcore : L.core p' a = L.core p a) (hv : p.object? a = some v) :
    ∃ v', p'.object? a = some v' ∧ L.bare v' = L.bare v := by
  rw [core, core, hv] at hcore
  obtain ⟨v', hv', hbare⟩ := Option.map_eq_some_iff.mp hcore
  exact ⟨v', hv', hbare⟩

theorem Relinked.object {n v : Nat → Option Nat} {x : T} (h : L.Relinked p p' live n v)
    (hx : p.object? a = some x) : ∃ x', p'.object? a = some x' ∧ L.bare x' = L.bare x :=
  object_of_core (h.core_eq a) hx

theorem nx_congr {b : Nat} (h : p'.object? b = p.object? b) : L.nx p' b = L.nx p b := by
  rw [nx, nx, h]

theorem pv_congr {b : Nat} (h : p'.object? b = p.object? b) : L.pv p' b = L.pv p b := by
  rw [pv, pv, h]

theorem read_next (h : p.Inv live) (ha : a ∈ live) : p.read (some a) L.next = .ok (L.nx p a) := by
  obtain ⟨v, hv⟩ := h.objects a ha
  simp [MemPool.read, MemPool.deref_some hv, nx_of_object hv]

theorem read_prev (h : p.Inv live) (ha : a ∈ live) : p.read (some a) L.prev = .ok (L.pv p a) := by
  obtain ⟨v, hv⟩ := h.objects a ha
  simp [MemPool.read, MemPool.deref_some hv, pv_of_object hv]

/-- Writing a forward link. -/
theorem modify_setNext (h : p.Inv live) (ha : a ∈ live) (target : Option Nat) :
    ∃ p', p.modify (some a) (L.setNext target) = .ok p' ∧
      L.Relinked p p' live (Function.update (L.nx p) a target) (L.pv p) := by
  obtain ⟨v, hv⟩ := h.objects a ha
  have hobj : ∀ b, (p.put a (L.setNext target v)).object? b =
      if b = a then some (L.setNext target v) else p.object? b := fun b => MemPool.object?_put
  refine ⟨_, MemPool.modify_some hv, h.put ha, rfl, ?_, ?_, fun b => ?_⟩
  · funext b
    rw [Function.update_apply, nx, hobj]
    split
    · exact L.next_setNext _ _
    · rfl
  · funext b
    rw [pv, hobj]
    split
    · next hb => rw [hb, pv_of_object hv]; exact L.prev_setNext _ _
    · rfl
  · rw [core, hobj, core]
    split
    · next hb => rw [hb, hv]; exact congrArg some (L.bare_setNext _ _)
    · rfl

/-- Writing a backward link. -/
theorem modify_setPrev (h : p.Inv live) (ha : a ∈ live) (target : Option Nat) :
    ∃ p', p.modify (some a) (L.setPrev target) = .ok p' ∧
      L.Relinked p p' live (L.nx p) (Function.update (L.pv p) a target) := by
  obtain ⟨v, hv⟩ := h.objects a ha
  have hobj : ∀ b, (p.put a (L.setPrev target v)).object? b =
      if b = a then some (L.setPrev target v) else p.object? b := fun b => MemPool.object?_put
  refine ⟨_, MemPool.modify_some hv, h.put ha, rfl, ?_, ?_, fun b => ?_⟩
  · funext b
    rw [nx, hobj]
    split
    · next hb => rw [hb, nx_of_object hv]; exact L.next_setPrev _ _
    · rfl
  · funext b
    rw [Function.update_apply, pv, hobj]
    split
    · exact L.prev_setPrev _ _
    · rfl
  · rw [core, hobj, core]
    split
    · next hb => rw [hb, hv]; exact congrArg some (L.bare_setPrev _ _)
    · rfl

/-! ## 3. The assignments on a ring -/

section Rings

variable {q : List Nat} {e t : Nat}

/-- Linking a cell to itself makes a ring of one. -/
theorem linkToSelf_spec (h : p.Inv live) (he : e ∈ live) :
    ∃ p' n v, L.linkToSelf p (some e) = .ok p' ∧ L.Relinked p p' live n v ∧
      Links.Ring n v [e] ∧ (∀ x, x ≠ e → n x = L.nx p x ∧ v x = L.pv p x) := by
  obtain ⟨p₁, hp₁, hr₁⟩ := modify_setNext (L := L) h he (some e)
  obtain ⟨p₂, hp₂, hr₂⟩ := modify_setPrev (L := L) hr₁.inv he (some e)
  rw [hr₁.nx_eq, hr₁.pv_eq] at hr₂
  refine ⟨p₂, _, _, ?_, hr₁.trans hr₂, Links.Ring.singleton_iff.mpr ⟨?_, ?_⟩, fun x hx => ?_⟩
  · simp only [linkToSelf, hp₁, ok_bind, hp₂]
  · simp
  · simp
  · simp [hx]

/-- The link maps after a cell `e` has been linked in between the last and the first cell. -/
theorem ring_insert {n v n' v' : Nat → Option Nat} (hring : Links.Ring n v q) (hnd : q.Nodup)
    {z : Nat} (hz : q.getLast? = some z) (ht : q.head? = some t) (heq : e ∉ q)
    (hn : n' = Function.update (Function.update n e (some t)) z (some e))
    (hv : v' = Function.update (Function.update v e (some z)) t (some e)) :
    Links.Ring n' v' (q ++ [e]) := by
  have hzq : z ∈ q := List.mem_of_getLast? hz
  have htq : t ∈ q := List.mem_of_head? ht
  have hne : ∀ x ∈ q, x ≠ e := fun x hx h => heq (h ▸ hx)
  refine hring.snoc hnd ?_ ?_ ?_ ?_
  · intro x hx
    rw [hn, Function.update_apply, Function.update_of_ne (hne x hx), hz]
    simp [eq_comm]
  · intro x hx
    rw [hv, Function.update_apply, Function.update_of_ne (hne x hx), ht]
    simp [eq_comm]
  · rw [hn, Function.update_of_ne (Ne.symm (hne z hzq)), Function.update_self]
    simp [List.head?_append, ht]
  · rw [hv, Function.update_of_ne (Ne.symm (hne t htq)), Function.update_self]
    cases q with
    | nil => simp at hz
    | cons c s => rw [List.getLast?_cons_cons, hz]

/-- The links of the end cells of a ring. -/
theorem ring_ends {n v : Nat → Option Nat} (hring : Links.Ring n v q) {z : Nat}
    (hz : q.getLast? = some z) (ht : q.head? = some t) : n z = some t ∧ v t = some z := by
  constructor
  · obtain ⟨l, rfl⟩ : ∃ l, q = l ++ [z] :=
      ⟨q.dropLast, (List.dropLast_append_getLast? z hz).symm⟩
    have := (Links.seg_append.mp hring).2.2.1
    simpa [ht] using this
  · cases q with
    | nil => simp at ht
    | cons c s =>
      obtain rfl : c = t := by simpa using ht
      exact hring.1.trans hz

/-- **Inserting before the first cell** puts the new cell at the end of the ring. -/
theorem insertBefore_spec (h : p.Inv live) (hsub : ∀ x ∈ q, x ∈ live) (he : e ∈ live)
    (heq : e ∉ q) (hnd : q.Nodup) (ht : q.head? = some t)
    (hring : Links.Ring (L.nx p) (L.pv p) q) :
    ∃ p' n v, L.insertBefore p (some e) (some t) = .ok p' ∧ L.Relinked p p' live n v ∧
      Links.Ring n v (q ++ [e]) ∧
      (∀ x, x ≠ e → x ∉ q → n x = L.nx p x ∧ v x = L.pv p x) := by
  have htq : t ∈ q := List.mem_of_head? ht
  obtain ⟨z, hz⟩ : ∃ z, q.getLast? = some z :=
    Option.ne_none_iff_exists'.mp (by simpa using List.ne_nil_of_mem htq)
  have hzq : z ∈ q := List.mem_of_getLast? hz
  have hte : t ≠ e := fun h => heq (h ▸ htq)
  have hpvt := (ring_ends hring hz ht).2
  obtain ⟨p₁, hp₁, hr₁⟩ := modify_setPrev (L := L) h he (some z)
  obtain ⟨p₂, hp₂, hr₂⟩ := modify_setNext (L := L) hr₁.inv he (some t)
  obtain ⟨p₃, hp₃, hr₃⟩ := modify_setNext (L := L) hr₂.inv (hsub z hzq) (some e)
  obtain ⟨p₄, hp₄, hr₄⟩ := modify_setPrev (L := L) hr₃.inv (hsub t htq) (some e)
  have hpv₂ : L.pv p₂ t = some z := by
    rw [hr₂.pv_eq, hr₁.pv_eq, Function.update_of_ne hte, hpvt]
  rw [hr₃.nx_eq, hr₂.nx_eq, hr₁.nx_eq, hr₃.pv_eq, hr₂.pv_eq, hr₁.pv_eq] at hr₄
  refine ⟨p₄, _, _, ?_, ((hr₁.trans hr₂).trans hr₃).trans hr₄,
    ring_insert hring hnd hz ht heq rfl rfl, fun x hxe hxq => ?_⟩
  · simp only [insertBefore, read_prev h (hsub t htq), hpvt, ok_bind, hp₁, hp₂,
      read_prev hr₂.inv (hsub t htq), hpv₂, hp₃, hp₄]
  · have hxz : x ≠ z := fun h => hxq (h ▸ hzq)
    have hxt : x ≠ t := fun h => hxq (h ▸ htq)
    simp [hxe, hxz, hxt]

/-- **Appending to a queue** puts the new cell at the end of the ring as well. -/
theorem append_spec (h : p.Inv live) (hsub : ∀ x ∈ q, x ∈ live) (he : e ∈ live)
    (heq : e ∉ q) (hnd : q.Nodup) (ht : q.head? = some t)
    (hring : Links.Ring (L.nx p) (L.pv p) q) :
    ∃ p' n v, L.append p (some e) (some t) = .ok p' ∧ L.Relinked p p' live n v ∧
      Links.Ring n v (q ++ [e]) ∧
      (∀ x, x ≠ e → x ∉ q → n x = L.nx p x ∧ v x = L.pv p x) := by
  have htq : t ∈ q := List.mem_of_head? ht
  obtain ⟨z, hz⟩ : ∃ z, q.getLast? = some z :=
    Option.ne_none_iff_exists'.mp (by simpa using List.ne_nil_of_mem htq)
  have hzq : z ∈ q := List.mem_of_getLast? hz
  have hze : z ≠ e := fun h => heq (h ▸ hzq)
  have hpvt := (ring_ends hring hz ht).2
  obtain ⟨p₁, hp₁, hr₁⟩ := modify_setNext (L := L) h (hsub z hzq) (some e)
  obtain ⟨p₂, hp₂, hr₂⟩ := modify_setPrev (L := L) hr₁.inv he (some z)
  obtain ⟨p₃, hp₃, hr₃⟩ := modify_setNext (L := L) hr₂.inv he (some t)
  obtain ⟨p₄, hp₄, hr₄⟩ := modify_setPrev (L := L) hr₃.inv (hsub t htq) (some e)
  have hpv₁ : L.pv p₁ t = some z := by rw [hr₁.pv_eq, hpvt]
  rw [hr₃.nx_eq, hr₂.nx_eq, hr₁.nx_eq, hr₃.pv_eq, hr₂.pv_eq, hr₁.pv_eq,
    Function.update_comm hze] at hr₄
  refine ⟨p₄, _, _, ?_, ((hr₁.trans hr₂).trans hr₃).trans hr₄,
    ring_insert hring hnd hz ht heq rfl rfl, fun x hxe hxq => ?_⟩
  · simp only [append, read_prev h (hsub t htq), hpvt, ok_bind, hp₁,
      read_prev hr₁.inv (hsub t htq), hpv₁, hp₂, hp₃, hp₄]
  · have hxz : x ≠ z := fun h => hxq (h ▸ hzq)
    have hxt : x ≠ t := fun h => hxq (h ▸ htq)
    simp [hxe, hxz, hxt]

/-- **Inserting after the last cell** puts the new cell at the end of the ring too. -/
theorem insertAfter_spec (h : p.Inv live) (hsub : ∀ x ∈ q, x ∈ live) (he : e ∈ live)
    (heq : e ∉ q) (hnd : q.Nodup) {z : Nat} (hz : q.getLast? = some z)
    (hring : Links.Ring (L.nx p) (L.pv p) q) :
    ∃ p' n v, L.insertAfter p (some e) (some z) = .ok p' ∧ L.Relinked p p' live n v ∧
      Links.Ring n v (q ++ [e]) ∧
      (∀ x, x ≠ e → x ∉ q → n x = L.nx p x ∧ v x = L.pv p x) := by
  have hzq : z ∈ q := List.mem_of_getLast? hz
  obtain ⟨t, ht⟩ : ∃ t, q.head? = some t :=
    Option.ne_none_iff_exists'.mp (by simpa using List.ne_nil_of_mem hzq)
  have htq : t ∈ q := List.mem_of_head? ht
  have hnxz := (ring_ends hring hz ht).1
  obtain ⟨p₁, hp₁, hr₁⟩ := modify_setPrev (L := L) h he (some z)
  obtain ⟨p₂, hp₂, hr₂⟩ := modify_setPrev (L := L) hr₁.inv (hsub t htq) (some e)
  obtain ⟨p₃, hp₃, hr₃⟩ := modify_setNext (L := L) hr₂.inv he (some t)
  obtain ⟨p₄, hp₄, hr₄⟩ := modify_setNext (L := L) hr₃.inv (hsub z hzq) (some e)
  have hnx₁ : L.nx p₁ z = some t := by rw [hr₁.nx_eq, hnxz]
  have hnx₂ : L.nx p₂ z = some t := by rw [hr₂.nx_eq, hnx₁]
  rw [hr₃.nx_eq, hr₂.nx_eq, hr₁.nx_eq, hr₃.pv_eq, hr₂.pv_eq, hr₁.pv_eq] at hr₄
  refine ⟨p₄, _, _, ?_, ((hr₁.trans hr₂).trans hr₃).trans hr₄,
    ring_insert hring hnd hz ht heq rfl rfl, fun x hxe hxq => ?_⟩
  · simp only [insertAfter, hp₁, ok_bind, read_next hr₁.inv (hsub z hzq), hnx₁, hp₂,
      read_next hr₂.inv (hsub z hzq), hnx₂, hp₃, hp₄]
  · have hxz : x ≠ z := fun h => hxq (h ▸ hzq)
    have hxt : x ≠ t := fun h => hxq (h ▸ htq)
    simp [hxe, hxz, hxt]

/-- **Unlinking a cell** that is not alone, and clearing its links. -/
theorem unlink_spec (h : p.Inv live) (hsub : ∀ x ∈ e :: q, x ∈ live) (hnd : (e :: q).Nodup)
    (hne : q ≠ []) (hring : Links.Ring (L.nx p) (L.pv p) (e :: q)) :
    ∃ p₁ p' n v, L.unlink p (some e) = .ok p₁ ∧ L.bypass p (L.pv p e) (L.nx p e) = .ok p₁ ∧
      L.clearLinks p₁ (some e) = .ok p' ∧ L.Relinked p p₁ live n v ∧
      L.Relinked p p' live (Function.update n e none) (Function.update v e none) ∧
      Links.Ring n v q ∧ (∀ x, x ∉ q → n x = L.nx p x ∧ v x = L.pv p x) := by
  obtain ⟨z, hz⟩ : ∃ z, q.getLast? = some z := Option.ne_none_iff_exists'.mp (by simpa using hne)
  obtain ⟨t, ht⟩ : ∃ t, q.head? = some t := Option.ne_none_iff_exists'.mp (by simpa using hne)
  have hzq : z ∈ q := List.mem_of_getLast? hz
  have htq : t ∈ q := List.mem_of_head? ht
  have heq : e ∉ q := (List.nodup_cons.mp hnd).1
  have hze : z ≠ e := fun h => heq (h ▸ hzq)
  have hte : t ≠ e := fun h => heq (h ▸ htq)
  have hlive : ∀ x ∈ q, x ∈ live := fun x hx => hsub x (List.mem_cons_of_mem _ hx)
  have helive : e ∈ live := hsub e (by simp)
  have hpve : L.pv p e = some z := (hring.links_head hne).1.trans hz
  have hnxe : L.nx p e = some t := (hring.links_head hne).2.trans ht
  obtain ⟨p₁, hp₁, hr₁⟩ := modify_setNext (L := L) h (hlive z hzq) (some t)
  obtain ⟨p₂, hp₂, hr₂⟩ := modify_setPrev (L := L) hr₁.inv (hlive t htq) (some z)
  obtain ⟨p₃, hp₃, hr₃⟩ := modify_setNext (L := L) hr₂.inv helive none
  obtain ⟨p₄, hp₄, hr₄⟩ := modify_setPrev (L := L) hr₃.inv helive none
  have hnx₁ : L.nx p₁ e = some t := by rw [hr₁.nx_eq, Function.update_of_ne (Ne.symm hze), hnxe]
  have hpv₁ : L.pv p₁ e = some z := by rw [hr₁.pv_eq, hpve]
  rw [hr₁.nx_eq, hr₁.pv_eq] at hr₂
  rw [hr₃.nx_eq, hr₃.pv_eq, hr₂.nx_eq, hr₂.pv_eq] at hr₄
  refine ⟨p₂, p₄, _, _, ?_, ?_, ?_, hr₁.trans hr₂, ((hr₁.trans hr₂).trans hr₃).trans hr₄, ?_,
    fun x hxq => ?_⟩
  · simp only [unlink, read_prev h helive, hpve, read_next h helive, hnxe, ok_bind, hp₁,
      read_next hr₁.inv helive, hnx₁, read_prev hr₁.inv helive, hpv₁, hp₂]
  · simp only [bypass, hpve, hnxe, hp₁, ok_bind, hp₂]
  · simp only [clearLinks, hp₃, ok_bind, hp₄]
  · refine hring.tail (List.nodup_cons.mp hnd).2 (fun x hx => ?_) (fun x hx => ?_)
    · rw [Function.update_apply, hz, ht]
      simp [eq_comm]
    · rw [Function.update_apply, hz, ht]
      simp [eq_comm]
  · have hxz : x ≠ z := fun h => hxq (h ▸ hzq)
    have hxt : x ≠ t := fun h => hxq (h ▸ htq)
    simp [hxz, hxt]

end Rings

end LinkFields

end YQuant
