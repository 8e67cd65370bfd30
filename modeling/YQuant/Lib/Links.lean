/-
# Segments of doubly linked cells

A pointer structure is read here through two partial maps, `nx` and `pv`: the forward and the
backward link of a cell, `none` for null.  `Seg nx pv p q n` says that the cells `q` are linked
both ways in that order, that the first one points back to `p` and the last one forward to
`n`.  Both shapes a program usually builds from such cells are instances:

* `Chain`, the list with null ends, held by a head and a tail pointer;
* `Ring`, the circular list, whose last cell points to its first and back.

An update of the program rewrites the links of a few cells.  `Seg.reanchor` is the one
induction: a segment whose two outer links were redirected is a segment between the new
neighbours.  Insertion and removal in either shape are then a split of the list
(`seg_append`) and `Seg.reanchor` on the pieces.

Walking is bounded by a number of cells, so that it is a total function; `Seg.walk_eq` and
`Ring.walkRing_eq` say that a bound as long as the list is enough, and that the walk stops at the
null end, or when it is back where it began, and not before.

* `Chain.snoc`, `Chain.remove`: a new tail, and a cell taken out anywhere;
* `Ring.snoc`, `Ring.tail`, `Ring.rotate`: a new cell before the head, the head taken out, and
  another cell as the head.

Cells are any type with decidable equality.  What else is stored in a cell, and whether a link is a
pointer or an index, is a matter of the program.
-/
import Mathlib.Data.List.Basic
import Mathlib.Data.List.Nodup
import Mathlib.Tactic.Common

namespace Links

variable {α : Type}

/-! ## 1. Segments -/

/-- The cells `q` are linked both ways in this order, from `p` on the left to `n` on the
right. -/
def Seg (nx pv : α → Option α) : Option α → List α → Option α → Prop
  | _, [], _ => True
  | p, a :: q, n => pv a = p ∧ nx a = q.head?.or n ∧ Seg nx pv (some a) q n

@[simp] theorem seg_nil (nx pv : α → Option α) (p n : Option α) : Seg nx pv p [] n := trivial

theorem seg_cons {nx pv : α → Option α} {p n : Option α} {a : α} {q : List α} :
    Seg nx pv p (a :: q) n ↔ pv a = p ∧ nx a = q.head?.or n ∧ Seg nx pv (some a) q n :=
  Iff.rfl

/-- **A segment splits anywhere**: each half sees the end of the other one as its
neighbour. -/
theorem seg_append {nx pv : α → Option α} {n : Option α} {r : List α} :
    ∀ {p : Option α} {l : List α}, Seg nx pv p (l ++ r) n ↔
      Seg nx pv p l (r.head?.or n) ∧ Seg nx pv (l.getLast?.or p) r n
  | p, [] => by simp
  | p, [a] => by
    change (pv a = p ∧ nx a = r.head?.or n ∧ Seg nx pv (some a) r n) ↔ _
    simp [seg_cons, and_assoc]
  | p, a :: b :: l => by
    have ih : Seg nx pv (some a) (b :: l ++ r) n ↔ Seg nx pv (some a) (b :: l) (r.head?.or n) ∧
        Seg nx pv ((b :: l).getLast?.or (some a)) r n := seg_append
    rw [List.cons_append, seg_cons, ih, seg_cons]
    simp only [List.cons_append, List.head?_cons, Option.some_or, and_assoc,
      List.getLast?_cons_cons]
    cases h : (b :: l).getLast? with
    | none => simp at h
    | some x => simp [seg_cons, and_assoc]

/-- A segment only reads the links of its own cells. -/
theorem Seg.congr {nx pv nx' pv' : α → Option α} :
    ∀ {p n : Option α} {q : List α}, Seg nx pv p q n →
      (∀ a ∈ q, nx' a = nx a ∧ pv' a = pv a) → Seg nx' pv' p q n
  | _, _, [], _, _ => trivial
  | _, _, a :: q, ⟨h1, h2, h3⟩, hag =>
    ⟨(hag a (by simp)).2.trans h1, (hag a (by simp)).1.trans h2,
      h3.congr fun x hx => hag x (by simp [hx])⟩

/-- **Redirecting the outer links.**  Write `n'` into the forward link of the last cell and
`p'` into the backward link of the first one: the segment now lies between `p'` and `n'`. -/
theorem Seg.reanchor [DecidableEq α] {nx pv nx' pv' : α → Option α} {p' n' : Option α} :
    ∀ {p n : Option α} {q : List α}, Seg nx pv p q n → q.Nodup →
      (∀ x ∈ q, nx' x = if q.getLast? = some x then n' else nx x) →
      (∀ x ∈ q, pv' x = if q.head? = some x then p' else pv x) → Seg nx' pv' p' q n'
  | _, _, [], _, _, _, _ => trivial
  | p, n, [a], _, _, hn, hp => by
    refine ⟨?_, ?_, trivial⟩
    · simpa using hp a (by simp)
    · simpa using hn a (by simp)
  | p, n, a :: b :: q, ⟨_, h2, h3⟩, hnd, hn, hp => by
    have hnd' := List.nodup_cons.mp hnd
    have hlast : (a :: b :: q).getLast? = (b :: q).getLast? := List.getLast?_cons_cons
    refine ⟨by simpa using hp a (by simp), ?_, ?_⟩
    · -- `a` is not the last cell, so its forward link is untouched
      have hne : (b :: q).getLast? ≠ some a := fun h => hnd'.1 (List.mem_of_getLast? h)
      rw [hn a (by simp), hlast, if_neg hne, h2]
      rfl
    · -- the backward link of `b` was, and stays, `a`
      refine (Seg.reanchor h3 hnd'.2 ?_ ?_ : Seg nx' pv' (some a) (b :: q) n')
      · intro x hx
        rw [hn x (List.mem_cons_of_mem _ hx), hlast]
      · intro x hx
        have hxa : x ≠ a := fun e => hnd'.1 (e ▸ hx)
        rw [hp x (List.mem_cons_of_mem _ hx)]
        simp only [List.head?_cons, Option.some.injEq, if_neg (Ne.symm hxa)]
        split
        · next hbx => rw [← hbx]; exact h3.1
        · rfl

/-- At most `n` cells reached from `first` along the forward links. -/
def walk (nx : α → Option α) : Nat → Option α → List α
  | 0, _ => []
  | _ + 1, none => []
  | n + 1, some a => a :: walk nx n (nx a)

/-- **Walking along a segment** that ends in null visits exactly its cells. -/
theorem Seg.walk_eq {nx pv : α → Option α} :
    ∀ {q : List α} {p : Option α} {n : Nat}, Seg nx pv p q none → q.length ≤ n →
      walk nx n q.head? = q
  | [], _, 0, _, _ => rfl
  | [], _, _ + 1, _, _ => rfl
  | a :: q, _, n + 1, ⟨_, hnext, hrest⟩, hle => by
    have ih := hrest.walk_eq (Nat.le_of_succ_le_succ hle)
    rw [Option.or_none] at hnext
    rw [List.head?_cons, walk, hnext, ih]

/-! ## 2. Null-terminated lists -/

/-- A list with null ends, held by the pointers `first` and `last`. -/
def Chain (nx pv : α → Option α) (first last : Option α) (q : List α) : Prop :=
  first = q.head? ∧ last = q.getLast? ∧ Seg nx pv none q none

namespace Chain

variable {nx pv nx' pv' : α → Option α} {first last : Option α} {q l r : List α} {a : α}

theorem nil : Chain nx pv none none [] := ⟨rfl, rfl, trivial⟩

theorem congr (h : Chain nx pv first last q) (hag : ∀ x ∈ q, nx' x = nx x ∧ pv' x = pv x) :
    Chain nx' pv' first last q :=
  ⟨h.1, h.2.1, h.2.2.congr hag⟩

/-- The links of a cell in the middle are its neighbours. -/
theorem links_mid (h : Chain nx pv first last (l ++ a :: r)) :
    pv a = l.getLast? ∧ nx a = r.head? := by
  obtain ⟨-, h2⟩ := seg_append.mp h.2.2
  exact ⟨by simpa using h2.1, by simpa using h2.2.1⟩

/-- **Appending a cell at the tail.** -/
theorem snoc [DecidableEq α] (h : Chain nx pv first last q) (hnd : q.Nodup)
    (hn : ∀ x ∈ q, nx' x = if q.getLast? = some x then some a else nx x)
    (hp : ∀ x ∈ q, pv' x = pv x) (hna : nx' a = none) (hpa : pv' a = last) :
    Chain nx' pv' (q ++ [a]).head? (some a) (q ++ [a]) := by
  refine ⟨rfl, by simp, seg_append.mpr ⟨?_, ?_⟩⟩
  · refine h.2.2.reanchor hnd (by simpa using hn) ?_
    intro x hx
    rw [hp x hx]
    split
    · next hh =>
      cases q with
      | nil => simp at hx
      | cons b t =>
        have hb : b = x := by simpa using hh
        rw [← hb]
        exact h.2.2.1
    · rfl
  · exact ⟨by rw [hpa, h.2.1, Option.or_none], by simpa using hna, trivial⟩

/-- **Unlinking a cell anywhere.**  Its left neighbour now points to its right one and
back. -/
theorem remove [DecidableEq α] (h : Chain nx pv first last (l ++ a :: r))
    (hnd : (l ++ a :: r).Nodup)
    (hn : ∀ x ∈ l ++ r, nx' x = if l.getLast? = some x then nx a else nx x)
    (hp : ∀ x ∈ l ++ r, pv' x = if r.head? = some x then pv a else pv x) :
    Chain nx' pv' (l ++ r).head? (l ++ r).getLast? (l ++ r) := by
  obtain ⟨hl, hr⟩ := seg_append.mp h.2.2
  obtain ⟨hpa, hna⟩ := h.links_mid
  have hndl : l.Nodup := (List.nodup_append.mp hnd).1
  have hndr : (a :: r).Nodup := (List.nodup_append.mp hnd).2.1
  have hdis : ∀ x ∈ l, x ∉ a :: r := fun x hx hx' =>
    (List.nodup_append.mp hnd).2.2 x hx x hx' rfl
  refine ⟨rfl, rfl, seg_append.mpr ⟨?_, ?_⟩⟩
  · refine hl.reanchor hndl ?_ ?_
    · intro x hx
      rw [hn x (List.mem_append_left _ hx), hna, Option.or_none]
    · intro x hx
      have hne : r.head? ≠ some x := fun e =>
        hdis x hx (List.mem_cons_of_mem _ (List.mem_of_head? e))
      rw [hp x (List.mem_append_left _ hx), if_neg hne]
      split
      · next hh =>
        cases l with
        | nil => simp at hx
        | cons b t =>
          have hb : b = x := by simpa using hh
          rw [← hb]
          exact hl.1
      · rfl
  · refine hr.2.2.reanchor (List.nodup_cons.mp hndr).2 ?_ ?_
    · intro x hx
      have hne : l.getLast? ≠ some x := fun e =>
        hdis x (List.mem_of_getLast? e) (List.mem_cons_of_mem _ hx)
      rw [hn x (List.mem_append_right _ hx), if_neg hne]
      split
      · next hh =>
        obtain ⟨s, hs⟩ := List.getLast?_eq_some_iff.mp hh
        have := (seg_append (l := s) (r := [x])).mp (hs ▸ hr.2.2)
        simpa using this.2.2.1
      · rfl
    · intro x hx
      rw [hp x (List.mem_append_right _ hx), hpa, Option.or_none]

end Chain

/-! ## 3. Circular lists -/

/-- A circular list, named by its cells from the head on. -/
def Ring (nx pv : α → Option α) (q : List α) : Prop := Seg nx pv q.getLast? q q.head?

namespace Ring

variable {nx pv nx' pv' : α → Option α} {q l r : List α} {a b : α}

theorem congr (h : Ring nx pv q) (hag : ∀ x ∈ q, nx' x = nx x ∧ pv' x = pv x) :
    Ring nx' pv' q :=
  Seg.congr h hag

/-- A single cell is linked to itself. -/
theorem singleton_iff : Ring nx pv [a] ↔ pv a = some a ∧ nx a = some a := by
  simp [Ring, seg_cons]

/-- The head is only a name: any cell of the ring can be called first. -/
theorem rotate (h : Ring nx pv (l ++ r)) : Ring nx pv (r ++ l) := by
  obtain ⟨hl, hr⟩ := seg_append.mp h
  refine seg_append.mpr ⟨?_, ?_⟩
  · cases r with
    | nil => exact trivial
    | cons b t =>
      cases l with
      | nil => simpa using hr
      | cons c s =>
        have hlast : ((c :: s) ++ (b :: t)).getLast? = (b :: t).getLast? := by
          rw [List.getLast?_append]; cases h : (b :: t).getLast? <;> simp_all
        have hlast' : ((b :: t) ++ (c :: s)).getLast? = (c :: s).getLast? := by
          rw [List.getLast?_append]; cases h : (c :: s).getLast? <;> simp_all
        rw [hlast']
        have hor : (c :: s).getLast?.or ((c :: s) ++ (b :: t)).getLast?
            = (c :: s).getLast? := by
          cases h : (c :: s).getLast? <;> simp_all
        rw [hor] at hr
        simpa using hr
  · cases l with
    | nil => exact trivial
    | cons c s =>
      cases r with
      | nil => simpa using hl
      | cons b t =>
        have hlast : ((c :: s) ++ (b :: t)).getLast? = (b :: t).getLast? := by
          rw [List.getLast?_append]; cases h : (b :: t).getLast? <;> simp_all
        rw [hlast] at hl
        have hor : (b :: t).getLast?.or ((b :: t) ++ (c :: s)).getLast?
            = (b :: t).getLast? := by
          cases h : (b :: t).getLast? <;> simp_all
        rw [hor]
        simpa using hl

/-- The links of a cell that is not alone are its neighbours. -/
theorem links_head (h : Ring nx pv (a :: q)) (hne : q ≠ []) :
    pv a = q.getLast? ∧ nx a = q.head? := by
  obtain ⟨c, s, rfl⟩ := List.exists_cons_of_ne_nil hne
  exact ⟨h.1.trans List.getLast?_cons_cons, h.2.1⟩

/-- A cell that is not alone is not linked to itself. -/
theorem links_ne_self (h : Ring nx pv (a :: q)) (hne : q ≠ []) (hnd : (a :: q).Nodup) :
    pv a ≠ some a ∧ nx a ≠ some a := by
  have ha : a ∉ q := (List.nodup_cons.mp hnd).1
  obtain ⟨hp, hn⟩ := h.links_head hne
  rw [hp, hn]
  exact ⟨fun hlast => ha (List.mem_of_getLast? hlast), fun hhead => ha (List.mem_of_head? hhead)⟩

/-- **Linking a cell in before the head**, that is at the end of the ring. -/
theorem snoc [DecidableEq α] (h : Ring nx pv q) (hnd : q.Nodup)
    (hn : ∀ x ∈ q, nx' x = if q.getLast? = some x then some b else nx x)
    (hp : ∀ x ∈ q, pv' x = if q.head? = some x then some b else pv x)
    (hnb : nx' b = (q ++ [b]).head?) (hpb : pv' b = (b :: q).getLast?) :
    Ring nx' pv' (q ++ [b]) := by
  refine seg_append.mpr ⟨?_, ?_⟩
  · refine Seg.reanchor h hnd (by simpa using hn) (by simpa using hp)
  · refine ⟨?_, by simpa using hnb, trivial⟩
    rw [hpb]
    cases q with
    | nil => simp
    | cons c s =>
      rw [List.getLast?_cons_cons]
      cases h : (c :: s).getLast? <;> simp_all

/-- **Unlinking the head.** -/
theorem tail [DecidableEq α] (h : Ring nx pv (a :: q)) (hnd : q.Nodup)
    (hn : ∀ x ∈ q, nx' x = if q.getLast? = some x then q.head? else nx x)
    (hp : ∀ x ∈ q, pv' x = if q.head? = some x then q.getLast? else pv x) :
    Ring nx' pv' q :=
  Seg.reanchor (seg_cons.mp h).2.2 hnd hn hp

end Ring

/-- At most `n` cells of a circular list, from `first` on until the links are back at it. -/
def walkRing [DecidableEq α] (nx : α → Option α) (n : Nat) (first : Option α) : List α :=
  walk (fun a => if nx a = first then none else nx a) n first

/-- A segment that ends at a cell outside it can be cut there. -/
theorem Seg.cut [DecidableEq α] {nx pv : α → Option α} {b : α} :
    ∀ {q : List α} {p : Option α}, Seg nx pv p q (some b) → b ∉ q.tail →
      Seg (fun a => if nx a = some b then none else nx a) pv p q none
  | [], _, _, _ => trivial
  | [a], _, ⟨hp, hn, _⟩, _ => ⟨hp, if_pos hn, trivial⟩
  | a :: c :: q, _, ⟨hp, hn, hrest⟩, hb => by
    have hne : nx a ≠ some b := by
      rw [hn]
      intro h
      exact hb (Option.some.inj h ▸ List.mem_cons_self)
    refine ⟨hp, (if_neg hne).trans hn, Seg.cut hrest fun hmem => hb ?_⟩
    exact List.mem_cons_of_mem _ hmem

/-- **Walking around a circular list** visits exactly its cells. -/
theorem Ring.walkRing_eq [DecidableEq α] {nx pv : α → Option α} {q : List α} {n : Nat}
    (h : Ring nx pv q) (hnd : q.Nodup) (hlen : q.length ≤ n) : walkRing nx n q.head? = q := by
  cases q with
  | nil => cases n <;> rfl
  | cons a q => exact (Seg.cut h (List.nodup_cons.mp hnd).1).walk_eq hlen

end Links
