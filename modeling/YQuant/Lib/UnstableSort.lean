/-
# Sorting by a key without stability

The contract of a sort by a key that is not stable: its output is some permutation of its input
along which the key does not decrease.  An element is known by its position in the input, so equal
elements are told apart.

Whether such a sort keeps the order within the classes of a partition is a matter of the keys alone:
it does, whichever permitted output it picks, exactly if the keys of each class strictly increase
(`keepsClasses_iff`).

The two directions need different sorts.  If the keys of each class increase, no permitted output
has a choice within a class.  If two of them do not, it is enough to name one sort that goes wrong:
`reverseTies`, which keeps the order of the keys and turns the elements of each key around.

So this is a statement about what callers may rely on and not about what a given library does: an
implementation may well keep more than its contract says, and a program that depends on it works
until the library changes.
-/
import Mathlib.Data.List.Pairwise
import Mathlib.Order.Lattice
import Mathlib.Tactic.Common

/-- A sort by `key`: `arrange` lists the elements of its input with their positions in it. -/
structure SortBy {α κ : Type} [LinearOrder κ] (key : α → κ) where
  arrange : List α → List (α × Nat)
  perm : ∀ l, (arrange l).Perm l.zipIdx
  sorted : ∀ l, (arrange l).Pairwise fun x y => key x.1 ≤ key y.1

namespace SortBy

variable {α κ γ : Type} [LinearOrder κ] {key : α → κ} {l : List α}

/-- The sorted list. -/
def sort (s : SortBy key) (l : List α) : List α := (s.arrange l).map Prod.fst

theorem sort_perm (s : SortBy key) (l : List α) : (s.sort l).Perm l := by
  have h := (s.perm l).map Prod.fst
  rwa [List.zipIdx_map_fst] at h

/-- By key, and of equal keys the later element first. -/
def lateFirst (key : α → κ) (x y : α × Nat) : Bool :=
  decide (key x.1 < key y.1 ∨ key x.1 = key y.1 ∧ y.2 ≤ x.2)

theorem lateFirst_pairwise (key : α → κ) (xs : List (α × Nat)) :
    (xs.mergeSort (lateFirst key)).Pairwise fun x y =>
      key x.1 < key y.1 ∨ key x.1 = key y.1 ∧ y.2 ≤ x.2 := by
  refine (List.pairwise_mergeSort ?_ ?_ xs).imp fun h => of_decide_eq_true h
  · intro a b c hab hbc
    simp only [decide_eq_true_eq] at hab hbc ⊢
    rcases hab with hab | ⟨hab, hab'⟩
    · rcases hbc with hbc | ⟨hbc, -⟩
      · exact .inl (lt_trans hab hbc)
      · exact .inl (hbc ▸ hab)
    · rcases hbc with hbc | ⟨hbc, hbc'⟩
      · exact .inl (hab ▸ hbc)
      · exact .inr ⟨hab.trans hbc, Nat.le_trans hbc' hab'⟩
  · intro a b
    simp only [Bool.or_eq_true, decide_eq_true_eq]
    rcases lt_trichotomy (key a.1) (key b.1) with h | h | h
    · exact .inl (.inl h)
    · rcases Nat.le_total a.2 b.2 with hle | hle
      · exact .inr (.inr ⟨h.symm, hle⟩)
      · exact .inl (.inr ⟨h, hle⟩)
    · exact .inr (.inl h)

/-- The sort that reverses the elements of each key. -/
def reverseTies (key : α → κ) : SortBy key where
  arrange l := l.zipIdx.mergeSort (lateFirst key)
  perm _ := List.mergeSort_perm _ _
  sorted l := (lateFirst_pairwise key l.zipIdx).imp fun h => h.elim le_of_lt fun h => le_of_eq h.1

/-- Of two elements of a class, the one that was first in the input comes first. -/
def KeepsClasses (s : SortBy key) (cls : α → γ) (l : List α) : Prop :=
  (s.arrange l).Pairwise fun x y => cls x.1 = cls y.1 → x.2 < y.2

theorem getElem?_of_mem (s : SortBy key) {x : α × Nat} (hx : x ∈ s.arrange l) :
    l[x.2]? = some x.1 :=
  List.mem_zipIdx_iff_getElem?.mp ((s.perm l).mem_iff.mp hx)

/-- The positions of an arrangement are distinct. -/
theorem arrange_positions (s : SortBy key) (l : List α) :
    (s.arrange l).Pairwise fun x y => x.2 ≠ y.2 := by
  have h := (s.perm l).map Prod.snd
  rw [List.zipIdx_map_snd] at h
  exact List.pairwise_map.mp (h.nodup_iff.mpr List.nodup_range')

theorem keepsClasses_of_increasing (s : SortBy key) {cls : α → γ}
    (h : l.Pairwise fun a b => cls a = cls b → key a < key b) : s.KeepsClasses cls l := by
  refine ((s.sorted l).and (s.arrange_positions l)).imp_of_mem fun {x y} hx hy hxy hcls => ?_
  refine Nat.lt_of_le_of_ne (Nat.le_of_not_lt fun hlt => ?_) hxy.2
  obtain ⟨hx', hxget⟩ := List.getElem?_eq_some_iff.mp (s.getElem?_of_mem hx)
  obtain ⟨hy', hyget⟩ := List.getElem?_eq_some_iff.mp (s.getElem?_of_mem hy)
  have hkey := List.pairwise_iff_getElem.mp h y.2 x.2 hy' hx' hlt
  rw [hxget, hyget] at hkey
  exact absurd hxy.1 (not_le_of_gt (hkey hcls.symm))

/-- The sort that reverses ties exposes two keys of a class that do not increase. -/
theorem increasing_of_keepsClasses {cls : α → γ} (h : (reverseTies key).KeepsClasses cls l) :
    l.Pairwise fun a b => cls a = cls b → key a < key b := by
  have hlate : ((reverseTies key).arrange l).Pairwise fun x y =>
      key x.1 < key y.1 ∨ key x.1 = key y.1 ∧ y.2 ≤ x.2 := lateFirst_pairwise key l.zipIdx
  -- whichever of the two comes first in the output
  have hboth : ((reverseTies key).arrange l).Pairwise fun x y => cls x.1 = cls y.1 →
      (x.2 < y.2 → key x.1 < key y.1) ∧ (y.2 < x.2 → key y.1 < key x.1) := by
    refine (h.and hlate).imp fun {x y} ⟨hkeeps, hxy⟩ hcls => ⟨fun hlt => ?_, fun hlt => ?_⟩
    · rcases hxy with hxy | ⟨-, hxy⟩
      · exact hxy
      · exact absurd hlt (Nat.not_lt.mpr hxy)
    · exact absurd hlt (Nat.lt_asymm (hkeeps hcls))
  refine List.pairwise_iff_getElem.mpr fun i j hi hj hij hcls => ?_
  have hmem : ∀ k (hk : k < l.length), (l[k], k) ∈ (reverseTies key).arrange l := fun k hk =>
    ((reverseTies key).perm l).mem_iff.mpr
      (List.mem_zipIdx_iff_getElem?.mpr (List.getElem?_eq_getElem hk))
  have hne : (l[i], i) ≠ (l[j], j) := fun heq => Nat.ne_of_lt hij (congrArg Prod.snd heq)
  have hsymm : Std.Symm fun x y : α × Nat => cls x.1 = cls y.1 →
      (x.2 < y.2 → key x.1 < key y.1) ∧ (y.2 < x.2 → key y.1 < key x.1) :=
    ⟨fun x y hxy hcls => (hxy hcls.symm).symm⟩
  exact (hboth.forall (hmem i hi) (hmem j hj) hne hcls).1 hij

/-- **A sort keeps the order within classes, whichever output it picks, if and only if the keys of
each class strictly increase.** -/
theorem keepsClasses_iff {cls : α → γ} :
    (∀ s : SortBy key, s.KeepsClasses cls l) ↔
      l.Pairwise fun a b => cls a = cls b → key a < key b :=
  ⟨fun h => increasing_of_keepsClasses (h _), fun h s => s.keepsClasses_of_increasing h⟩

end SortBy
