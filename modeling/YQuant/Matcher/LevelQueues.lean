/-
# The levels of a side are FIFO queues

`Rep s node q` relates one side of the book, in the pool whose objects are `node`, to the
queues it stands for: `q t` are the slots of the orders that rest at tick `t`, oldest first.
It collects what every operation relies on and keeps: the links of each level, the back
pointers, the aggregate quantity, the bitmap and the cached best tick.

Each operation gets one specification: `addOrder_spec` appends to a queue, `applyFill_spec`
lowers one quantity, `removeOrder_spec` takes one slot out of its queue.  They also say what
happens to the other nodes of the pool, so that the opposite side can be framed.

The specifications are equations between representations: from a side that stands for `q` they give
one that stands for the changed `q`, with the same pool but for the slots they name.  Callers never
look at links again.  A queue may not share a slot with another one (`Rep.tick_unique`), and this
is what allows one level to be changed while all others are framed (`Rep.updateLevel`).

The bitmap and the best tick change only when a level becomes occupied or vacant (`Rep.occupy`,
`Rep.vacate`).  `RemoveOrder` looks for a new best tick only if the level that it leaves vacant was
the best one, which `isBest_erase` justifies.
-/
import Mathlib.Algebra.BigOperators.Group.List.Basic
import Mathlib.Tactic.Ring
import YQuant.Lib.Links
import YQuant.Matcher.Occupancy

namespace YQuant

/-! ## 1. Views of the node pool -/

/-- The objects of the node pool, by slot. -/
abbrev Nodes := Nat → Option OrderNode

namespace Nodes

def next (node : Nodes) (a : Nat) : Option Nat := (node a).bind OrderNode.next
def prev (node : Nodes) (a : Nat) : Option Nat := (node a).bind OrderNode.prev

/-- The remaining quantity of a node. -/
def quantity (node : Nodes) (a : Nat) : Nat :=
  match node a with
  | some n => n.remainingQuantity
  | none => 0

theorem next_eq {node : Nodes} {a : Nat} {n : OrderNode} (h : node a = some n) :
    node.next a = n.next := by simp [next, h]

theorem prev_eq {node : Nodes} {a : Nat} {n : OrderNode} (h : node a = some n) :
    node.prev a = n.prev := by simp [prev, h]

theorem quantity_eq {node : Nodes} {a : Nat} {n : OrderNode} (h : node a = some n) :
    node.quantity a = n.remainingQuantity := by simp [quantity, h]

end Nodes

/-! ## 2. The representation -/

/-- One level stands for the queue `q`. -/
structure LevelRep (side : Side) (t : Nat) (level : FIFOLevel) (node : Nodes) (q : List Nat) :
    Prop where
  chain : Links.Chain node.next node.prev level.firstOrder level.lastOrder q
  nodup : q.Nodup
  owned : ∀ a ∈ q, ∃ n, node a = some n ∧ n.level = some ⟨side, t⟩
  total : level.totalQuantity = (q.map node.quantity).sum % kWord64
  reset : q = [] → level.nextPriority = 1

/-- **One side of the book stands for the queues `q`.** -/
structure PriceLevels.Rep (s : PriceLevels) (node : Nodes) (q : Nat → List Nat) : Prop where
  level : ∀ t, LevelRep s.side t (s.levels t) node (q t)
  occupied : s.OccupancyRep (fun t => q t ≠ [])
  best : PriceLevels.IsBest s.side (fun t => q t ≠ []) s.bestTick

namespace LevelRep

variable {side : Side} {t : Nat} {level : FIFOLevel} {node node' : Nodes} {q : List Nat}

/-- A level only reads the nodes of its own queue. -/
theorem congr (h : LevelRep side t level node q) (hag : ∀ a ∈ q, node' a = node a) :
    LevelRep side t level node' q where
  chain := h.chain.congr fun a ha => by simp [Nodes.next, Nodes.prev, hag a ha]
  nodup := h.nodup
  owned := fun a ha => by rw [hag a ha]; exact h.owned a ha
  total := by
    rw [h.total]
    congr 2
    exact List.map_congr_left fun a ha => by simp [Nodes.quantity, hag a ha]
  reset := h.reset

theorem isEmpty_iff (h : LevelRep side t level node q) : level.isEmpty = true ↔ q = [] := by
  rw [FIFOLevel.isEmpty, h.chain.1]
  cases q <;> simp

/-- Appending slot `a` to the queue of a level. -/
theorem push {a quantity : Nat} (h : LevelRep side t level node q) (ha : a ∉ q)
    (hnode : ∀ b ∈ q, node' b = (node b).map fun n =>
      if q.getLast? = some b then { n with next := some a } else n)
    (hnew : ∃ n, node' a = some n ∧ n.next = none ∧ n.prev = level.lastOrder ∧
      n.level = some ⟨side, t⟩ ∧ n.remainingQuantity = quantity) :
    LevelRep side t (level.push a quantity) node' (q ++ [a]) := by
  obtain ⟨n, hn, hnext, hprev, hlevel, hq⟩ := hnew
  have hqty : ∀ b ∈ q, node'.quantity b = node.quantity b := by
    intro b hb
    obtain ⟨m, hm, -⟩ := h.owned b hb
    simp only [Nodes.quantity, hnode b hb, hm, Option.map_some]
    split <;> rfl
  have hchain : Links.Chain node'.next node'.prev (q ++ [a]).head? (some a) (q ++ [a]) := by
    refine h.chain.snoc h.nodup ?_ ?_ ?_ ?_
    · intro b hb
      obtain ⟨m, hm, -⟩ := h.owned b hb
      simp only [Nodes.next, hnode b hb, hm, Option.map_some, Option.bind_some]
      split <;> rfl
    · intro b hb
      obtain ⟨m, hm, -⟩ := h.owned b hb
      simp only [Nodes.prev, hnode b hb, hm, Option.map_some, Option.bind_some]
      split <;> rfl
    · rw [Nodes.next_eq hn, hnext]
    · rw [Nodes.prev_eq hn, hprev]
  refine ⟨?_, ?_, ?_, ?_, ?_⟩
  · have hfirst : (level.push a quantity).firstOrder = (q ++ [a]).head? := by
      change (if level.isEmpty then some a else level.firstOrder) = _
      rw [h.chain.1]
      cases q with
      | nil => simp [h.isEmpty_iff]
      | cons b r =>
        have : level.isEmpty = false := by
          rw [← Bool.not_eq_true, h.isEmpty_iff]; simp
        simp [this]
    rw [hfirst]
    exact hchain
  · rw [List.nodup_append]
    exact ⟨h.nodup, by simp, fun b hb c hc e => ha (by simp_all)⟩
  · intro b hb
    rcases List.mem_append.mp hb with hb | hb
    · obtain ⟨m, hm, hl⟩ := h.owned b hb
      refine ⟨_, by rw [hnode b hb, hm]; rfl, ?_⟩
      split <;> exact hl
    · obtain rfl : b = a := by simpa using hb
      exact ⟨n, hn, hlevel⟩
  · change add64 level.totalQuantity quantity = _
    rw [h.total, add64_mod, List.map_append, List.sum_append, List.map_congr_left hqty]
    simp [Nodes.quantity_eq hn, hq]
  · simp

/-- Lowering the quantity of one queued order. -/
theorem fill {x e : Nat} {n : OrderNode} (h : LevelRep side t level node q) (hx : x ∈ q)
    (hn : node x = some n) (he : e ≤ n.remainingQuantity)
    (hnode : ∀ b, node' b = if b = x then
      some { n with remainingQuantity := n.remainingQuantity - e } else node b) :
    LevelRep side t { level with totalQuantity := sub64 level.totalQuantity e } node' q := by
  have hfield : ∀ {β : Type} (f : OrderNode → Option β),
      (∀ k, f { n with remainingQuantity := k } = f n) →
      ∀ b, (node' b).bind f = (node b).bind f := by
    intro β f hf b
    rw [hnode]
    by_cases hb : b = x
    · subst hb; simp [hn, hf]
    · simp [hb]
  refine ⟨?_, h.nodup, ?_, ?_, h.reset⟩
  · exact h.chain.congr fun b _ =>
      ⟨hfield OrderNode.next (fun _ => rfl) b, hfield OrderNode.prev (fun _ => rfl) b⟩
  · intro b hb
    obtain ⟨m, hm, hl⟩ := h.owned b hb
    rw [hnode]
    by_cases hbx : b = x
    · subst hbx
      rw [hn] at hm
      obtain rfl : n = m := Option.some.inj hm
      exact ⟨_, if_pos rfl, hl⟩
    · exact ⟨m, by rw [if_neg hbx, hm], hl⟩
  · obtain ⟨l, r, rfl⟩ := List.append_of_mem hx
    have hnd := List.nodup_append.mp h.nodup
    have hrest : ∀ b ∈ l ++ r, node'.quantity b = node.quantity b := by
      intro b hb
      have hbx : b ≠ x := by
        rintro rfl
        rcases List.mem_append.mp hb with hb | hb
        · exact hnd.2.2 b hb b (by simp) rfl
        · exact (List.nodup_cons.mp hnd.2.1).1 hb
      simp [Nodes.quantity, hnode, hbx]
    have hqx : node'.quantity x = n.remainingQuantity - e := by
      simp [Nodes.quantity, hnode]
    have hqx' : node.quantity x = n.remainingQuantity := Nodes.quantity_eq hn
    have hl := List.map_congr_left fun b hb => hrest b (List.mem_append_left r hb)
    have hr := List.map_congr_left fun b hb => hrest b (List.mem_append_right l hb)
    change sub64 level.totalQuantity e = _
    rw [h.total]
    simp only [List.map_append, List.map_cons, List.sum_append, List.sum_cons, hl, hr, hqx, hqx']
    rw [sub64_mod (by omega)]
    congr 1
    omega

/-- The links of a queued order are its neighbours in the queue. -/
theorem links_mid {x : Nat} {n : OrderNode} {l r : List Nat}
    (h : LevelRep side t level node (l ++ x :: r)) (hn : node x = some n) :
    n.prev = l.getLast? ∧ n.next = r.head? := by
  obtain ⟨hp, hx⟩ := h.chain.links_mid
  exact ⟨by rw [← hp, Nodes.prev_eq hn], by rw [← hx, Nodes.next_eq hn]⟩

theorem unlink_firstOrder {x : Nat} {n : OrderNode} {l r : List Nat}
    (h : LevelRep side t level node (l ++ x :: r)) (hn : node x = some n) :
    (level.unlink n).firstOrder = (l ++ r).head? := by
  obtain ⟨hp, hx⟩ := h.links_mid hn
  change (if n.prev.isSome then level.firstOrder else n.next) = _
  rw [hp, hx, h.chain.1]
  cases l with
  | nil => simp
  | cons b l => simp [List.getLast?_cons]

theorem unlink_lastOrder {x : Nat} {n : OrderNode} {l r : List Nat}
    (h : LevelRep side t level node (l ++ x :: r)) (hn : node x = some n) :
    (level.unlink n).lastOrder = (l ++ r).getLast? := by
  obtain ⟨hp, hx⟩ := h.links_mid hn
  change (if n.next.isSome then level.lastOrder else n.prev) = _
  rw [hp, hx, h.chain.2.1]
  cases r with
  | nil => simp
  | cons b r => simp [List.getLast?_append, List.getLast?_cons]

theorem unlink_isEmpty_iff {x : Nat} {n : OrderNode} {l r : List Nat}
    (h : LevelRep side t level node (l ++ x :: r)) (hn : node x = some n) :
    (level.unlink n).isEmpty = true ↔ l ++ r = [] := by
  rw [FIFOLevel.isEmpty, h.unlink_firstOrder hn]
  cases l ++ r <;> simp

/-- Taking one order out of the queue; `level'` is the level as `RemoveOrder` leaves it. -/
theorem remove {x : Nat} {n : OrderNode} {l r : List Nat} {level' : FIFOLevel}
    (h : LevelRep side t level node (l ++ x :: r)) (hn : node x = some n)
    (hnode : ∀ b ∈ l ++ r, node' b = (node b).map fun m =>
      { m with
        next := if l.getLast? = some b then r.head? else m.next
        prev := if r.head? = some b then l.getLast? else m.prev })
    (hlevel : level' = if l ++ r = [] then
        { level.unlink n with totalQuantity := 0, nextPriority := 1 } else level.unlink n) :
    LevelRep side t level' node' (l ++ r) := by
  have hnd := List.nodup_append.mp h.nodup
  obtain ⟨hpx, hnx⟩ := h.chain.links_mid
  have hdata : ∀ b ∈ l ++ r, node'.quantity b = node.quantity b := by
    intro b hb
    simp only [Nodes.quantity, hnode b hb]
    cases node b <;> rfl
  have hmem : ∀ b ∈ l ++ r, ∃ m, node b = some m ∧ m.level = some ⟨side, t⟩ := by
    intro b hb
    refine h.owned b ?_
    rcases List.mem_append.mp hb with hb | hb
    · exact List.mem_append_left _ hb
    · exact List.mem_append_right _ (List.mem_cons_of_mem _ hb)
  have hfirst : level'.firstOrder = (l ++ r).head? := by
    rw [hlevel]; split <;> exact h.unlink_firstOrder hn
  have hlast : level'.lastOrder = (l ++ r).getLast? := by
    rw [hlevel]; split <;> exact h.unlink_lastOrder hn
  refine ⟨?_, ?_, ?_, ?_, ?_⟩
  · rw [hfirst, hlast]
    refine h.chain.remove h.nodup ?_ ?_
    · intro b hb
      obtain ⟨m, hm, -⟩ := hmem b hb
      rw [hnx]
      simp only [Nodes.next, hnode b hb, hm, Option.map_some, Option.bind_some]
    · intro b hb
      obtain ⟨m, hm, -⟩ := hmem b hb
      rw [hpx]
      simp only [Nodes.prev, hnode b hb, hm, Option.map_some, Option.bind_some]
  · rw [List.nodup_append]
    exact ⟨hnd.1, (List.nodup_cons.mp hnd.2.1).2,
      fun b hb c hc => hnd.2.2 b hb c (List.mem_cons_of_mem _ hc)⟩
  · intro b hb
    obtain ⟨m, hm, hl⟩ := hmem b hb
    have hmap := hnode b hb
    rw [hm, Option.map_some] at hmap
    exact ⟨_, hmap, hl⟩
  · rw [List.map_congr_left hdata, hlevel]
    split
    · next he => simp [he]
    · change sub64 level.totalQuantity n.remainingQuantity = _
      rw [h.total]
      simp only [List.map_append, List.map_cons, List.sum_append, List.sum_cons,
        Nodes.quantity_eq hn]
      rw [sub64_mod (by omega)]
      congr 1
      omega
  · intro he
    rw [hlevel, if_pos he]

end LevelRep

namespace PriceLevels

variable {s : PriceLevels} {node node' : Nodes} {q : Nat → List Nat}

/-- An empty side stands for empty queues. -/
theorem init_rep (side : Side) (node : Nodes) : (init side).Rep node (fun _ => []) where
  level := fun _ => ⟨Links.Chain.nil, List.nodup_nil, by simp, by simp [init], fun _ => rfl⟩
  occupied := (init_occupancyRep side).iff (by simp)
  best := Or.inl ⟨rfl, by simp⟩

/-- A side only reads the nodes of its own queues. -/
theorem Rep.congr (h : s.Rep node q) (hag : ∀ t, ∀ a ∈ q t, node' a = node a) :
    s.Rep node' q where
  level := fun t => (h.level t).congr (hag t)
  occupied := h.occupied
  best := h.best

/-- No slot is queued at two ticks. -/
theorem Rep.tick_unique (h : s.Rep node q) {t t' a : Nat} (ha : a ∈ q t) (ha' : a ∈ q t') :
    t = t' := by
  obtain ⟨n, hn, hl⟩ := (h.level t).owned a ha
  obtain ⟨n', hn', hl'⟩ := (h.level t').owned a ha'
  rw [hn] at hn'
  obtain rfl : n = n' := Option.some.inj hn'
  rw [hl] at hl'
  simpa using hl'

theorem Rep.lt_tickCount (h : s.Rep node q) {t a : Nat} (ha : a ∈ q t) : t < kTickCount :=
  h.occupied.inBand t (List.ne_nil_of_mem ha)

/-- The level of one tick changes; at the others the nodes stay as they are. -/
theorem Rep.updateLevel (h : s.Rep node q) {s' : PriceLevels} {t : Nat} {level : FIFOLevel}
    {l : List Nat} (hside : s'.side = s.side)
    (hlevels : s'.levels = Function.update s.levels t level)
    (hlevel : LevelRep s.side t level node' l)
    (hframe : ∀ y, y ≠ t → ∀ b ∈ q y, node' b = node b)
    (hocc : s'.OccupancyRep fun y => Function.update q t l y ≠ [])
    (hbest : IsBest s.side (fun y => Function.update q t l y ≠ []) s'.bestTick) :
    s'.Rep node' (Function.update q t l) where
  level y := by
    rw [hside, hlevels]
    rcases eq_or_ne y t with rfl | hy
    · rw [Function.update_self, Function.update_self]
      exact hlevel
    · rw [Function.update_of_ne hy, Function.update_of_ne hy]
      exact (h.level y).congr (hframe y hy)
  occupied := hocc
  best := by
    rw [hside]
    exact hbest

theorem setLevel_setLevel {t : Nat} (level level' : FIFOLevel) :
    (s.setLevel t level).setLevel t level' = s.setLevel t level' := by
  simp only [setLevel, Function.update_idem]

/-- Which ticks are occupied when the queue of one tick changes. -/
theorem update_ne_nil {t y : Nat} {l : List Nat} :
    Function.update q t l y ≠ [] ↔ (y = t ∧ l ≠ []) ∨ (y ≠ t ∧ q y ≠ []) := by
  rcases eq_or_ne y t with rfl | hy
  · simp
  · simp [hy]

theorem update_ne_nil_of_occupied {t y : Nat} {l : List Nat} (hq : q t ≠ []) (hl : l ≠ []) :
    Function.update q t l y ≠ [] ↔ q y ≠ [] := by
  rw [update_ne_nil]
  rcases eq_or_ne y t with rfl | hy
  · simp [hq, hl]
  · simp [hy]

/-! ## 3. The cached best tick -/

theorem isEmpty_iff_invalid : s.isEmpty = true ↔ s.bestTick = kInvalidTick := by
  simp [isEmpty]

/-- A new occupied tick replaces the best one exactly when `AddOrder` says so. -/
theorem isBest_insert {side : Side} {occ : Nat → Prop} {t : Nat} {best : Int}
    (hs : s.side = side) (hbest : s.bestTick = best) (h : IsBest side occ best) :
    IsBest side (fun x => x = t ∨ occ x)
      (if s.isEmpty || s.isBetter t s.bestTick then (t : Int) else best) := by
  subst hs hbest
  rcases h with ⟨hi, hall⟩ | ⟨b, hb, ho, hall⟩
  · rw [if_pos (by simp [isEmpty, hi])]
    refine Or.inr ⟨t, rfl, Or.inl rfl, ?_⟩
    rintro t' (rfl | ho)
    · split <;> exact Nat.le_refl _
    · exact (hall t' ho).elim
  · have hne : s.isEmpty = false := by
      simp only [isEmpty, hb, kInvalidTick, decide_eq_false_iff_not]
      omega
    rw [hne, Bool.false_or]
    by_cases hside : s.side = .buy
    · simp only [isBetter, hside, if_true, decide_eq_true_eq, hb] at hall ⊢
      split
      · next hlt =>
        refine Or.inr ⟨t, rfl, Or.inl rfl, ?_⟩
        rintro t' (rfl | ho')
        · simp
        · have := hall t' ho'
          simp only [if_true]
          omega
      · next hlt =>
        refine Or.inr ⟨b, rfl, Or.inr ho, ?_⟩
        rintro t' (rfl | ho')
        · simp only [if_true]
          omega
        · simpa using hall t' ho'
    · simp only [isBetter, hside, if_false, decide_eq_true_eq, hb] at hall ⊢
      split
      · next hlt =>
        refine Or.inr ⟨t, rfl, Or.inl rfl, ?_⟩
        rintro t' (rfl | ho')
        · simp [hside]
        · have := hall t' ho'
          simp only [hside, if_false]
          omega
      · next hlt =>
        refine Or.inr ⟨b, rfl, Or.inr ho, ?_⟩
        rintro t' (rfl | ho')
        · simp only [hside, if_false]
          omega
        · simpa [hside] using hall t' ho'

/-- Emptying a level that is not the best one keeps the best tick. -/
theorem isBest_erase {side : Side} {occ : Nat → Prop} {t : Nat} {best : Int}
    (h : IsBest side occ best) (hne : (t : Int) ≠ best) :
    IsBest side (fun x => x ≠ t ∧ occ x) best := by
  rcases h with ⟨hi, hall⟩ | ⟨b, hb, ho, hall⟩
  · exact Or.inl ⟨hi, fun x hx => hall x hx.2⟩
  · exact Or.inr ⟨b, hb, ⟨fun e => hne (by rw [hb, e]), ho⟩, fun x hx => hall x hx.2⟩

theorem isBest_iff {side : Side} {occ occ' : Nat → Prop} {best : Int}
    (h : IsBest side occ best) (heq : ∀ t, occ' t ↔ occ t) : IsBest side occ' best := by
  have : occ' = occ := funext fun t => propext (heq t)
  rw [this]
  exact h

/-! ## 4. `AddOrder` -/

/-- The former tail is the node that the level points to, if it points to one. -/
theorem linkTail_eq {side : Side} {t : Nat} {level : FIFOLevel} {l : List Nat}
    (h : LevelRep side t level node l) (pool : MemPool OrderNode) (a : Nat) :
    linkTail level pool a =
      pool.modifyNonNull level.lastOrder fun n => { n with next := some a } := by
  unfold linkTail MemPool.modifyNonNull
  by_cases hl : l = []
  · rw [if_pos (h.isEmpty_iff.mpr hl), h.chain.2.1, hl]
    rfl
  · have hlast : level.lastOrder.isSome = true := by
      rw [h.chain.2.1]
      exact List.getLast?_isSome.mpr hl
    rw [if_neg fun hempty => hl (h.isEmpty_iff.mp hempty), if_pos hlast]

/-- What `AddOrder` does to the pool: the new node, and the link of the former tail. -/
theorem allocate_linkTail {pool : MemPool OrderNode} {live l : List Nat} {side : Side} {t : Nat}
    {level : FIFOLevel} (hp : pool.Inv live) (h : LevelRep side t level pool.object? l)
    (hsub : ∀ b ∈ l, b ∈ live) (hlt : live.length < pool.capacity) (n : OrderNode) :
    ∃ a pool₁ pool', pool.allocate n = .ok (a, pool₁) ∧ linkTail level pool₁ a = .ok pool' ∧
      a ∉ live ∧ pool'.Inv (live ++ [a]) ∧ pool'.capacity = pool.capacity ∧
      pool'.object? a = some n ∧
      ∀ b ∈ live, pool'.object? b = (pool.object? b).map fun n =>
        if l.getLast? = some b then { n with next := some a } else n := by
  obtain ⟨a, pool₁, halloc, hfresh, hinv₁, hcap, hobj⟩ := hp.allocate_spec hlt n
  obtain ⟨pool', hlink, hinv', hcap', hobj'⟩ := hinv₁.modifyNonNull_spec l.getLast?
    (fun z hz => List.mem_append_left _ (hsub z (List.mem_of_getLast? hz)))
    (fun n => { n with next := some a })
  have hne : ∀ b ∈ live, ¬ b = a := fun b hb heq => hfresh (heq ▸ hb)
  have htail : ¬ l.getLast? = some a := fun hlast => hfresh (hsub a (List.mem_of_getLast? hlast))
  refine ⟨a, pool₁, pool', halloc, ?_, hfresh, hinv', hcap'.trans hcap, ?_, fun b hb => ?_⟩
  · rw [linkTail_eq h, h.chain.2.1, hlink]
  · rw [hobj', hobj, if_pos rfl, Option.map_some, if_neg htail]
  · rw [hobj', hobj, if_neg (hne b hb)]

/-- **A tick becomes occupied**: its bit is set and, if it is better than the best one, it takes
that one's place. -/
theorem Rep.occupy {t : Nat} {level : FIFOLevel} {l : List Nat} (hr : s.Rep node q)
    (ht : t < kTickCount) (hlevel : LevelRep s.side t level node' l) (hl : l ≠ [])
    (hframe : ∀ y, y ≠ t → ∀ b ∈ q y, node' b = node b) :
    (if ((s.setLevel t level).markOccupied t).isEmpty ||
        ((s.setLevel t level).markOccupied t).isBetter t
          ((s.setLevel t level).markOccupied t).bestTick then
      { (s.setLevel t level).markOccupied t with bestTick := t }
    else (s.setLevel t level).markOccupied t).Rep node' (Function.update q t l) := by
  set s₁ := (s.setLevel t level).markOccupied t
  have hset : (s.setLevel t level).OccupancyRep (fun x => q x ≠ []) := hr.occupied.congr rfl rfl
  have hiff : ∀ x, Function.update q t l x ≠ [] ↔ x = t ∨ q x ≠ [] := by
    intro x
    rw [update_ne_nil]
    by_cases hx : x = t <;> simp [hx, hl]
  have hocc : s₁.OccupancyRep (fun x => Function.update q t l x ≠ []) :=
    (markOccupied_rep hset ht).iff hiff
  have hbest := isBest_iff (isBest_insert (t := t) rfl rfl hr.best) hiff
  refine hr.updateLevel ?_ ?_ hlevel hframe ?_ ?_
  · split <;> rfl
  · split <;> rfl
  · split
    · exact hocc.congr rfl rfl
    · exact hocc
  · rw [show s₁.isEmpty = s.isEmpty from rfl, show s₁.isBetter = s.isBetter from rfl,
      show s₁.bestTick = s.bestTick from rfl]
    split
    · next h =>
      rw [if_pos h] at hbest
      exact hbest
    · next h =>
      rw [if_neg h] at hbest
      exact hbest

/-- **`AddOrder` appends one order to the queue of its tick.**  It succeeds below the pool's
capacity; the other nodes keep everything but, for the former tail, the forward link. -/
theorem addOrder_spec {pool : MemPool OrderNode} {live : List Nat} {t : Nat}
    (clientId clientOrderId marketOrderId quantity : Nat)
    (hp : pool.Inv live) (hr : s.Rep pool.object? q) (hsub : ∀ t a, a ∈ q t → a ∈ live)
    (ht : t < kTickCount) (hlt : live.length < pool.capacity) :
    ∃ a s' pool', s.addOrder pool t clientId clientOrderId marketOrderId quantity
        = .ok (a, s', pool') ∧
      a ∉ live ∧ pool'.Inv (live ++ [a]) ∧ pool'.capacity = pool.capacity ∧
      s'.side = s.side ∧ s'.Rep pool'.object? (Function.update q t (q t ++ [a])) ∧
      pool'.object? a = some (s.newNode t clientId clientOrderId marketOrderId quantity) ∧
      (∀ b ∈ live, pool'.object? b = (pool.object? b).map fun n =>
        if (q t).getLast? = some b then { n with next := some a } else n) ∧
      s'.levels = Function.update s.levels t ((s.levels t).push a quantity) := by
  have hlev := hr.level t
  obtain ⟨a, pool₁, pool', halloc, hlink, hfresh, hinv', hcap', ha', hnode'⟩ :=
    allocate_linkTail hp hlev (hsub t) hlt
      (s.newNode t clientId clientOrderId marketOrderId quantity)
  have hpush : LevelRep s.side t ((s.levels t).push a quantity) pool'.object? (q t ++ [a]) :=
    hlev.push (fun h => hfresh (hsub t a h)) (fun b hb => hnode' b (hsub t b hb))
      ⟨_, ha', rfl, rfl, rfl, rfl⟩
  have hframe : ∀ y, y ≠ t → ∀ b ∈ q y, pool'.object? b = pool.object? b := by
    intro y hy b hb
    have htail : ¬ (q t).getLast? = some b := fun hlast =>
      hy (hr.tick_unique hb (List.mem_of_getLast? hlast))
    rw [hnode' b (hsub y b hb)]
    cases pool.object? b <;> simp [htail]
  have hassert : (decide (0 ≤ (t : Int)) && decide ((t : Int) < kTickCount)) = true := by
    simp only [Bool.and_eq_true, decide_eq_true_eq]
    omega
  let s₁ := (s.setLevel t ((s.levels t).push a quantity)).markOccupied t
  have hexec : s.addOrder pool t clientId clientOrderId marketOrderId quantity = .ok (a,
      if (s.levels t).isEmpty then
        if s₁.isEmpty || s₁.isBetter t s₁.bestTick then { s₁ with bestTick := t } else s₁
      else s.setLevel t ((s.levels t).push a quantity), pool') := by
    unfold addOrder
    rw [hassert]
    simp only [assertThat_true, ok_bind, Int.toNat_natCast, halloc, hlink]
    rfl
  by_cases hq : q t = []
  · -- the tick becomes occupied
    rw [if_pos (hlev.isEmpty_iff.mpr hq)] at hexec
    refine ⟨a, _, pool', hexec, hfresh, hinv', hcap', ?_, ?_, ha', hnode', ?_⟩
    · split <;> rfl
    · exact hr.occupy ht hpush (by simp) hframe
    · split <;> rfl
  · -- it was occupied before
    rw [if_neg (fun h => hq (hlev.isEmpty_iff.mp h))] at hexec
    have hiff : ∀ x, Function.update q t (q t ++ [a]) x ≠ [] ↔ q x ≠ [] := fun x =>
      update_ne_nil_of_occupied hq (by simp)
    have hset : (s.setLevel t ((s.levels t).push a quantity)).OccupancyRep (fun x => q x ≠ []) :=
      hr.occupied.congr rfl rfl
    refine ⟨a, _, pool', hexec, hfresh, hinv', hcap', rfl, ?_, ha', hnode', rfl⟩
    exact hr.updateLevel rfl rfl hpush hframe (hset.iff hiff) (isBest_iff hr.best hiff)

/-- With the pool at its capacity `AddOrder` stops the process. -/
theorem addOrder_full {pool : MemPool OrderNode} {live : List Nat} {t : Nat}
    (clientId clientOrderId marketOrderId quantity : Nat) (hp : pool.Inv live)
    (ht : t < kTickCount) (hfull : live.length = pool.capacity) :
    s.addOrder pool t clientId clientOrderId marketOrderId quantity =
      .error (.assertion "Memory pool exhausted") := by
  have hassert : (decide (0 ≤ (t : Int)) && decide ((t : Int) < kTickCount)) = true := by
    simp only [Bool.and_eq_true, decide_eq_true_eq]
    omega
  unfold addOrder
  rw [hassert]
  simp only [assertThat_true, ok_bind, hp.allocate_full hfull]
  rfl

/-! ## 5. `ApplyFill` -/

/-- **`ApplyFill` lowers the quantity of one queued order**, and the level's aggregate with
it. -/
theorem applyFill_spec {pool : MemPool OrderNode} {t x e : Nat} {n : OrderNode}
    (hr : s.Rep pool.object? q) (hx : x ∈ q t) (hn : pool.object? x = some n)
    (he : e ≤ n.remainingQuantity) :
    ∃ s', s.applyFill pool (some x) e =
        .ok (s', pool.put x { n with remainingQuantity := n.remainingQuantity - e }) ∧
      s'.side = s.side ∧ s'.bestTick = s.bestTick ∧
      s'.Rep (pool.put x { n with remainingQuantity := n.remainingQuantity - e }).object? q ∧
      ∀ t', (s'.levels t').nextPriority = (s.levels t').nextPriority := by
  obtain ⟨m, hm, hlevel⟩ := (hr.level t).owned x hx
  obtain rfl : n = m := Option.some.inj (hn.symm.trans hm)
  have howns : s.owns ⟨s.side, t⟩ = true := by
    simp [owns, hr.lt_tickCount hx]
  refine ⟨s.setLevel t { s.levels t with totalQuantity := sub64 (s.levels t).totalQuantity e },
    ?_, rfl, rfl, ⟨fun t' => ?_, hr.occupied.congr rfl rfl, hr.best⟩, fun t' => ?_⟩
  · simp [applyFill, MemPool.deref_some hn, MemPool.modify_some hn, hlevel, he, howns]
  · by_cases ht' : t' = t
    · subst ht'
      simp only [setLevel, Function.update_self]
      exact (hr.level t').fill hx hn he fun b => MemPool.object?_put
    · simp only [setLevel, Function.update_of_ne ht']
      refine (hr.level t').congr fun b hb => ?_
      exact MemPool.object?_put_of_ne fun e => ht' (hr.tick_unique hb (e ▸ hx))
  · by_cases ht' : t' = t
    · subst ht'; simp [setLevel]
    · simp [setLevel, Function.update_of_ne ht']

/-! ## 6. `RemoveOrder` -/

/-- What `RemoveOrder` does to the pool: the neighbours are linked to each other, the node is
cleared, and its slot is released. -/
theorem unlink_deallocate {pool : MemPool OrderNode} {live l r : List Nat} {side : Side}
    {t x : Nat} {level : FIFOLevel} {n : OrderNode} (hp : pool.Inv live)
    (h : LevelRep side t level pool.object? (l ++ x :: r)) (hsub : ∀ b ∈ l ++ x :: r, b ∈ live)
    (hn : pool.object? x = some n) :
    ∃ p₁ p₂ p₃, (pool.modifyNonNull n.prev fun m => { m with next := n.next }) = .ok p₁ ∧
      (p₁.modifyNonNull n.next fun m => { m with prev := n.prev }) = .ok p₂ ∧
      (p₂.modify (some x) fun m => { m with next := none, prev := none, level := none }) =
        .ok p₃ ∧
      (p₃.deallocate x).Inv (live.erase x) ∧ (p₃.deallocate x).capacity = pool.capacity ∧
      ∀ b, b ≠ x → (p₃.deallocate x).object? b = (pool.object? b).map fun m =>
        { m with
          next := if l.getLast? = some b then r.head? else m.next
          prev := if r.head? = some b then l.getLast? else m.prev } := by
  obtain ⟨hprev, hnext⟩ := h.links_mid hn
  have hlast : ∀ b, l.getLast? = some b → b ∈ l := fun b hb => List.mem_of_getLast? hb
  have hhead : ∀ b, r.head? = some b → b ∈ r := fun b hb => List.mem_of_head? hb
  have hxlive : x ∈ live := hsub x (by simp)
  rw [hprev, hnext]
  obtain ⟨p₁, hp₁, hinv₁, hcap₁, hobj₁⟩ := hp.modifyNonNull_spec l.getLast?
    (fun b hb => hsub b (List.mem_append_left _ (hlast b hb)))
    (fun m => { m with next := r.head? })
  obtain ⟨p₂, hp₂, hinv₂, hcap₂, hobj₂⟩ := hinv₁.modifyNonNull_spec r.head?
    (fun b hb => hsub b (List.mem_append_right _ (List.mem_cons_of_mem _ (hhead b hb))))
    (fun m => { m with prev := l.getLast? })
  -- the node itself is not its own neighbour
  have hnd := List.nodup_append.mp h.nodup
  have hnext_ne : ¬ l.getLast? = some x := fun hx => hnd.2.2 x (hlast x hx) x (by simp) rfl
  have hprev_ne : ¬ r.head? = some x := fun hx => (List.nodup_cons.mp hnd.2.1).1 (hhead x hx)
  have hn₂ : p₂.object? x = some n := by
    rw [hobj₂, hobj₁, hn]
    simp [hnext_ne, hprev_ne]
  refine ⟨p₁, p₂, _, hp₁, hp₂, MemPool.modify_some hn₂, (hinv₂.put hxlive).deallocate hxlive,
    hcap₂.trans hcap₁, fun b hb => ?_⟩
  rw [MemPool.object?_deallocate_of_ne hb, MemPool.object?_put_of_ne hb, hobj₂, hobj₁]
  cases pool.object? b with
  | none => rfl
  | some m =>
    simp only [Option.map_some]
    split <;> split <;> rfl

/-- The nodes of the other ticks stay as they are. -/
theorem Rep.unlink_frame {l r : List Nat} {t x : Nat} (hr : s.Rep node q) (hq : q t = l ++ x :: r)
    (hobj : ∀ b, b ≠ x → node' b = (node b).map fun m =>
      { m with
        next := if l.getLast? = some b then r.head? else m.next
        prev := if r.head? = some b then l.getLast? else m.prev }) :
    ∀ y, y ≠ t → ∀ b ∈ q y, node' b = node b := by
  intro y hy b hb
  have hbt : b ∉ l ++ x :: r := fun h => hy (hr.tick_unique hb (hq ▸ h))
  have hbx : b ≠ x := by
    rintro rfl
    exact hbt (by simp)
  have hlast : ¬ l.getLast? = some b := fun h =>
    hbt (List.mem_append_left _ (List.mem_of_getLast? h))
  have hhead : ¬ r.head? = some b := fun h =>
    hbt (List.mem_append_right _ (List.mem_cons_of_mem _ (List.mem_of_head? h)))
  rw [hobj b hbx]
  cases node b <;> simp [hlast, hhead]

/-- **A tick becomes vacant**: its bit is cleared and, if it was the best one, the next one is
looked for. -/
theorem Rep.vacate {s₁ : PriceLevels} {t : Nat} {level : FIFOLevel} (hr : s.Rep node q)
    (hs₁ : s₁ = (s.setLevel t level).clearOccupied t)
    (hlevel : LevelRep s.side t level node' [])
    (hframe : ∀ y, y ≠ t → ∀ b ∈ q y, node' b = node b) :
    (if (t : Int) = s₁.bestTick then { s₁ with bestTick := s₁.findBestTick } else s₁).Rep node'
      (Function.update q t []) := by
  subst hs₁
  set s₁ := (s.setLevel t level).clearOccupied t
  have hside : s₁.side = s.side := clearOccupied_side
  have hbest : s₁.bestTick = s.bestTick := clearOccupied_bestTick
  have hlevels : s₁.levels = Function.update s.levels t level := clearOccupied_levels
  have hset : (s.setLevel t level).OccupancyRep (fun y => q y ≠ []) := hr.occupied.congr rfl rfl
  have hocc : s₁.OccupancyRep (fun y => y ≠ t ∧ q y ≠ []) := clearOccupied_rep hset
  have hiff : ∀ y, Function.update q t [] y ≠ [] ↔ (y ≠ t ∧ q y ≠ []) := by
    intro y
    rw [update_ne_nil]
    simp
  split
  · exact hr.updateLevel hside hlevels hlevel hframe ((hocc.iff hiff).congr rfl rfl)
      (hside ▸ isBest_iff (findBestTick_best hocc) hiff)
  · next hb =>
    refine hr.updateLevel hside hlevels hlevel hframe (hocc.iff hiff) ?_
    rw [hbest] at hb ⊢
    exact isBest_iff (isBest_erase hr.best hb) hiff

/-- **`RemoveOrder` takes one order out of the queue of its tick** and returns its slot to the
pool; the neighbours are relinked, and no other node changes. -/
theorem removeOrder_spec {pool : MemPool OrderNode} {live l r : List Nat} {t x : Nat}
    (hp : pool.Inv live) (hr : s.Rep pool.object? q) (hsub : ∀ t a, a ∈ q t → a ∈ live)
    (hq : q t = l ++ x :: r) :
    ∃ s' pool', s.removeOrder pool (some x) = .ok (s', pool') ∧
      pool'.Inv (live.erase x) ∧ pool'.capacity = pool.capacity ∧ s'.side = s.side ∧
      s'.Rep pool'.object? (Function.update q t (l ++ r)) ∧
      (∀ b, b ≠ x → pool'.object? b = (pool.object? b).map fun m =>
        { m with
          next := if l.getLast? = some b then r.head? else m.next
          prev := if r.head? = some b then l.getLast? else m.prev }) ∧
      ∀ t', (s'.levels t').nextPriority =
        if t' = t ∧ l ++ r = [] then 1 else (s.levels t').nextPriority := by
  have hxq : x ∈ q t := by rw [hq]; simp
  have hlev := hr.level t
  obtain ⟨n, hn, hlevel⟩ := hlev.owned x hxq
  rw [hq] at hlev
  have hnd := List.nodup_append.mp hlev.nodup
  have howns : s.owns ⟨s.side, t⟩ = true := by simp [owns, hr.lt_tickCount hxq]
  obtain ⟨p₁, p₂, p₃, hp₁, hp₂, hp₃, hinv, hcap, hobj⟩ :=
    unlink_deallocate hp hlev (fun b hb => hsub t b (hq ▸ hb)) hn
  have hframe : ∀ y, y ≠ t → ∀ b ∈ q y, (p₃.deallocate x).object? b = pool.object? b :=
    hr.unlink_frame hq hobj
  have hlr : ∀ b ∈ l ++ r, b ≠ x := by
    rintro b hb rfl
    rcases List.mem_append.mp hb with hb | hb
    · exact hnd.2.2 b hb b (by simp) rfl
    · exact (List.nodup_cons.mp hnd.2.1).1 hb
  let level := (s.levels t).unlink n
  let emptied := { level with totalQuantity := 0, nextPriority := 1 }
  let s₁ := ((s.setLevel t level).setLevel t emptied).clearOccupied t
  have hexec : s.removeOrder pool (some x) = .ok
      (if level.isEmpty then
        if (t : Int) = s₁.bestTick then { s₁ with bestTick := s₁.findBestTick } else s₁
      else s.setLevel t level, p₃.deallocate x) := by
    unfold removeOrder
    simp only [MemPool.deref_some hn, ok_bind, hlevel, howns, if_true, hp₁, hp₂, hp₃]
    rfl
  have hempty : level.isEmpty = true ↔ l ++ r = [] := hlev.unlink_isEmpty_iff hn
  have hremoved : ∀ level', level' =
      (if l ++ r = [] then { level with totalQuantity := 0, nextPriority := 1 } else level) →
      LevelRep s.side t level' (p₃.deallocate x).object? (l ++ r) := fun level' =>
    hlev.remove hn fun b hb => hobj b (hlr b hb)
  by_cases he : l ++ r = []
  · -- the tick is no longer occupied
    rw [if_pos (hempty.mpr he)] at hexec
    have hs₁ : s₁ = (s.setLevel t emptied).clearOccupied t :=
      congrArg (fun s' => clearOccupied s' t) (setLevel_setLevel _ _)
    have hlevels : s₁.levels = Function.update s.levels t emptied := by
      rw [hs₁, clearOccupied_levels]
      rfl
    have hprio : ∀ y, (s₁.levels y).nextPriority =
        if y = t ∧ l ++ r = [] then 1 else (s.levels y).nextPriority := by
      intro y
      rw [hlevels]
      rcases eq_or_ne y t with rfl | hy
      · simp [he, emptied]
      · simp [hy]
    refine ⟨_, _, hexec, hinv, hcap, ?_, ?_, hobj, fun y => ?_⟩
    · have hside : s₁.side = s.side := clearOccupied_side
      split <;> exact hside
    · have hvacant := hremoved emptied (if_pos he).symm
      rw [he] at hvacant ⊢
      exact hr.vacate hs₁ hvacant hframe
    · rw [← hprio]
      split <;> rfl
  · rw [if_neg (fun h => he (hempty.mp h))] at hexec
    have hiff : ∀ y, Function.update q t (l ++ r) y ≠ [] ↔ q y ≠ [] := fun y =>
      update_ne_nil_of_occupied (List.ne_nil_of_mem hxq) he
    have hset : (s.setLevel t level).OccupancyRep (fun y => q y ≠ []) :=
      hr.occupied.congr rfl rfl
    refine ⟨_, _, hexec, hinv, hcap, rfl, ?_, hobj, fun y => ?_⟩
    · exact hr.updateLevel rfl rfl (hremoved _ (if_neg he).symm) hframe (hset.iff hiff)
        (isBest_iff hr.best hiff)
    · rw [if_neg (fun h => he h.2)]
      rcases eq_or_ne y t with rfl | hy
      · simp [setLevel, level, FIFOLevel.unlink]
      · simp [setLevel, hy]

end PriceLevels

end YQuant
