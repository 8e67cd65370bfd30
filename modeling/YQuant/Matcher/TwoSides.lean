/-
# Two sides over one pool

A `BUY` and a `SELL` side take their nodes from one pool, and a node that one side gives back may be
the next one the other side takes.  `TwoSides.FormedAs q` says of the code's own structures what a
reader of `price_levels.h` expects: `q` are the queues of both sides, linked both ways, ranked by
priority, summed up in the levels, summarised in the bitmaps and the best ticks, and together they
hold every node in use once.

One lemma frames a call on one side (`Inv.setSide`); the three operations are instances of it.  The
priorities of a level are given out by a 64-bit counter that restarts only when the level runs
empty, so the order by priority holds as long as that counter does not wrap (`KeepsRank`), and
fails when it does (`not_always_formed`).

What is permitted is what the three operations ask of their callers: a tick of the range, a node
that is queued where the call says, a quantity that is there.  Nothing is asked of prices, and the
two sides may cross: that they do not is the business of `Match`.

The counter needs `2 ^ 64` orders at one level that never runs empty to wrap, which no run of the
engine gets to see.  The operations do not exclude it, though, and the counterexample is built by
laps: one order joins, the one before it leaves, and the level is never empty.
-/
import Mathlib.Algebra.Order.BigOperators.Group.List
import YQuant.Lib.Run
import YQuant.Matcher.LevelQueues

namespace YQuant

/-! ## 1. The calls -/

/-- The two sides of a book and the pool they share. -/
structure TwoSides where
  bids : PriceLevels
  asks : PriceLevels
  orderPool : MemPool OrderNode

inductive LevelCall where
  | addOrder (side : Side) (tick : Int) (clientId clientOrderId marketOrderId quantity : Nat)
  | applyFill (side : Side) (order quantity : Nat)
  | removeOrder (side : Side) (order : Nat)
deriving DecidableEq, Repr

namespace TwoSides

def init : TwoSides := ⟨.init .buy, .init .sell, .init kMaxOrderIds⟩

def levels (b : TwoSides) (side : Side) : PriceLevels := if side = .buy then b.bids else b.asks

/-- Write one side and the pool. -/
def setSide (b : TwoSides) (side : Side) (s : PriceLevels) (pool : MemPool OrderNode) : TwoSides :=
  if side = .buy then ⟨s, b.asks, pool⟩ else ⟨b.bids, s, pool⟩

/-- One call on one side. -/
def apply (b : TwoSides) : LevelCall → Except Fault TwoSides
  | .addOrder side tick clientId clientOrderId marketOrderId quantity => do
    let (_, s, pool) ← (b.levels side).addOrder b.orderPool tick clientId clientOrderId
      marketOrderId quantity
    .ok (b.setSide side s pool)
  | .applyFill side order quantity => do
    let (s, pool) ← (b.levels side).applyFill b.orderPool (some order) quantity
    .ok (b.setSide side s pool)
  | .removeOrder side order => do
    let (s, pool) ← (b.levels side).removeOrder b.orderPool (some order)
    .ok (b.setSide side s pool)

/-- The nodes queued at a tick, first to last. -/
def queue (b : TwoSides) (side : Side) (tick : Nat) : List Nat :=
  Links.walk (Nodes.next b.orderPool.object?) kMaxOrderIds ((b.levels side).levels tick).firstOrder

/-- What the three operations ask of their callers. -/
def Permitted (b : TwoSides) : LevelCall → Prop
  | .addOrder side tick _ _ _ quantity =>
    side.Directional ∧ (0 ≤ tick ∧ tick < kTickCount) ∧ 0 < quantity ∧ quantity < kWord32
  | .applyFill side order quantity =>
    side.Directional ∧ (∃ tick, order ∈ b.queue side tick) ∧
      quantity ≤ Nodes.quantity b.orderPool.object? order
  | .removeOrder side order => side.Directional ∧ ∃ tick, order ∈ b.queue side tick

/-- The priority counter of the level has a next value. -/
def KeepsRank (b : TwoSides) : LevelCall → Prop
  | .addOrder side tick _ _ _ _ =>
    ((b.levels side).levels tick.toNat).nextPriority + 1 < kWord64
  | .applyFill .. => True
  | .removeOrder .. => True

instance (b : TwoSides) : (call : LevelCall) → Decidable (b.KeepsRank call)
  | .addOrder .. => inferInstanceAs (Decidable (_ < _))
  | .applyFill .. => inferInstanceAs (Decidable True)
  | .removeOrder .. => inferInstanceAs (Decidable True)

end TwoSides

/-! ## 2. The invariant -/

/-- The priority of a node. -/
def Nodes.priority (node : Nodes) (a : Nat) : Nat :=
  match node a with
  | some n => n.priority
  | none => 0

/-- A queue in the order of its priorities, all below the next one. -/
structure Ranked (node : Nodes) (nextPriority : Nat) (q : List Nat) : Prop where
  increasing : q.Pairwise fun a a' => node.priority a < node.priority a'
  below : ∀ a ∈ q, node.priority a < nextPriority

theorem Nodes.priority_map {node node' : Nodes} {a : Nat} {f : OrderNode → OrderNode}
    (h : node' a = (node a).map f) (hf : ∀ n, (f n).priority = n.priority) :
    node'.priority a = node.priority a := by
  unfold priority
  rw [h]
  cases node a with
  | none => rfl
  | some n => exact hf n

theorem Nodes.quantity_map {node node' : Nodes} {a : Nat} {f : OrderNode → OrderNode}
    (h : node' a = (node a).map f) (hf : ∀ n, (f n).remainingQuantity = n.remainingQuantity) :
    node'.quantity a = node.quantity a := by
  unfold quantity
  rw [h]
  cases node a with
  | none => rfl
  | some n => exact hf n

namespace Ranked

variable {node node' : Nodes} {p a : Nat} {q q' : List Nat}

theorem nil : Ranked node p [] := ⟨List.Pairwise.nil, by simp⟩

theorem congr (h : Ranked node p q) (hag : ∀ a ∈ q, node'.priority a = node.priority a) :
    Ranked node' p q where
  increasing := h.increasing.imp_of_mem fun ha ha' hlt => by rwa [hag _ ha, hag _ ha']
  below := fun a ha => by rw [hag a ha]; exact h.below a ha

theorem sublist (h : Ranked node p q) (hsub : q'.Sublist q) : Ranked node p q' where
  increasing := h.increasing.sublist hsub
  below := fun a ha => h.below a (hsub.subset ha)

/-- The next order gets the next priority. -/
theorem push (h : Ranked node p q) (ha : node.priority a = p) : Ranked node (p + 1) (q ++ [a]) where
  increasing := List.pairwise_append.mpr ⟨h.increasing, List.pairwise_singleton _ _,
    fun b hb c hc => by rw [List.mem_singleton.mp hc, ha]; exact h.below b hb⟩
  below := fun b hb => by
    rcases List.mem_append.mp hb with hb | hb
    · exact Nat.lt_succ_of_lt (h.below b hb)
    · rw [List.mem_singleton.mp hb, ha]
      exact Nat.lt_succ_self p

end Ranked

/-- The queues of both sides. -/
abbrev SideQueues := Side → Nat → List Nat

/-- The node is in some queue. -/
def SideQueues.Queued (q : SideQueues) (a : Nat) : Prop := ∃ s t, s.Directional ∧ a ∈ q s t

/-- One queue is replaced. -/
def SideQueues.set (q : SideQueues) (s : Side) (t : Nat) (queue : List Nat) : SideQueues :=
  Function.update q s (Function.update (q s) t queue)

theorem SideQueues.set_apply {q : SideQueues} {s s₂ : Side} {t t₂ : Nat} {queue : List Nat} :
    q.set s t queue s₂ t₂ = if s₂ = s ∧ t₂ = t then queue else q s₂ t₂ := by
  unfold set
  by_cases hs : s₂ = s
  · subst hs
    by_cases ht : t₂ = t
    · subst ht; simp
    · simp [ht]
  · simp [hs]

namespace TwoSides

/-- **What the two sides always are**, with the queues `q`. -/
structure FormedAs (b : TwoSides) (q : SideQueues) : Prop where
  /-- Links, back pointers, bitmaps and best tick. -/
  rep : ∀ s : Side, s.Directional → (b.levels s).side = s ∧
    (b.levels s).Rep b.orderPool.object? (q s)
  ranked : ∀ s : Side, s.Directional → ∀ t,
    Ranked b.orderPool.object? ((b.levels s).levels t).nextPriority (q s t)
  /-- The aggregate quantities are exact. -/
  total : ∀ s : Side, s.Directional → ∀ t, ((b.levels s).levels t).totalQuantity =
    ((q s t).map (Nodes.quantity b.orderPool.object?)).sum
  /-- A node in use, that is below the cursor of the pool and not on its free list, is queued. -/
  inUse : ∃ free, MemPool.FreeList b.orderPool.storage b.orderPool.freeHead free ∧
    ∀ a, a < b.orderPool.nextUnused ∧ a ∉ free ↔ q.Queued a
  /-- No node is in two queues, or twice in one. -/
  once : ∀ s s' : Side, s.Directional → s'.Directional → ∀ t t' a, a ∈ q s t → a ∈ q s' t' →
    s = s' ∧ t = t'
  nodup : ∀ s : Side, s.Directional → ∀ t, (q s t).Nodup

/-- The two sides are well formed. -/
def Formed (b : TwoSides) : Prop := ∃ q, b.FormedAs q

/-- What is carried along a run. -/
structure Inv (b : TwoSides) (q : SideQueues) : Prop where
  pool : ∃ live, b.orderPool.Inv live ∧ ∀ a, a ∈ live ↔ q.Queued a
  capacity : b.orderPool.capacity = kMaxOrderIds
  rep : ∀ s : Side, s.Directional → (b.levels s).side = s ∧
    (b.levels s).Rep b.orderPool.object? (q s)
  small : ∀ a, q.Queued a → Nodes.quantity b.orderPool.object? a < kWord32

/-- The queues of both sides are ranked. -/
def AllRanked (b : TwoSides) (q : SideQueues) : Prop :=
  ∀ s : Side, s.Directional → ∀ t,
    Ranked b.orderPool.object? ((b.levels s).levels t).nextPriority (q s t)

/-! ## 3. One side changes -/

section SetSide

variable {b : TwoSides} {q : SideQueues} {s s₂ : Side} {l : PriceLevels} {pool : MemPool OrderNode}

@[simp] theorem setSide_orderPool : (b.setSide s l pool).orderPool = pool := by
  unfold setSide; split <;> rfl

@[simp] theorem setSide_levels : (b.setSide s l pool).levels s = l := by
  unfold setSide levels; split <;> rfl

theorem setSide_levels_of_ne (hs : s.Directional) (hs₂ : s₂.Directional) (hne : s₂ ≠ s) :
    (b.setSide s l pool).levels s₂ = b.levels s₂ := by
  rcases hs with rfl | rfl <;> rcases hs₂ with rfl | rfl <;> first | exact absurd rfl hne | rfl

namespace Inv

/-- No node is in two queues: it points back to one level only. -/
theorem once (h : b.Inv q) (hs : s.Directional) (hs₂ : s₂.Directional) {t t₂ a : Nat}
    (ha : a ∈ q s t) (ha₂ : a ∈ q s₂ t₂) : s = s₂ ∧ t = t₂ := by
  obtain ⟨n, hn, hl⟩ := ((h.rep s hs).2.level t).owned a ha
  obtain ⟨n₂, hn₂, hl₂⟩ := ((h.rep s₂ hs₂).2.level t₂).owned a ha₂
  obtain rfl := Option.some.inj (hn.symm.trans hn₂)
  rw [(h.rep s hs).1] at hl
  rw [(h.rep s₂ hs₂).1] at hl₂
  simpa using hl.symm.trans hl₂

/-- **One side changes**, at one tick.  The other side is framed. -/
theorem setSide (h : b.Inv q) (hs : s.Directional) {t : Nat} {queue live : List Nat}
    (hpool : pool.Inv live) (hlive : ∀ a, a ∈ live ↔ (q.set s t queue).Queued a)
    (hcap : pool.capacity = b.orderPool.capacity) (hside : l.side = s)
    (hrep : l.Rep pool.object? (Function.update (q s) t queue))
    (hother : ∀ s₂, s₂.Directional → s₂ ≠ s → ∀ t₂, ∀ a ∈ q s₂ t₂,
      pool.object? a = b.orderPool.object? a)
    (hsmall : ∀ t₂, ∀ a ∈ Function.update (q s) t queue t₂,
      Nodes.quantity pool.object? a < kWord32) :
    (b.setSide s l pool).Inv (q.set s t queue) where
  pool := ⟨live, by rwa [setSide_orderPool], hlive⟩
  capacity := by rw [setSide_orderPool, hcap, h.capacity]
  rep := fun s₂ hs₂ => by
    rw [setSide_orderPool]
    by_cases he : s₂ = s
    · subst he
      rw [setSide_levels, SideQueues.set, Function.update_self]
      exact ⟨hside, hrep⟩
    · rw [setSide_levels_of_ne hs hs₂ he, SideQueues.set, Function.update_of_ne he]
      exact ⟨(h.rep s₂ hs₂).1, (h.rep s₂ hs₂).2.congr (hother s₂ hs₂ he)⟩
  small := by
    rintro a ⟨s₂, t₂, hs₂, ha⟩
    rw [setSide_orderPool]
    by_cases he : s₂ = s
    · subst he
      rw [SideQueues.set, Function.update_self] at ha
      exact hsmall t₂ a ha
    · rw [SideQueues.set, Function.update_of_ne he] at ha
      rw [Nodes.quantity, hother s₂ hs₂ he t₂ a ha]
      exact h.small a ⟨s₂, t₂, hs₂, ha⟩

end Inv

theorem AllRanked.setSide (h : b.AllRanked q) (hs : s.Directional) {t : Nat} {queue : List Nat}
    (hother : ∀ s₂, s₂.Directional → s₂ ≠ s → ∀ t₂, ∀ a ∈ q s₂ t₂,
      pool.object? a = b.orderPool.object? a)
    (hranked : ∀ t₂, Ranked pool.object? (l.levels t₂).nextPriority
      (Function.update (q s) t queue t₂)) :
    (b.setSide s l pool).AllRanked (q.set s t queue) := by
  intro s₂ hs₂ t₂
  rw [setSide_orderPool]
  by_cases he : s₂ = s
  · subst he
    rw [setSide_levels, SideQueues.set, Function.update_self]
    exact hranked t₂
  · rw [setSide_levels_of_ne hs hs₂ he, SideQueues.set, Function.update_of_ne he]
    exact (h s₂ hs₂ t₂).congr fun a ha => by
      rw [Nodes.priority, hother s₂ hs₂ he t₂ a ha, Nodes.priority]

end SetSide

/-! ## 4. The three operations -/

section Calls

variable {b : TwoSides} {q : SideQueues}

/-- A new node is queued at its tick. -/
theorem queued_push {s : Side} (hs : s.Directional) (t x a : Nat) :
    (q.set s t (q s t ++ [x])).Queued a ↔ q.Queued a ∨ a = x := by
  constructor
  · rintro ⟨s₂, t₂, hs₂, ha⟩
    rw [SideQueues.set_apply] at ha
    split at ha
    · next he =>
      obtain ⟨rfl, rfl⟩ := he
      rcases List.mem_append.mp ha with ha | ha
      · exact .inl ⟨s₂, t₂, hs, ha⟩
      · exact .inr (List.mem_singleton.mp ha)
    · exact .inl ⟨s₂, t₂, hs₂, ha⟩
  · rintro (⟨s₂, t₂, hs₂, ha⟩ | rfl)
    · refine ⟨s₂, t₂, hs₂, ?_⟩
      rw [SideQueues.set_apply]
      split
      · next he =>
        obtain ⟨rfl, rfl⟩ := he
        exact List.mem_append_left _ ha
      · exact ha
    · refine ⟨s, t, hs, ?_⟩
      rw [SideQueues.set_apply, if_pos ⟨rfl, rfl⟩]
      simp

/-- A node that leaves its queue is in no queue. -/
theorem Inv.queued_remove (h : b.Inv q) {s : Side} (hs : s.Directional) {t x : Nat}
    {l r : List Nat} (hq : q s t = l ++ x :: r) (a : Nat) :
    (q.set s t (l ++ r)).Queued a ↔ q.Queued a ∧ a ≠ x := by
  have hx : x ∈ q s t := by simp [hq]
  have hnd := ((h.rep s hs).2.level t).nodup
  rw [hq, List.nodup_middle, List.nodup_cons] at hnd
  constructor
  · rintro ⟨s₂, t₂, hs₂, ha⟩
    rw [SideQueues.set_apply] at ha
    split at ha
    · next he =>
      obtain ⟨rfl, rfl⟩ := he
      refine ⟨⟨s₂, t₂, hs, ?_⟩, fun he => hnd.1 (he ▸ ha)⟩
      rw [hq, List.mem_append, List.mem_cons]
      exact (List.mem_append.mp ha).imp_right .inr
    · next he => exact ⟨⟨s₂, t₂, hs₂, ha⟩, fun hax => he (h.once hs₂ hs (hax ▸ ha) hx)⟩
  · rintro ⟨⟨s₂, t₂, hs₂, ha⟩, hne⟩
    refine ⟨s₂, t₂, hs₂, ?_⟩
    rw [SideQueues.set_apply]
    split
    · next he =>
      obtain ⟨rfl, rfl⟩ := he
      rw [hq, List.mem_append, List.mem_cons] at ha
      exact List.mem_append.mpr (ha.imp_right fun ha => ha.resolve_left hne)
    · exact ha

/-- **`AddOrder`** queues a new node when one is left. -/
theorem Inv.addOrder (h : b.Inv q) {s : Side} (hs : s.Directional) {t : Nat} (ht : t < kTickCount)
    (clientId clientOrderId marketOrderId : Nat) {quantity : Nat} (hquantity : quantity < kWord32)
    {live : List Nat} (hpool : b.orderPool.Inv live) (hlive : ∀ a, a ∈ live ↔ q.Queued a)
    (hlt : live.length < b.orderPool.capacity) :
    ∃ b' a, b.apply (.addOrder s t clientId clientOrderId marketOrderId quantity) = .ok b' ∧
      b'.Inv (q.set s t (q s t ++ [a])) ∧
      (b'.levels s).levels = Function.update (b.levels s).levels t
        (((b.levels s).levels t).push a quantity) ∧
      (b.AllRanked q → ((b.levels s).levels t).nextPriority + 1 < kWord64 →
        b'.AllRanked (q.set s t (q s t ++ [a]))) := by
  obtain ⟨hside, hrep⟩ := h.rep s hs
  have hsub : ∀ t a, a ∈ q s t → a ∈ live := fun t a ha => (hlive a).mpr ⟨s, t, hs, ha⟩
  obtain ⟨a, l, pool, hadd, hfresh, hpool', hcap, hside', hrep', hnew, hold, hlevels⟩ :=
    PriceLevels.addOrder_spec clientId clientOrderId marketOrderId quantity hpool hrep hsub ht hlt
  have hpriority : ∀ y ∈ live, Nodes.priority pool.object? y =
      Nodes.priority b.orderPool.object? y := fun y hy =>
    Nodes.priority_map (hold y hy) fun n => by split <;> rfl
  have hqty : ∀ y ∈ live, Nodes.quantity pool.object? y =
      Nodes.quantity b.orderPool.object? y := fun y hy =>
    Nodes.quantity_map (hold y hy) fun n => by split <;> rfl
  have hother : ∀ s₂, s₂.Directional → s₂ ≠ s → ∀ t₂, ∀ y ∈ q s₂ t₂,
      pool.object? y = b.orderPool.object? y := by
    intro s₂ hs₂ hne t₂ y hy
    have hlast : ¬ (q s t).getLast? = some y := fun he =>
      hne (h.once hs₂ hs hy (List.mem_of_getLast? he)).1
    rw [hold y ((hlive y).mpr ⟨s₂, t₂, hs₂, hy⟩)]
    cases b.orderPool.object? y <;> simp [hlast]
  refine ⟨b.setSide s l pool, a, ?_, ?_, ?_, fun hranked hnext => ?_⟩
  · simp only [apply, hadd, ok_bind]
  · refine h.setSide hs hpool' (fun y => ?_) hcap (hside'.trans hside) hrep' hother fun t₂ y hy =>
      ?_
    · rw [queued_push hs, ← hlive, List.mem_append, List.mem_singleton]
    · by_cases hya : y = a
      · rw [hya, Nodes.quantity_eq hnew]
        exact hquantity
      · have hy' : y ∈ q s t₂ := by
          by_cases ht₂ : t₂ = t
          · subst ht₂
            simpa [hya] using hy
          · rwa [Function.update_of_ne ht₂] at hy
        rw [hqty y (hsub t₂ y hy')]
        exact h.small y ⟨s, t₂, hs, hy'⟩
  · rw [setSide_levels, hlevels]
  · refine hranked.setSide hs hother fun t₂ => ?_
    have hold₂ := (hranked s hs t₂).congr fun y hy => hpriority y (hsub t₂ y hy)
    rw [hlevels]
    by_cases ht₂ : t₂ = t
    · subst ht₂
      have hcount : (((b.levels s).levels t₂).push a quantity).nextPriority =
          ((b.levels s).levels t₂).nextPriority + 1 := Nat.mod_eq_of_lt hnext
      rw [Function.update_self, Function.update_self, hcount]
      exact hold₂.push (by rw [Nodes.priority, hnew]; rfl)
    · rw [Function.update_of_ne ht₂, Function.update_of_ne ht₂]
      exact hold₂

/-- **`ApplyFill`** changes no queue. -/
theorem Inv.applyFill (h : b.Inv q) {s : Side} (hs : s.Directional) {t x e : Nat} (hx : x ∈ q s t)
    (he : e ≤ Nodes.quantity b.orderPool.object? x) :
    ∃ b', b.apply (.applyFill s x e) = .ok b' ∧ b'.Inv q ∧ (b.AllRanked q → b'.AllRanked q) := by
  obtain ⟨live, hpool, hlive⟩ := h.pool
  obtain ⟨hside, hrep⟩ := h.rep s hs
  obtain ⟨n, hn, -⟩ := (hrep.level t).owned x hx
  rw [Nodes.quantity_eq hn] at he
  obtain ⟨l, hfill, hside', -, hrep', hnext⟩ := PriceLevels.applyFill_spec hrep hx hn he
  have hset : q.set s t (q s t) = q := by
    rw [SideQueues.set, Function.update_eq_self, Function.update_eq_self]
  have hother : ∀ s₂, s₂.Directional → s₂ ≠ s → ∀ t₂, ∀ y ∈ q s₂ t₂, (b.orderPool.put x
      { n with remainingQuantity := n.remainingQuantity - e }).object? y = b.orderPool.object? y :=
    fun s₂ hs₂ hne t₂ y hy =>
      MemPool.object?_put_of_ne fun hyx => hne (h.once hs₂ hs (hyx ▸ hy) hx).1
  have hself : Function.update (q s) t (q s t) = q s := Function.update_eq_self t (q s)
  refine ⟨b.setSide s l (b.orderPool.put x
    { n with remainingQuantity := n.remainingQuantity - e }), ?_, ?_, fun hranked => ?_⟩
  · simp only [apply, hfill, ok_bind]
  · rw [← hset]
    refine h.setSide hs (hpool.put ((hlive x).mpr ⟨s, t, hs, hx⟩)) (fun y => by rw [hset, hlive])
      rfl (hside'.trans hside) (by rwa [hself]) hother fun t₂ y hy => ?_
    rw [hself] at hy
    have hsmall := h.small y ⟨s, t₂, hs, hy⟩
    by_cases hyx : y = x
    · subst hyx
      rw [Nodes.quantity_eq hn] at hsmall
      rw [Nodes.quantity_eq (MemPool.object?_put_self)]
      exact (Nat.sub_le _ _).trans_lt hsmall
    · rwa [Nodes.quantity, MemPool.object?_put_of_ne hyx]
  · rw [← hset]
    refine hranked.setSide hs hother fun t₂ => ?_
    rw [hself, hnext]
    refine (hranked s hs t₂).congr fun y _ => ?_
    by_cases hyx : y = x
    · subst hyx
      rw [Nodes.priority, Nodes.priority, MemPool.object?_put_self, hn]
    · rw [Nodes.priority, MemPool.object?_put_of_ne hyx, Nodes.priority]

/-- **`RemoveOrder`** takes one node out of its queue. -/
theorem Inv.removeOrder (h : b.Inv q) {s : Side} (hs : s.Directional) {t x : Nat} {l r : List Nat}
    (hq : q s t = l ++ x :: r) :
    ∃ b', b.apply (.removeOrder s x) = .ok b' ∧ b'.Inv (q.set s t (l ++ r)) ∧
      (l ++ r ≠ [] → ((b'.levels s).levels t).nextPriority =
        ((b.levels s).levels t).nextPriority) ∧
      (b.AllRanked q → b'.AllRanked (q.set s t (l ++ r))) := by
  obtain ⟨live, hpool, hlive⟩ := h.pool
  obtain ⟨hside, hrep⟩ := h.rep s hs
  have hx : x ∈ q s t := by simp [hq]
  have hsub : ∀ t a, a ∈ q s t → a ∈ live := fun t a ha => (hlive a).mpr ⟨s, t, hs, ha⟩
  obtain ⟨s', pool, hremove, hpool', hcap, hside', hrep', hold, hnext⟩ :=
    PriceLevels.removeOrder_spec hpool hrep hsub hq
  have hmem := h.queued_remove hs hq
  have hpriority : ∀ y, y ≠ x → Nodes.priority pool.object? y =
      Nodes.priority b.orderPool.object? y := fun y hy =>
    Nodes.priority_map (hold y hy) fun n => rfl
  have hqty : ∀ y, y ≠ x → Nodes.quantity pool.object? y =
      Nodes.quantity b.orderPool.object? y := fun y hy =>
    Nodes.quantity_map (hold y hy) fun n => rfl
  have hother : ∀ s₂, s₂.Directional → s₂ ≠ s → ∀ t₂, ∀ y ∈ q s₂ t₂,
      pool.object? y = b.orderPool.object? y := by
    intro s₂ hs₂ hne t₂ y hy
    have hnot : y ∉ q s t := fun hy' => hne (h.once hs₂ hs hy hy').1
    rw [hq, List.mem_append, List.mem_cons, not_or, not_or] at hnot
    have hlast : ¬ l.getLast? = some y := fun he => hnot.1 (List.mem_of_getLast? he)
    have hhead : ¬ r.head? = some y := fun he => hnot.2.2 (List.mem_of_head? he)
    rw [hold y hnot.2.1]
    cases b.orderPool.object? y <;> simp [hlast, hhead]
  -- what stays queued on the side
  have hrest : ∀ t₂, ∀ y ∈ Function.update (q s) t (l ++ r) t₂, q.Queued y ∧ y ≠ x :=
    fun t₂ y hy => (hmem y).mp ⟨s, t₂, hs, by rwa [SideQueues.set, Function.update_self]⟩
  refine ⟨b.setSide s s' pool, ?_, ?_, fun hne => ?_, fun hranked => ?_⟩
  · simp only [apply, hremove, ok_bind]
  · refine h.setSide hs hpool' (fun y => ?_) hcap (hside'.trans hside) hrep' hother fun t₂ y hy =>
      ?_
    · rw [hmem, ← hlive, hpool.nodup.mem_erase_iff, and_comm]
    · obtain ⟨hy, hne⟩ := hrest t₂ y hy
      rw [hqty y hne]
      exact h.small y hy
  · rw [setSide_levels, hnext, if_neg fun hc => hne hc.2]
  · refine hranked.setSide hs hother fun t₂ => ?_
    rw [hnext]
    by_cases ht₂ : t₂ = t
    · subst ht₂
      have hr := hranked s hs t₂
      rw [hq] at hr
      rw [Function.update_self]
      split
      · next hc =>
        rw [hc.2]
        exact Ranked.nil
      · refine (hr.sublist (?_ : (l ++ r).Sublist _)).congr fun y hy =>
          hpriority y (hrest t₂ y ?_).2
        · exact (List.Sublist.refl l).append (List.sublist_cons_self x r)
        · rwa [Function.update_self]
    · have hkeep : ∀ y ∈ q s t₂, y ≠ x := fun y hy hyx => ht₂ (h.once hs hs (hyx ▸ hy) hx).2
      rw [if_neg fun hc => ht₂ hc.1, Function.update_of_ne ht₂]
      exact (hranked s hs t₂).congr fun y hy => hpriority y (hkeep y hy)

/-- The queue that the links of the code spell out. -/
theorem Inv.queue_eq (h : b.Inv q) {s : Side} (hs : s.Directional) (t : Nat) :
    b.queue s t = q s t ∧ (q s t).length ≤ kMaxOrderIds := by
  obtain ⟨live, hpool, hlive⟩ := h.pool
  have hlev := (h.rep s hs).2.level t
  have hlen : (q s t).length ≤ kMaxOrderIds := by
    have hsub : q s t ⊆ live := fun a ha => (hlive a).mpr ⟨s, t, hs, ha⟩
    calc (q s t).length ≤ live.length := (hlev.nodup.subperm hsub).length_le
      _ ≤ b.orderPool.capacity := hpool.length_le
      _ = kMaxOrderIds := h.capacity
  obtain ⟨hfirst, -, hseg⟩ := hlev.chain
  refine ⟨?_, hlen⟩
  rw [queue, hfirst]
  exact hseg.walk_eq hlen

/-- **A permitted call** returns unless every node of the pool is in use. -/
theorem Inv.step (h : b.Inv q) {call : LevelCall} (hcall : b.Permitted call) :
    b.apply call = .error (.assertion "Memory pool exhausted") ∨
      ∃ b' q', b.apply call = .ok b' ∧ b'.Inv q' ∧
        (b.AllRanked q → b.KeepsRank call → b'.AllRanked q') := by
  cases call with
  | addOrder s tick clientId clientOrderId marketOrderId quantity =>
    obtain ⟨hs, ⟨hlow, hhigh⟩, -, hquantity⟩ := hcall
    obtain ⟨t, rfl⟩ := Int.eq_ofNat_of_zero_le hlow
    have ht : t < kTickCount := Int.ofNat_lt.mp hhigh
    obtain ⟨live, hpool, hlive⟩ := h.pool
    rcases (hpool.length_le).lt_or_eq with hlt | hfull
    · obtain ⟨b', a, happly, h', -, hranked⟩ := h.addOrder hs ht clientId clientOrderId
        marketOrderId hquantity hpool hlive hlt
      exact .inr ⟨b', _, happly, h', hranked⟩
    · left
      simp only [apply,
        PriceLevels.addOrder_full clientId clientOrderId marketOrderId quantity hpool
        ht hfull, error_bind]
  | applyFill s x e =>
    obtain ⟨hs, ⟨t, hx⟩, he⟩ := hcall
    rw [(h.queue_eq hs t).1] at hx
    obtain ⟨b', happly, h', hranked⟩ := h.applyFill hs hx he
    exact .inr ⟨b', q, happly, h', fun hr _ => hranked hr⟩
  | removeOrder s x =>
    obtain ⟨hs, t, hx⟩ := hcall
    rw [(h.queue_eq hs t).1] at hx
    obtain ⟨l, r, hq⟩ := List.append_of_mem hx
    obtain ⟨b', happly, h', -, hranked⟩ := h.removeOrder hs hq
    exact .inr ⟨b', _, happly, h', fun hr _ => hranked hr⟩

theorem sum_lt {α : Type} {l : List α} {f : α → Nat} (hlen : l.length ≤ kMaxOrderIds)
    (hsmall : ∀ a ∈ l, f a < kWord32) : (l.map f).sum < kWord64 := by
  have hle : (l.map f).sum ≤ (l.map f).length • (kWord32 - 1) := by
    refine List.sum_le_card_nsmul _ _ fun y hy => ?_
    obtain ⟨a, ha, rfl⟩ := List.mem_map.mp hy
    exact Nat.le_sub_one_of_lt (hsmall a ha)
  rw [List.length_map, nsmul_eq_mul, Nat.cast_id] at hle
  have hmul := Nat.mul_le_mul_right (kWord32 - 1) hlen
  have hword : kMaxOrderIds * (kWord32 - 1) < kWord64 := by decide
  omega

theorem Inv.formedAs (h : b.Inv q) (hranked : b.AllRanked q) : b.FormedAs q where
  rep := h.rep
  ranked := hranked
  total := fun s hs t => by
    rw [((h.rep s hs).2.level t).total]
    exact Nat.mod_eq_of_lt (sum_lt (h.queue_eq hs t).2 fun a ha => h.small a ⟨s, t, hs, ha⟩)
  inUse := by
    obtain ⟨live, hpool, hlive⟩ := h.pool
    obtain ⟨free, hfree, hperm⟩ := hpool.slots
    have hnd := List.nodup_append.mp (hperm.nodup_iff.mpr List.nodup_range)
    refine ⟨free, hfree, fun a => ?_⟩
    rw [← hlive, ← List.mem_range, ← hperm.mem_iff, List.mem_append]
    constructor
    · rintro ⟨ha | ha, hnot⟩
      · exact ha
      · exact absurd ha hnot
    · exact fun ha => ⟨.inl ha, fun hf => hnd.2.2 a ha a hf rfl⟩
  once := fun s s' hs hs' t t' a ha ha' => h.once hs hs' ha ha'
  nodup := fun s hs t => ((h.rep s hs).2.level t).nodup

end Calls

/-! ## 5. Runs -/

theorem init_inv : init.Inv fun _ _ => [] where
  pool := ⟨[], MemPool.init_inv _, fun a => by simp [SideQueues.Queued]⟩
  capacity := rfl
  rep := by rintro s (rfl | rfl) <;> exact ⟨rfl, PriceLevels.init_rep _ _⟩
  small := by simp [SideQueues.Queued]

theorem init_allRanked : init.AllRanked fun _ _ => [] := fun _ _ _ => Ranked.nil

/-- **The two sides are well formed after every call** of a run in which the priority counter of no
level wraps, and a permitted call is refused only by a pool that is in use to the last node.  The
calls may come in any order, also in ones that no matching would make.  `KeepsRank` is needed: the
counter restarts only when its level runs empty, and past `2 ^ 64` orders the newest order of a
level has the smallest priority (`not_always_formed`). -/
theorem always_formed {calls : List LevelCall}
    (hcalls : Run.EachStep apply (fun b call => b.Permitted call ∧ b.KeepsRank call) init calls) :
    Run.Always apply (fun b => b.Formed ∧ ∀ call, b.Permitted call →
      b.apply call = .error (.assertion "Memory pool exhausted") ∨ ∃ b', b.apply call = .ok b')
      init calls := by
  have halways := hcalls.always (I := fun b => ∃ q, b.Inv q ∧ b.AllRanked q) ?_
    ⟨_, init_inv, init_allRanked⟩
  · refine halways.mono fun b ⟨q, h, hranked⟩ => ⟨⟨q, h.formedAs hranked⟩, fun call hcall => ?_⟩
    exact (h.step hcall).imp_right fun ⟨b', _, happly, _⟩ => ⟨b', happly⟩
  · rintro b call b' ⟨q, h, hranked⟩ ⟨hcall, hkeeps⟩ happly
    rcases h.step hcall with hfull | ⟨b₂, q', happly₂, h', hranked'⟩
    · rw [hfull] at happly
      cases happly
    · obtain rfl := Except.ok.inj (happly.symm.trans happly₂)
      exact ⟨q', h', hranked' hranked hkeeps⟩

/-- An order on each side, a partial fill, and a removal. -/
theorem always_formed_recycled :
    Run.Always apply (fun b => b.Formed ∧ ∀ call, b.Permitted call →
      b.apply call = .error (.assertion "Memory pool exhausted") ∨ ∃ b', b.apply call = .ok b')
      init [.addOrder .buy 10 1 1 1 5, .applyFill .buy 0 2, .removeOrder .buy 0,
        .addOrder .sell 12 1 1 2 4] := by
  refine always_formed ?_
  intro b hb
  obtain rfl := Except.ok.inj hb
  refine ⟨⟨⟨.inl rfl, by decide⟩, by decide⟩, fun b hb => ?_⟩
  obtain rfl := Except.ok.inj hb
  refine ⟨⟨⟨.inl rfl, ⟨10, by decide +kernel⟩, by decide⟩, trivial⟩, fun b hb => ?_⟩
  obtain rfl := Except.ok.inj hb
  refine ⟨⟨⟨.inl rfl, ⟨10, by decide +kernel⟩⟩, trivial⟩, fun b hb => ?_⟩
  obtain rfl := Except.ok.inj hb
  exact ⟨⟨⟨.inr rfl, by decide⟩, by decide⟩, trivial⟩

/-! ## 6. A level that never runs empty -/

/-- One order rests, at the lowest bid tick. -/
def solo (a : Nat) : SideQueues := SideQueues.set (fun _ _ => []) .buy 0 [a]

theorem solo_set (a : Nat) (queue : List Nat) :
    (solo a).set .buy 0 queue = SideQueues.set (fun _ _ => []) .buy 0 queue := by
  funext s t
  rw [SideQueues.set_apply, solo, SideQueues.set_apply, SideQueues.set_apply]
  split <;> rfl

theorem solo_self (a : Nat) : solo a .buy 0 = [a] := by
  rw [solo, SideQueues.set_apply, if_pos ⟨rfl, rfl⟩]

theorem queued_solo {a y : Nat} : (solo a).Queued y ↔ y = a := by
  have h := queued_push (q := fun _ _ => []) (.inl rfl : Side.buy.Directional) 0 a y
  simpa [solo, SideQueues.Queued] using h

/-- The lowest bid level. -/
def lowestBid (b : TwoSides) : FIFOLevel := (b.levels .buy).levels 0

/-- A second order joins. -/
theorem Inv.join {b : TwoSides} {a : Nat} (h : b.Inv (solo a)) :
    ∃ b' a', b.apply (.addOrder .buy 0 1 1 1 1) = .ok b' ∧
      b'.Inv ((solo a).set .buy 0 [a, a']) ∧ b'.lowestBid = b.lowestBid.push a' 1 := by
  obtain ⟨live, hpool, hlive⟩ := h.pool
  have hsub : live ⊆ [a] := fun y hy => by
    rw [List.mem_singleton]
    exact queued_solo.mp ((hlive y).mp hy)
  have hlen : live.length ≤ 1 := (hpool.nodup.subperm hsub).length_le
  have hlt : live.length < b.orderPool.capacity := by
    rw [h.capacity]
    exact hlen.trans_lt (by decide)
  obtain ⟨b', a', happly, h', hlevels, -⟩ := h.addOrder (.inl rfl : Side.buy.Directional)
    (t := 0) (by decide) 1 1 1 (by decide : 1 < kWord32) hpool hlive hlt
  rw [solo_self] at h'
  exact ⟨b', a', happly, h', by rw [lowestBid, hlevels, Function.update_self, lowestBid]⟩

/-- A second order joins and the first one leaves: the counter has advanced, the level was never
empty. -/
theorem Inv.lap {b : TwoSides} {a : Nat} (h : b.Inv (solo a)) :
    ∃ b₁ b₂ a', b.apply (.addOrder .buy 0 1 1 1 1) = .ok b₁ ∧
      b₁.Permitted (.removeOrder .buy a) ∧ b₁.apply (.removeOrder .buy a) = .ok b₂ ∧
      b₂.Inv (solo a') ∧
      b₂.lowestBid.nextPriority = add64 b.lowestBid.nextPriority 1 := by
  have hbuy : Side.buy.Directional := .inl rfl
  obtain ⟨b₁, a', happly, h₁, hlevel⟩ := h.join
  have hself : (solo a).set .buy 0 [a, a'] .buy 0 = [] ++ a :: [a'] := by
    rw [SideQueues.set_apply, if_pos ⟨rfl, rfl⟩]
    rfl
  obtain ⟨b₂, happly₂, h₂, hcounter, -⟩ := h₁.removeOrder hbuy hself
  refine ⟨b₁, b₂, a', happly, ⟨hbuy, 0, ?_⟩, happly₂, ?_, ?_⟩
  · rw [(h₁.queue_eq hbuy 0).1, hself]
    simp
  · rw [solo_set] at h₂
    have hset : (SideQueues.set (fun _ _ => []) .buy 0 [a, a']).set .buy 0 [a'] = solo a' := by
      funext s t
      rw [SideQueues.set_apply, SideQueues.set_apply, solo, SideQueues.set_apply]
      split <;> rfl
    rwa [List.nil_append, hset] at h₂
  · rw [lowestBid, hcounter (by simp)]
    change b₁.lowestBid.nextPriority = _
    rw [hlevel]
    rfl

/-- A level with an order in it and no priority left to give is not well formed. -/
theorem not_formed {b : TwoSides} (hfirst : b.lowestBid.firstOrder ≠ none)
    (hnext : b.lowestBid.nextPriority = 0) : ¬ b.Formed := by
  rintro ⟨q, h⟩
  have hbuy : Side.buy.Directional := .inl rfl
  have hhead := (((h.rep .buy hbuy).2.level 0).chain).1
  obtain ⟨x, hx⟩ := Option.ne_none_iff_exists'.mp hfirst
  have hmem : x ∈ q .buy 0 := List.mem_of_head? (hhead.symm.trans hx)
  have hlt := (h.ranked .buy hbuy 0).below x hmem
  have hzero : ((b.levels .buy).levels 0).nextPriority = 0 := hnext
  omega

/-- As many laps as the counter has values left end in a level that is not well formed. -/
theorem exists_not_formed : ∀ (n : Nat) {b : TwoSides} {a : Nat}, b.Inv (solo a) →
    b.lowestBid.nextPriority + n + 1 = kWord64 →
    ∃ calls, Run.EachStep apply Permitted b calls ∧ ¬ Run.Always apply Formed b calls
  | 0, b, a, h, hcount => by
    obtain ⟨b', a', happly, -, hlevel⟩ := h.join
    refine ⟨[.addOrder .buy 0 1 1 1 1], fun b₂ _ => ⟨⟨.inl rfl, by decide⟩, trivial⟩, fun hall =>
      ?_⟩
    refine not_formed ?_ ?_ (hall.2 b' happly)
    · rw [hlevel, FIFOLevel.push]
      cases hf : b.lowestBid.firstOrder <;> simp [FIFOLevel.isEmpty, hf]
    · rw [hlevel]
      change add64 b.lowestBid.nextPriority 1 = 0
      rw [add64, show b.lowestBid.nextPriority + 1 = kWord64 by omega, Nat.mod_self]
  | n + 1, b, a, h, hcount => by
    obtain ⟨b₁, b₂, a', happly₁, hpermitted, happly₂, h₂, hcounter⟩ := h.lap
    have hnext : add64 b.lowestBid.nextPriority 1 = b.lowestBid.nextPriority + 1 :=
      Nat.mod_eq_of_lt (by omega)
    obtain ⟨calls, heach, hnot⟩ := exists_not_formed n h₂ (by rw [hcounter, hnext]; omega)
    refine ⟨.addOrder .buy 0 1 1 1 1 :: .removeOrder .buy a :: calls, ?_, fun hall => ?_⟩
    · intro b₁' happly₁'
      obtain rfl := Except.ok.inj (happly₁.symm.trans happly₁')
      refine ⟨⟨.inl rfl, by decide⟩, fun b₂' happly₂' => ?_⟩
      obtain rfl := Except.ok.inj (happly₂.symm.trans happly₂')
      exact ⟨hpermitted, heach⟩
    · exact hnot ((hall.2 b₁ happly₁).2 b₂ happly₂)

/-- **A priority counter that wraps breaks the order of its level**: a level that never runs empty
gives out its last priority to the order number `2 ^ 64 - 1`. -/
theorem not_always_formed : ¬ ∀ calls : List LevelCall,
    Run.EachStep apply Permitted init calls → Run.Always apply Formed init calls := by
  intro hall
  obtain ⟨b, a, happly, hinv, hlevels, -⟩ := init_inv.addOrder (.inl rfl : Side.buy.Directional)
    (t := 0) (by decide) 1 1 1 (by decide : 1 < kWord32) (MemPool.init_inv _)
    (fun a => by simp [SideQueues.Queued]) (by decide)
  have hcounter : b.lowestBid.nextPriority = 2 := by
    rw [lowestBid, hlevels, Function.update_self]
    rfl
  obtain ⟨calls, heach, hnot⟩ := exists_not_formed (kWord64 - 3) (b := b) (a := a) hinv
    (by rw [hcounter]; rfl)
  refine hnot ((hall (.addOrder .buy 0 1 1 1 1 :: calls) fun b' happly' => ?_).2 b happly)
  obtain rfl := Except.ok.inj (happly.symm.trans happly')
  exact ⟨⟨.inl rfl, by decide⟩, heach⟩

end TwoSides

end YQuant
