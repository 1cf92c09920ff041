import Mathlib.Algebra.Order.BigOperators.Group.Finset
import Mathlib.Data.List.Chain
import Mathlib.Data.List.Nodup

/-!
# Paths along which a rank grows, and rooted trees

Following a successor function from node to node reaches a goal without visiting a node twice, if
the rank of the next node is higher than that of the node as long as the goal is not reached, and
ranks are bounded (`exists_route`). In a tree on the numbers below `size` the way to the root 0 goes
down in depth: a property of the root that goes from parents to children holds of all nodes
(`SpanTree.node_induction`).
-/

set_option autoImplicit false

namespace CharmRuntime.Lib

open List

variable {α : Type} {next : α → α} {goal : α → Prop} {a : α}

/-- The nodes `path` from `a` to the first goal: each is the successor of the one before, and none
occurs twice. -/
structure IsRoute (next : α → α) (goal : α → Prop) (a : α) (path : List α) : Prop where
  head : path.head? = some a
  chain : path.IsChain fun a b => next a = b
  nodup : path.Nodup
  last : ∃ g, path.getLast? = some g ∧ goal g

theorem IsRoute.of_goal (h : goal a) : IsRoute next goal a [a] where
  head := rfl
  chain := isChain_singleton a
  nodup := nodup_singleton a
  last := ⟨a, rfl, h⟩

theorem IsRoute.cons {path : List α} (h : IsRoute next goal (next a) path) (ha : a ∉ path) :
    IsRoute next goal a (a :: path) := by
  obtain ⟨g, hlast, hgoal⟩ := h.last
  refine ⟨rfl, ?_, nodup_cons.2 ⟨ha, h.nodup⟩, g, ?_, hgoal⟩
  · rw [isChain_cons]
    refine ⟨fun b hb => ?_, h.chain⟩
    rw [h.head] at hb
    exact Option.mem_some_iff.1 hb
  · rw [getLast?_cons, hlast]
    rfl

/-- Two nodes that are each other's successors are on no route, unless one is the goal. -/
theorem not_isRoute_of_loop {b : α} (hab : next a = b) (hba : next b = a) (ha : ¬ goal a)
    (hb : ¬ goal b) (path : List α) : ¬ IsRoute next goal a path := by
  rintro ⟨hhead, hchain, hnd, g, hlast, hgoal⟩
  match path with
  | [] => cases hhead
  | [c] =>
    cases hhead
    cases hlast
    exact ha hgoal
  | [c, d] =>
    cases hhead
    cases hlast
    rw [isChain_cons_cons, hab] at hchain
    exact hb (hchain.1 ▸ hgoal)
  | c :: d :: f :: rest =>
    cases hhead
    rw [isChain_cons_cons, isChain_cons_cons, hab] at hchain
    obtain ⟨rfl, rfl, -⟩ := hchain
    rw [hba] at hnd
    simp at hnd

variable {rank : α → Nat} {live : α → Prop} {bound : Nat}

/-- A route from every live node, with an induction on how far its rank is from the bound: apart
from the goal, the nodes that follow have higher ranks. -/
theorem exists_route (hrank : ∀ a, live a → rank a ≤ bound)
    (hstep : ∀ a, live a → ¬ goal a → goal (next a) ∨ live (next a) ∧ rank a < rank (next a))
    (ha : live a) : ∃ path, IsRoute next goal a path ∧ ∀ b ∈ path, goal b ∨ rank a ≤ rank b := by
  induction hd : bound - rank a using Nat.strong_induction_on generalizing a with
  | _ d ih =>
    by_cases hgoal : goal a
    · exact ⟨[a], .of_goal hgoal, fun b hb => .inl (mem_singleton.1 hb ▸ hgoal)⟩
    -- the rest of the route, from the successor
    obtain ⟨path, hpath, hranks⟩ : ∃ path, IsRoute next goal (next a) path ∧
        ∀ b ∈ path, goal b ∨ rank a < rank b := by
      rcases hstep a ha hgoal with hnext | ⟨hnext, hlt⟩
      · exact ⟨[next a], .of_goal hnext, fun b hb => .inl (mem_singleton.1 hb ▸ hnext)⟩
      · have hle := hrank _ hnext
        obtain ⟨path, hpath, hranks⟩ := ih (bound - rank (next a)) (by omega) hnext rfl
        exact ⟨path, hpath, fun b hb => (hranks b hb).imp_right hlt.trans_le⟩
    refine ⟨a :: path, hpath.cons fun hmem => ?_, ?_⟩
    · rcases hranks a hmem with h | h
      · exact hgoal h
      · exact lt_irrefl _ h
    · exact forall_mem_cons.2 ⟨.inr le_rfl, fun b hb => (hranks b hb).imp_right le_of_lt⟩

/-! ## Rooted trees -/

/-- A rooted tree. The depth is there only to say that there are no cycles. -/
structure SpanTree where
  size : Nat
  parent : Nat → Nat
  children : Nat → List Nat
  depth : Nat → Nat
  size_pos : 0 < size
  nodup : ∀ p, (children p).Nodup
  mem_children : ∀ {p q : Nat}, q ∈ children p ↔ q ≠ 0 ∧ q < size ∧ parent q = p
  parent_lt : ∀ {q : Nat}, q ≠ 0 → q < size → parent q < size
  depth_parent : ∀ {q : Nat}, q ≠ 0 → q < size → depth (parent q) < depth q

namespace SpanTree

variable (t : SpanTree) {p q : Nat}

theorem parent_ne (hq : q ≠ 0) (hlt : q < t.size) : t.parent q ≠ q := by
  intro h
  have hdepth := t.depth_parent hq hlt
  rw [h] at hdepth
  exact lt_irrefl _ hdepth

/-- From the root to all nodes. -/
theorem node_induction {P : Nat → Prop} (hroot : P 0)
    (hchild : ∀ q, q ≠ 0 → q < t.size → P (t.parent q) → P q) (hq : q < t.size) : P q := by
  induction hd : t.depth q using Nat.strong_induction_on generalizing q with
  | _ d ih =>
    by_cases hzero : q = 0
    · exact hzero ▸ hroot
    · have hdepth := t.depth_parent hzero hq
      exact hchild q hzero hq (ih _ (hd ▸ hdepth) (t.parent_lt hzero hq) rfl)

/-- The children as a finite set. -/
def childSet (p : Nat) : Finset Nat := (t.children p).toFinset

theorem mem_childSet : q ∈ t.childSet p ↔ q ≠ 0 ∧ q < t.size ∧ t.parent q = p := by
  rw [childSet, List.mem_toFinset, t.mem_children]

theorem card_childSet (p : Nat) : (t.childSet p).card = (t.children p).length :=
  List.toFinset_card_of_nodup (t.nodup p)

end SpanTree

end CharmRuntime.Lib
