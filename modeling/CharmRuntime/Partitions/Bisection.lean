import Mathlib.Data.List.Basic
import Mathlib.Algebra.Order.Ring.Int

/-!
# Partitions by recursive bisection

`recursive_bisect` hands a range of nodes to a range of partitions. It sorts the nodes along their
longest dimension, gives about half of them to the first partitions, and goes on with both halves; a
single partition gets what is left. The partitions of the first half are chosen one after the other
as long as that brings their size nearer to the half.

As the sizes are positive, the first partition is always chosen and the last one never is
(`partSplit_ne_none`). So neither abort is reached, and each partition gets its own part of the list
of nodes (`bisection_hands_out_blocks`).
-/

set_option autoImplicit false

namespace CharmRuntime.Partitions

open List

/-- The five coordinates of a node. -/
abbrev Coords := Nat → Nat → Int

/-- `node_sortop_topo`: the first dimension in which the nodes differ decides, and at last their
numbers. -/
def nodeLess (coords : Coords) : List Nat → Nat → Nat → Bool
  | [], node1, node2 => node1 < node2
  | d :: sortdims, node1, node2 =>
    if coords node1 d ≠ coords node2 d then coords node1 d < coords node2 d
    else nodeLess coords sortdims node1 node2

/-- `sortLongest`. The lower bits of `tlens` are the dimensions. -/
def sortLongest (coords : Coords) : List Nat → List Nat
  | [] => []
  | node :: nodes =>
    let tmins (i : Nat) :=
      (node :: nodes).foldl (fun m v => if coords v i < m then coords v i else m) (coords node i)
    let tmaxs (i : Nat) :=
      (node :: nodes).foldl (fun m v => if coords v i > m then coords v i else m) (coords node i)
    let tlens := (range 5).map fun i => (tmaxs i - tmins i + 1) * 8 + (4 - i)
    let sortdims := ((tlens.mergeSort (· ≤ ·)).map fun t => (4 - t % 8).toNat).reverse
    (node :: nodes).mergeSort fun node1 node2 => !nodeLess coords sortdims node2 node1

/-- The loop that looks for `part_split`: how many partitions are before it, and the sum of their
sizes. -/
def splitLoop (nsplit : Nat) : List Nat → Nat → Nat × Nat
  | [], ncount => (0, ncount)
  | ps :: parts, ncount =>
    if ((ncount : Int) + ps - nsplit).natAbs < ((ncount : Int) - nsplit).natAbs then
      let r := splitLoop nsplit parts (ncount + ps)
      (r.1 + 1, r.2)
    else (0, ncount)

theorem splitLoop_spec (nsplit : Nat) (parts : List Nat) (ncount : Nat) :
    (splitLoop nsplit parts ncount).1 ≤ parts.length ∧
      (splitLoop nsplit parts ncount).2 =
        ncount + (parts.take (splitLoop nsplit parts ncount).1).sum := by
  induction parts generalizing ncount with
  | nil => exact ⟨Nat.le_refl _, rfl⟩
  | cons ps parts ih =>
    rw [splitLoop]
    split
    · obtain ⟨hle, hsum⟩ := ih (ncount + ps)
      refine ⟨Nat.succ_le_succ hle, ?_⟩
      rw [hsum, take_succ_cons, sum_cons, Nat.add_assoc]
    · exact ⟨Nat.zero_le _, rfl⟩

/-- `part_split` and the number of nodes before it. The abort is `none`. -/
def partSplit (nnodes : Nat) (parts : List Nat) : Option (Nat × Nat) :=
  let split := splitLoop ((nnodes + 1) / 2) parts 0
  if split.1 = 0 ∨ split.1 = parts.length then none else some split

theorem partSplit_bounds {nnodes : Nat} {parts : List Nat} {split : Nat × Nat}
    (h : partSplit nnodes parts = some split) :
    0 < split.1 ∧ split.1 < parts.length ∧ split.2 = (parts.take split.1).sum := by
  obtain ⟨hne, heq⟩ := Option.ite_none_left_eq_some.1 h
  obtain ⟨hle, hsum⟩ := splitLoop_spec ((nnodes + 1) / 2) parts 0
  rw [Option.some.inj heq] at hne hle hsum
  exact ⟨by omega, by omega, by omega⟩

/-- A partition with the range of `procList` that it gets. -/
structure Leaf where
  part : Nat
  nodeBegin : Nat
  nodeEnd : Nat
  deriving DecidableEq, Repr

/-- `recursive_bisect` of the partitions from `partBegin` on and the nodes from `nodeBegin` on: the
nodes in their new order, and the ranges of the partitions. The aborts are `none`. -/
def recursiveBisect (coords : Coords) (partBegin : Nat) (parts : List Nat) (nodeBegin : Nat)
    (nodes : List Nat) : Option (List Nat × List Leaf) :=
  if parts.length = 1 then
    if parts.headD 0 ≠ nodes.length then none
    else some (sortLongest coords nodes, [⟨partBegin, nodeBegin, nodeBegin + nodes.length⟩])
  else
    match _h : partSplit nodes.length parts with
    | none => none
    | some split =>
      let sorted := sortLongest coords nodes
      (recursiveBisect coords partBegin (parts.take split.1) nodeBegin (sorted.take split.2)).bind
          fun l =>
        (recursiveBisect coords (partBegin + split.1) (parts.drop split.1) (nodeBegin + split.2)
          (sorted.drop split.2)).map fun r => (l.1 ++ r.1, l.2 ++ r.2)
termination_by parts.length
decreasing_by
  all_goals
    obtain ⟨hpos, hlt, -⟩ := partSplit_bounds _h
    simp only [length_take, length_drop]
    omega

/-- `getRecursiveBisectionList` for partitions of the given sizes. -/
def getRecursiveBisectionList (coords : Coords) (n : Nat) (sizes : List Nat) :
    Option (List Nat × List Leaf) :=
  if sizes.length < 2 then some (range n, []) else recursiveBisect coords 0 sizes 0 (range n)

theorem sortLongest_perm (coords : Coords) (nodes : List Nat) :
    (sortLongest coords nodes).Perm nodes := by
  cases nodes with
  | nil => exact Perm.refl _
  | cons node nodes => exact mergeSort_perm _ _

/-- The last partition is chosen only if that brings the sum nearer to the half. -/
theorem splitLoop_all {nsplit ncount : Nat} {parts : List Nat} {s : Nat}
    (h : (splitLoop nsplit (parts ++ [s]) ncount).1 = (parts ++ [s]).length) :
    ((ncount + parts.sum : Int) + s - nsplit).natAbs <
      ((ncount + parts.sum : Int) - nsplit).natAbs := by
  induction parts generalizing ncount with
  | nil =>
    rw [nil_append, splitLoop] at h
    split at h
    · simpa
    · cases h
  | cons ps parts ih =>
    rw [cons_append, splitLoop] at h
    split at h
    · have hrest := ih (Nat.succ.inj h)
      rw [sum_cons]
      omega
    · cases h

/-- Neither none nor all of the partitions are before the split. -/
theorem partSplit_ne_none {parts : List Nat} (hpos : ∀ s ∈ parts, 0 < s) (hlen : 2 ≤ parts.length) :
    partSplit parts.sum parts ≠ none := by
  rw [partSplit]
  intro hnone
  split at hnone
  case isFalse => cases hnone
  rename_i hsplit
  rcases hsplit with h0 | hall
  · match parts, hlen with
    | s :: t :: parts, _ =>
      have hs := hpos s mem_cons_self
      have ht := hpos t (mem_cons_of_mem _ mem_cons_self)
      rw [splitLoop, if_pos] at h0
      · cases h0
      · rw [sum_cons, sum_cons]
        omega
  · rcases eq_nil_or_concat' parts with rfl | ⟨init, s, rfl⟩
    · cases hlen
    · have hlast := splitLoop_all hall
      have hinit : 0 < init.sum := by
        cases init with
        | nil => exact absurd hlen (by simp)
        | cons t init => exact Nat.lt_of_lt_of_le (hpos t (by simp)) (by simp)
      rw [sum_append, sum_singleton] at hlast
      omega

/-! ## The ranges of the partitions -/

/-- One range after the other. -/
def ranges (partBegin nodeBegin : Nat) (parts : List Nat) : List Leaf :=
  (range parts.length).map fun p =>
    ⟨partBegin + p, nodeBegin + (parts.take p).sum, nodeBegin + (parts.take (p + 1)).sum⟩

theorem ranges_append (partBegin nodeBegin : Nat) (parts parts' : List Nat) :
    ranges partBegin nodeBegin (parts ++ parts') =
      ranges partBegin nodeBegin parts ++ ranges (partBegin + parts.length)
      (nodeBegin + parts.sum) parts' := by
  rw [ranges, length_append, range_add, map_append, List.map_map]
  congr 1
  · refine map_congr_left fun p hp => ?_
    have hlt := mem_range.1 hp
    rw [take_append_of_le_length (Nat.le_of_lt hlt), take_append_of_le_length hlt]
  · refine map_congr_left fun p _ => ?_
    simp only [Function.comp_apply, Nat.add_assoc, take_length_add_append, sum_append]

/-- The recursion ends without an abort, and the partitions get one range after the other. -/
theorem recursiveBisect_spec (coords : Coords) (partBegin nodeBegin : Nat) {parts nodes : List Nat}
    (hne : parts ≠ []) (hpos : ∀ s ∈ parts, 0 < s) (hsum : parts.sum = nodes.length) :
    ∃ l, recursiveBisect coords partBegin parts nodeBegin nodes = some
    (l, ranges partBegin nodeBegin parts) ∧
      l.Perm nodes := by
  fun_induction recursiveBisect coords partBegin parts nodeBegin nodes with
  | case1 partBegin parts nodeBegin nodes hone hsize =>
    obtain ⟨s, rfl⟩ := length_eq_one_iff.1 hone
    exact absurd (sum_singleton.symm.trans hsum) hsize
  | case2 partBegin parts nodeBegin nodes hone hsize =>
    obtain ⟨s, rfl⟩ := length_eq_one_iff.1 hone
    refine ⟨_, ?_, sortLongest_perm coords nodes⟩
    rw [← hsum, sum_singleton]
    simp [ranges]
  | case3 partBegin parts nodeBegin nodes hmany hnone =>
    have hlen := length_pos_iff.2 hne
    exact absurd (hsum ▸ hnone) (partSplit_ne_none hpos (by omega))
  | case4 partBegin parts nodeBegin nodes hmany split hsplit sorted ihl ihr =>
    obtain ⟨h0, hlt, hcount⟩ := partSplit_bounds hsplit
    have hperm := sortLongest_perm coords nodes
    have hcut : (parts.take split.1).sum + (parts.drop split.1).sum = parts.sum := by
      rw [← sum_append, take_append_drop]
    obtain ⟨l, hl, hlp⟩ :=
      ihl (by simp [Nat.ne_of_gt h0, hne]) (fun s hs => hpos s (mem_of_mem_take hs))
      (by rw [length_take, hperm.length_eq]; omega)
    obtain ⟨r, hr, hrp⟩ :=
      ihr (mt drop_eq_nil_iff.1 (Nat.not_le.2 hlt)) (fun s hs => hpos s (mem_of_mem_drop hs))
      (by rw [length_drop, hperm.length_eq]; omega)
    rw [hl, Option.bind_some, hr, Option.map_some]
    refine ⟨l ++ r, ?_, ?_⟩
    · conv_rhs => rw [← take_append_drop split.1 parts, ranges_append, length_take,
        Nat.min_eq_left (Nat.le_of_lt hlt), ← hcount]
    · have hboth := hlp.append hrp
      rw [take_append_drop] at hboth
      exact hboth.trans hperm

/-- Each partition gets the part of the list of nodes that begins after those of the partitions
before it. -/
theorem bisection_hands_out_blocks (coords : Coords) {n : Nat} {sizes : List Nat}
    (hlen : 2 ≤ sizes.length) (hpos : ∀ s ∈ sizes, 0 < s) (hsum : sizes.sum = n) :
    ∃ procList, procList.Perm (range n) ∧ getRecursiveBisectionList coords n sizes =
      some (procList, (range sizes.length).map fun p =>
        ⟨p, (sizes.take p).sum, (sizes.take (p + 1)).sum⟩) := by
  have hne : sizes ≠ [] := by
    rintro rfl
    cases hlen
  obtain ⟨l, hl, hperm⟩ := recursiveBisect_spec coords 0 0 hne hpos (hsum.trans length_range.symm)
  refine ⟨l, hperm, ?_⟩
  rw [getRecursiveBisectionList, if_neg (Nat.not_lt.2 hlen), hl]
  simp [ranges]

/-- Four nodes in two partitions, one of three nodes and one of one. -/
theorem bisection_hands_out_blocks_four : ∃ procList, procList.Perm (range 4) ∧
    getRecursiveBisectionList (fun node _ => node) 4 [3, 1] = some
    (procList, [⟨0, 0, 3⟩, ⟨1, 3, 4⟩]) :=
  bisection_hands_out_blocks _ (by decide) (by decide) rfl

end CharmRuntime.Partitions
