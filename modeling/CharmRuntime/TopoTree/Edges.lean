import CharmRuntime.TopoTree.Build

/-!
# All nodes see the same tree

Each node goes down its own branch of the recursion only. That the answers fit together follows from
what one call of `buildSpanningTree` does: its subtrees contain the other vertices, each of them
once, and again grouped by physical nodes (`splitsByKey`). So `getNodeTopoTreeEdges` describes one
spanning tree, with as few edges between physical nodes as possible (`nodeTopoTree_spanning`).

`getPETopoTreeEdges` takes the numbers of PEs for numbers of nodes. As the grouping does not matter
for the tree, this goes wrong only if there is no such node (`peTopoTree_iff`).
-/

set_option autoImplicit false

namespace CharmRuntime.TopoTree

open Lib.RecursivePartition List Option

/-! ## Grouping by physical nodes -/

/-- Groups of vertices by physical nodes. -/
structure Formed (phys : Nat → Option Nat) (ps : List PhyNode) : Prop where
  ne_nil : ∀ p ∈ ps, p.nodes ≠ []
  ids : ∀ p ∈ ps, ∀ n ∈ p.nodes, phys n = some p.id
  nodup : (ps.map PhyNode.id).Nodup

section Grouping

variable {phys : Nat → Option Nat} {ps : List PhyNode} {id n : Nat}

theorem perm_addNode : ((addNode id n ps).flatMap PhyNode.nodes).Perm
    (n :: ps.flatMap PhyNode.nodes) := by
  induction ps with
  | nil => exact .refl _
  | cons p ps ih =>
    rw [addNode]
    split
    · rw [flatMap_cons, flatMap_cons, append_assoc]
      exact perm_middle
    · exact (ih.append_left p.nodes).trans perm_middle

theorem map_id_addNode : (addNode id n ps).map PhyNode.id =
      if id ∈ ps.map PhyNode.id then ps.map PhyNode.id else ps.map PhyNode.id ++ [id] := by
  induction ps with
  | nil => rfl
  | cons p ps ih =>
    rw [addNode, map_cons]
    by_cases hp : p.id = id
    · rw [if_pos hp, if_pos (by simp [hp])]
      rfl
    · have hmem : id ∈ p.id :: ps.map PhyNode.id ↔ id ∈ ps.map PhyNode.id := by
        rw [mem_cons, or_iff_right (Ne.symm hp)]
      rw [if_neg hp, map_cons, ih]
      simp only [hmem]
      split <;> rfl

theorem mem_addNode {q : PhyNode} (hq : q ∈ addNode id n ps) :
    q ∈ ps ∨ q.id = id ∧ (q.nodes = [n] ∨ ∃ p ∈ ps, p.id = id ∧ q.nodes = p.nodes ++ [n]) := by
  induction ps with
  | nil =>
    obtain rfl := mem_singleton.1 hq
    exact .inr ⟨rfl, .inl rfl⟩
  | cons p ps ih =>
    rw [addNode] at hq
    split at hq
    case isTrue hp =>
      rcases mem_cons.1 hq with rfl | hq
      · exact .inr ⟨hp, .inr ⟨p, mem_cons_self, hp, rfl⟩⟩
      · exact .inl (mem_cons_of_mem p hq)
    case isFalse =>
      rcases mem_cons.1 hq with rfl | hq
      · exact .inl mem_cons_self
      · obtain hq | ⟨hid, hnodes | ⟨p', hp', h⟩⟩ := ih hq
        · exact .inl (mem_cons_of_mem p hq)
        · exact .inr ⟨hid, .inl hnodes⟩
        · exact .inr ⟨hid, .inr ⟨p', mem_cons_of_mem p hp', h⟩⟩

theorem Formed.addNode (h : Formed phys ps) (hn : phys n = some id) :
    Formed phys (addNode id n ps) := by
  refine ⟨fun q hq => ?_, fun q hq x hx => ?_, ?_⟩
  · obtain hq | ⟨-, hnodes | ⟨p, -, -, hnodes⟩⟩ := mem_addNode hq
    · exact h.ne_nil q hq
    · simp [hnodes]
    · simp [hnodes]
  · obtain hq | ⟨hid, hnodes | ⟨p, hp, hpid, hnodes⟩⟩ := mem_addNode hq
    · exact h.ids q hq x hx
    · rw [hnodes, mem_singleton] at hx
      rw [hx, hn, hid]
    · rw [hnodes, mem_append, mem_singleton] at hx
      rcases hx with hx | rfl
      · rw [h.ids p hp x hx, hpid, hid]
      · rw [hn, hid]
  · rw [map_id_addNode]
    split
    · exact h.nodup
    case isFalse hmem =>
      refine h.nodup.append (nodup_singleton id) ?_
      simpa using hmem

/-- The first vertex of the first group. -/
def First (root : Nat) (ps : List PhyNode) : Prop :=
  ∃ p rest ps', ps = p :: ps' ∧ p.nodes = root :: rest

theorem First.addNode {root : Nat} (h : First root ps) : First root (addNode id n ps) := by
  obtain ⟨p, rest, ps', rfl, hnodes⟩ := h
  rw [TopoTree.addNode]
  split
  · exact ⟨_, rest ++ [n], ps', rfl, by rw [hnodes, cons_append]⟩
  · exact ⟨p, rest, _, rfl, hnodes⟩

theorem addSorted_concat_self (xs : List Nat) :
    addSorted id n (ps ++ [⟨id, xs⟩]) = ps ++ [⟨id, xs ++ [n]⟩] := by
  induction ps with
  | nil => simp [addSorted]
  | cons p ps ih =>
    cases ps with
    | nil => simp [addSorted]
    | cons q ps =>
      rw [cons_append, cons_append, addSorted, ← cons_append, ih]
      rfl

theorem addSorted_of_notMem (h : id ∉ ps.map PhyNode.id) :
    addSorted id n ps = ps ++ [⟨id, [n]⟩] := by
  induction ps with
  | nil => rfl
  | cons p ps ih =>
    rw [map_cons, mem_cons, not_or] at h
    cases ps with
    | nil => rw [addSorted, if_neg (Ne.symm h.1)]; rfl
    | cons q ps => rw [addSorted, ih h.2]; rfl

end Grouping

variable {isPart : Bool}

section InitPhyNodes

variable {m : Machine} {nt : Bool} {l : List Nat} {ps acc : List PhyNode}

/-- Vertices in any order. -/
theorem addNodes_spec (hacc : Formed (phyNodeId m nt) acc)
    (hl : ∀ n ∈ l, (phyNodeId m nt n).isSome) :
    ∃ ps, addNodes m nt false l acc = some ps ∧ Formed (phyNodeId m nt) ps ∧
      (ps.flatMap PhyNode.nodes).Perm (acc.flatMap PhyNode.nodes ++ l) ∧
      ∀ root, First root acc → First root ps := by
  induction l generalizing acc with
  | nil => exact ⟨acc, rfl, hacc, by rw [append_nil], fun _ h => h⟩
  | cons n l ih =>
    obtain ⟨id, hid⟩ := isSome_iff_exists.1 (hl n mem_cons_self)
    obtain ⟨ps, hps, hformed, hperm, hfirst⟩ := ih (hacc.addNode hid)
      fun n' hn' => hl n' (mem_cons_of_mem n hn')
    refine ⟨ps, ?_, hformed, ?_, fun root hroot => hfirst root hroot.addNode⟩
    · rw [addNodes, hid]
      exact hps
    · refine hperm.trans ((perm_addNode.append_right l).trans ?_)
      exact perm_middle.symm

/-- The rest of a group of which some vertices have been read. -/
theorem addNodes_group {id : Nat} {xs ys rest : List Nat}
    (hys : ∀ n ∈ ys, phyNodeId m nt n = some id) :
    addNodes m nt true (ys ++ rest) (acc ++ [⟨id, xs⟩]) =
      addNodes m nt true rest (acc ++ [⟨id, xs ++ ys⟩]) := by
  induction ys generalizing xs with
  | nil => rw [nil_append, append_nil]
  | cons y ys ih =>
    rw [cons_append, addNodes, hys y mem_cons_self, bind_some, if_pos rfl,
      addSorted_concat_self, ih fun n hn => hys n (mem_cons_of_mem y hn), append_assoc]
    rfl

/-- Vertices that are already grouped. -/
theorem addNodes_sorted (h : Formed (phyNodeId m nt) (acc ++ ps)) :
    addNodes m nt true (ps.flatMap PhyNode.nodes) acc = some (acc ++ ps) := by
  induction ps generalizing acc with
  | nil => rw [append_nil]; rfl
  | cons p ps ih =>
    have hp : p ∈ acc ++ p :: ps := mem_append_right acc mem_cons_self
    obtain ⟨n, ys, hnodes⟩ := exists_cons_of_ne_nil (h.ne_nil p hp)
    have hids := h.ids p hp
    rw [hnodes] at hids
    have hnew : p.id ∉ acc.map PhyNode.id := by
      have hnd := h.nodup
      rw [map_append, map_cons] at hnd
      intro hmem
      exact (disjoint_of_nodup_append hnd) hmem mem_cons_self
    rw [flatMap_cons, hnodes, cons_append, addNodes, hids n mem_cons_self, bind_some,
      if_pos rfl, addSorted_of_notMem hnew,
      addNodes_group fun n' hn' => hids n' (mem_cons_of_mem n hn'), singleton_append, ← hnodes]
    have hrest := ih (append_cons acc p ps ▸ h)
    rwa [← append_cons] at hrest

/-- The lists that the recursion meets: at the top vertices with physical nodes, or a single one,
and below that vertices grouped by physical nodes. -/
def Good (m : Machine) (nodeTree : Bool) : Bool → List Nat → Prop
  | false, l => l ≠ [] ∧ (l.length = 1 ∨ ∀ n ∈ l, (phyNodeId m nodeTree n).isSome)
  | true, l => ∃ ps, ps ≠ [] ∧ Formed (phyNodeId m nodeTree) ps ∧ l = ps.flatMap PhyNode.nodes

/-- What `initPhyNodes` makes of a list. -/
theorem initPhyNodes_spec {root : Nat} (h : Good m nt isPart (root :: l)) (hl : l ≠ []) :
    ∃ p rest ps, initPhyNodes m nt isPart (root :: l) = some (p :: ps) ∧ p.nodes = root :: rest ∧
      Formed (phyNodeId m nt) (p :: ps) ∧ (rest ++ ps.flatMap PhyNode.nodes).Perm l := by
  cases isPart with
  | false =>
    have hids : ∀ n ∈ root :: l, (phyNodeId m nt n).isSome := by
      refine h.2.resolve_left fun hone => hl (eq_nil_of_length_eq_zero ?_)
      simpa using hone
    obtain ⟨id, hid⟩ := isSome_iff_exists.1 (hids root mem_cons_self)
    have hone : Formed (phyNodeId m nt) [⟨id, [root]⟩] := by
      refine ⟨by simp, ?_, by simp⟩
      simpa using hid
    obtain ⟨ps, hps, hformed, hperm, hfirst⟩ := addNodes_spec hone
      fun n hn => hids n (mem_cons_of_mem root hn)
    obtain ⟨p, rest, ps', rfl, hnodes⟩ := hfirst root ⟨_, [], [], rfl, rfl⟩
    refine ⟨p, rest, ps', ?_, hnodes, hformed, ?_⟩
    · rw [initPhyNodes, addNodes, hid]
      exact hps
    · rw [flatMap_cons, hnodes] at hperm
      exact hperm.cons_inv
  | true =>
    obtain ⟨ps, hne, hformed, hflat⟩ := h
    obtain ⟨p, ps', rfl⟩ := exists_cons_of_ne_nil hne
    obtain ⟨n, rest, hnodes⟩ := exists_cons_of_ne_nil (hformed.ne_nil p mem_cons_self)
    rw [flatMap_cons, hnodes, cons_append, List.cons.injEq] at hflat
    obtain ⟨rfl, rfl⟩ := hflat
    refine ⟨p, rest, ps', ?_, hnodes, hformed, .refl _⟩
    have hsorted := @addNodes_sorted m nt (p :: ps') [] hformed
    rwa [flatMap_cons, hnodes, cons_append, nil_append] at hsorted

/-- `initPhyNodes` gives a result only if all physical nodes are known. -/
theorem isSome_of_addNodes {preSorted : Bool} (h : addNodes m nt preSorted l acc = some ps) :
    ∀ n ∈ l, (phyNodeId m nt n).isSome := by
  induction l generalizing acc with
  | nil => exact nofun
  | cons n l ih =>
    rw [addNodes, bind_eq_some_iff] at h
    obtain ⟨id, hid, h⟩ := h
    exact forall_mem_cons.2 ⟨isSome_iff_exists.2 ⟨id, hid⟩, ih h⟩

end InitPhyNodes

/-! ## Subtrees within a physical node -/

/-- The parts have the elements of the list, and none is empty. -/
structure Splits {α : Type} (parts : List (List α)) (l : List α) : Prop where
  perm : parts.flatten.Perm l
  ne_nil : ∀ part ∈ parts, part ≠ []

/-- Both halves of a list are split. -/
theorem Splits.halves {α : Type} {parts parts' : List (List α)} {l l' : List α} {k : Nat}
    (h : Splits parts (l.take k))
    (h' : Splits parts' (l.drop k)) (hperm : l.Perm l') : Splits (parts ++ parts') l' := by
  refine ⟨?_, forall_mem_append.2 ⟨h.ne_nil, h'.ne_nil⟩⟩
  have hall := h.perm.append h'.perm
  rw [take_append_drop] at hall
  rw [flatten_append]
  exact hall.trans hperm

section Within

variable {m : Machine} {α : Type} {l : List α} {partSize parts bfactor : Nat}

theorem flatten_cut (h : 0 < parts) : (cut partSize parts l).flatten = l := by
  fun_induction cut partSize parts l with
  | case1 => exact absurd h (Nat.lt_irrefl 0)
  | case2 l => simp
  | case3 parts l ih => rw [flatten_cons, ih (Nat.succ_pos parts), take_append_drop]

theorem ne_nil_of_mem_cut (hsize : 0 < partSize) (h : parts * partSize ≤ l.length) :
    ∀ part ∈ cut partSize parts l, part ≠ [] := by
  fun_induction cut partSize parts l with
  | case1 => exact nofun
  | case2 l =>
    intro part hpart
    obtain rfl := mem_singleton.1 hpart
    exact ne_nil_of_length_pos (by omega)
  | case3 parts l ih =>
    have hlen : partSize ≤ l.length := (Nat.le_mul_of_pos_left partSize (Nat.succ_pos _)).trans h
    refine forall_mem_cons.2 ⟨ne_nil_of_length_pos (by rw [length_take]; omega), ih ?_⟩
    rw [length_drop]
    rw [Nat.succ_mul] at h
    omega

/-- The parts that `withinPhyNodeTree` makes. -/
theorem cut_spec (hb : 0 < bfactor) (hl : l ≠ []) :
    (cut (l.length / min bfactor l.length) (min bfactor l.length) l).flatten = l ∧
      ∀ part ∈ cut (l.length / min bfactor l.length) (min bfactor l.length) l, part ≠ [] := by
  have hlen := length_pos_iff.2 hl
  have hmin : 0 < min bfactor l.length := by omega
  refine ⟨flatten_cut hmin, ne_nil_of_mem_cut (Nat.div_pos (Nat.min_le_right _ _) hmin) ?_⟩
  exact Nat.mul_div_le _ _

theorem perm_pushPe (node pe : Nat) (map : List (Nat × List Nat)) :
    ((pushPe node pe map).flatMap (·.2)).Perm (pe :: map.flatMap (·.2)) := by
  induction map with
  | nil => exact .refl _
  | cons entry map ih =>
    obtain ⟨n, pes⟩ := entry
    rw [pushPe]
    split
    · rw [flatMap_cons, flatMap_cons, append_assoc]
      exact perm_middle
    · split
      · exact .refl _
      · exact (ih.append_left pes).trans perm_middle

theorem ne_nil_of_mem_pushPe {node pe : Nat} {map : List (Nat × List Nat)}
    (h : ∀ e ∈ map, e.2 ≠ []) : ∀ e ∈ pushPe node pe map, e.2 ≠ [] := by
  induction map with
  | nil => simp [pushPe]
  | cons entry map ih =>
    rw [forall_mem_cons] at h
    rw [pushPe]
    split
    · exact forall_mem_cons.2 ⟨by simp, h.2⟩
    · split
      · exact forall_mem_cons.2 ⟨by simp, forall_mem_cons.2 h⟩
      · exact forall_mem_cons.2 ⟨h.1, ih h.2⟩

theorem nodePes_spec (pes : List Nat) :
    ((nodePes m pes).flatMap (·.2)).Perm pes ∧ ∀ e ∈ nodePes m pes, e.2 ≠ [] := by
  have hfold : ∀ (pes : List Nat) (map : List (Nat × List Nat)), (∀ e ∈ map, e.2 ≠ []) →
      ((pes.foldl (fun map pe => pushPe (m.nodeOf pe) pe map) map).flatMap (·.2)).Perm
          (map.flatMap (·.2) ++ pes) ∧
        ∀ e ∈ pes.foldl (fun map pe => pushPe (m.nodeOf pe) pe map) map, e.2 ≠ [] := by
    intro pes
    induction pes with
    | nil => exact fun map h => ⟨by rw [append_nil]; exact .refl _, h⟩
    | cons pe pes ih =>
      intro map h
      obtain ⟨hperm, hne⟩ := ih _ (ne_nil_of_mem_pushPe h)
      refine ⟨hperm.trans (((perm_pushPe _ _ _).append_right pes).trans ?_), hne⟩
      exact perm_middle.symm
  exact hfold pes [] nofun

/-- The subtrees within a physical node contain its other vertices. -/
theorem withinPhyNodeTree_spec (nt : Bool) {p : PhyNode} {root : Nat} {rest : List Nat}
    (hnodes : p.nodes = root :: rest) (hb : 0 < bfactor) :
    Splits (withinPhyNodeTree m nt p bfactor) rest := by
  rw [withinPhyNodeTree, hnodes, drop_one, tail_cons]
  by_cases hrest : rest = []
  · rw [if_pos hrest, hrest]
    exact ⟨.refl _, by simp⟩
  · rw [if_neg hrest]
    cases nt with
    | true =>
      obtain ⟨hflat, hne⟩ := cut_spec hb hrest
      exact ⟨by rw [if_pos rfl, hflat], by rwa [if_pos rfl]⟩
    | false =>
      obtain ⟨hperm, hne⟩ := @nodePes_spec m rest
      rw [if_neg Bool.false_ne_true]
      dsimp only
      split
      · -- All PEs of the only node are children.
        refine ⟨by rwa [← flatMap_def, flatMap_singleton'], fun sub hsub => ?_⟩
        obtain ⟨pe, -, rfl⟩ := mem_map.1 hsub
        exact cons_ne_nil pe []
      · have hnodes' : nodePes m rest ≠ [] := by
          rintro hnil
          rw [hnil] at hperm
          exact hrest (nil_perm.1 hperm)
        obtain ⟨hflat, hcut⟩ := cut_spec hb hnodes'
        refine ⟨?_, fun sub hsub => ?_⟩
        · rwa [← flatMap_def, ← flatMap_assoc, flatMap_id', hflat]
        · obtain ⟨part, hpart, rfl⟩ := mem_map.1 hsub
          obtain ⟨e, part', rfl⟩ := exists_cons_of_ne_nil (hcut part hpart)
          have he : e ∈ nodePes m rest := by
            rw [← hflat]
            exact mem_flatten.2 ⟨_, hpart, mem_cons_self⟩
          exact append_ne_nil_of_left_ne_nil (hne e he) _

end Within

/-! ## Subtrees of physical nodes -/

section Partition

variable {topo : Option Topology} {nodes : List PhyNode} {numPartitions : Nat}

theorem perm_arrange (n : Nat) : (arrange topo nodes n).Perm nodes := by
  cases topo with
  | none => exact .refl _
  | some t => exact t.perm_nthElement nodes n

/-- `partition` never aborts, if there is at least one partition. -/
theorem partition_spec (h : 0 < numPartitions) :
    ∃ parts, partition topo nodes numPartitions = some parts ∧ Splits parts nodes := by
  induction numPartitions using Nat.strong_induction_on generalizing nodes with
  | _ numPartitions ih =>
    rw [partition]
    split
    case isTrue hmore =>
      split
      case isTrue hthird =>
        rw [trisect]
        generalize nodes.length / 3 = third
        obtain ⟨first, hfirst, h1⟩ :=
          @ih (numPartitions / 3) (by omega) ((arrange topo nodes third).take third) (by omega)
        obtain ⟨second, hsecond, h2⟩ := @ih (numPartitions / 3) (by omega)
          ((arrange topo ((arrange topo nodes third).drop third) third).take third) (by omega)
        obtain ⟨last, hlast, h3⟩ := @ih (numPartitions / 3) (by omega)
          ((arrange topo ((arrange topo nodes third).drop third) third).drop third) (by omega)
        rw [hfirst, bind_some, hsecond, bind_some, hlast, map_some, append_assoc]
        exact ⟨_, rfl, h1.halves (h2.halves h3 (perm_arrange _)) (perm_arrange _)⟩
      case isFalse =>
        rw [bisect]
        generalize nodes.length / 2 = median
        obtain ⟨left, hleft, h1⟩ :=
          @ih (numPartitions / 2) (by omega) ((arrange topo nodes median).take median) (by omega)
        obtain ⟨right, hright, h2⟩ := @ih (numPartitions - numPartitions / 2) (by omega)
          ((arrange topo nodes median).drop median) (by omega)
        rw [hleft, bind_some, hright, map_some]
        exact ⟨_, rfl, h1.halves h2 (perm_arrange _)⟩
    case isFalse =>
      split
      case isTrue hone =>
        refine ⟨[nodes], rfl, by rw [flatten_singleton], fun part hpart => ?_⟩
        obtain rfl := mem_singleton.1 hpart
        exact ne_nil_of_length_pos hone.2
      case isFalse hnone =>
        have hnil : nodes.length = 0 := by omega
        rw [if_pos hnil, eq_nil_of_length_eq_zero hnil]
        exact ⟨[], rfl, .refl _, by simp⟩

theorem closestIdx_isSome {distance : PhyNode → Nat} {j minDistance : Nat} {closest : Option Nat}
    (h : closest.isSome) : (closestIdx distance nodes j minDistance closest).isSome := by
  induction nodes generalizing j minDistance closest with
  | nil => exact h
  | cons p nodes ih =>
    rw [closestIdx]
    split
    · exact ih rfl
    · exact ih h

theorem perm_swapFirst (j : Nat) : (swapFirst nodes j).Perm nodes := by
  fun_cases swapFirst nodes j with
  | case1 => exact .refl _
  | case2 p ps => exact .refl _
  | case3 p ps j =>
    induction ps generalizing j with
    | nil => exact .refl _
    | cons q ps ih =>
      cases j with
      | zero => exact .swap _ _ _
      | succ j =>
        exact (Perm.swap _ _ _).trans (((ih j).cons q).trans (.swap _ _ _))

theorem chooseSubtreeRoot_spec (t : Topology) (root : PhyNode) {subtree : List PhyNode}
    (h : subtree ≠ []) :
    ∃ subtree', chooseSubtreeRoot t root subtree = some subtree' ∧ subtree'.Perm subtree := by
  obtain ⟨p, ps, rfl⟩ := exists_cons_of_ne_nil h
  obtain ⟨j, hj⟩ := isSome_iff_exists.1 (@closestIdx_isSome ps (fun p => t.distance root p) 1
    (t.distance root p) (some 0) rfl)
  refine ⟨swapFirst (p :: ps) j, ?_, perm_swapFirst j⟩
  rw [chooseSubtreeRoot, closestIdx, if_pos (t.distance root p).isLt, hj, map_some]

/-- The subtrees have the same physical nodes after their roots have been chosen. -/
theorem chooseSubtreeRoots_spec (root : PhyNode) {subtrees : List (List PhyNode)}
    (h : ∀ sub ∈ subtrees, sub ≠ []) :
    ∃ subtrees', chooseSubtreeRoots topo root subtrees = some subtrees' ∧
    Splits subtrees' subtrees.flatten := by
  cases topo with
  | none => exact ⟨subtrees, rfl, .refl _, h⟩
  | some t =>
    rw [chooseSubtreeRoots, elim_some]
    induction subtrees with
    | nil => exact ⟨[], rfl, .refl _, h⟩
    | cons sub subtrees ih =>
      rw [forall_mem_cons] at h
      obtain ⟨sub', hsub', hperm⟩ := chooseSubtreeRoot_spec t root h.1
      obtain ⟨subtrees', hsubtrees', ⟨hperm', hne⟩⟩ := ih h.2
      refine ⟨sub' :: subtrees', ?_, hperm.append hperm', forall_mem_cons.2 ⟨?_, hne⟩⟩
      · rw [mapM_cons, hsub', hsubtrees']
        rfl
      · rintro rfl
        exact h.1 (nil_perm.1 hperm)

end Partition

/-! ## One call of `buildSpanningTree` -/

section Build

variable {m : Machine} {topo : Option Topology} {nt : Bool} {maxBranches : Nat}

/-- The subtrees: some within the physical node of the root, and some that consist of other physical
nodes. -/
theorem build_spec {p : PhyNode} {root : Nat} {rest : List Nat} (ps : List PhyNode)
    (hnodes : p.nodes = root :: rest) (hb : 0 < maxBranches) :
    ∃ (inner : List (List Nat)) (parts : List (List PhyNode)),
      build m topo nt maxBranches (p :: ps) = some (inner ++ parts.map (·.flatMap PhyNode.nodes)) ∧
      Splits inner rest ∧ Splits parts ps := by
  have hinner := @withinPhyNodeTree_spec m maxBranches nt p root rest hnodes hb
  rw [build]
  by_cases hps : ps = []
  · refine ⟨_, [], ?_, hinner, by rw [hps]; exact .refl _, by simp⟩
    rw [if_pos hps, map_nil, append_nil]
  · obtain ⟨parts, hparts, hsplits⟩ := @partition_spec topo ps maxBranches hb
    obtain ⟨parts', hparts', hsplits'⟩ := @chooseSubtreeRoots_spec topo p parts hsplits.ne_nil
    refine ⟨_, parts', ?_, hinner, hsplits'.perm.trans hsplits.perm, hsplits'.ne_nil⟩
    rw [if_neg hps, hparts, bind_some, hparts', map_some]

theorem Formed.subset {phys : Nat → Option Nat} {ps qs : List PhyNode} (h : Formed phys ps)
    (hsub : qs ⊆ ps) (hnd : (qs.map PhyNode.id).Nodup) : Formed phys qs :=
  ⟨fun q hq => h.ne_nil q (hsub hq), fun q hq => h.ids q (hsub hq), hnd⟩

/-- The way in which `getNeighborsTopoTree_R` splits a list. -/
def splitter (m : Machine) (topo : Option Topology) (nodeTree : Bool) (bfactor : Nat) : Split Nat :=
  fun preSorted l => buildSpanningTree m topo nodeTree preSorted l (min bfactor (l.length - 1))

variable {bfactor : Nat}

/-- What one call of `buildSpanningTree` does. -/
theorem splitter_spec (hb : 0 < bfactor) (hdims : ∀ t ∈ topo, ∀ d ∈ t.dimSizes, d ≤ 32) {root : Nat}
    {l : List Nat} (h : Good m nt isPart (root :: l)) :
    ∃ subs, splitter m topo nt bfactor isPart (root :: l) = some subs ∧ subs.flatten.Perm l ∧
      (∀ sub ∈ subs, Good m nt true sub) ∧ ∃ inner outer, subs = inner ++ outer ∧
        (∀ sub ∈ inner, ∀ x ∈ sub, phyNodeId m nt x = phyNodeId m nt root) ∧
        (∀ sub ∈ outer, ∀ x ∈ sub, phyNodeId m nt x ≠ phyNodeId m nt root) ∧
        outer.Pairwise fun sub sub' =>
          ∀ x ∈ sub, ∀ y ∈ sub', phyNodeId m nt x ≠ phyNodeId m nt y := by
  cases l with
  | nil =>
    refine ⟨[], ?_, .refl _, by simp, [], [], rfl, by simp, by simp, .nil⟩
    exact if_pos hdims
  | cons n l =>
    obtain ⟨p, rest, ps, hinit, hnodes, hformed, hperm⟩ := initPhyNodes_spec h (cons_ne_nil n l)
    obtain ⟨inner, parts, hbuild, ⟨hpermInner, hneInner⟩, ⟨hpermParts, hneParts⟩⟩ :=
      @build_spec m topo nt (min bfactor ((root :: n :: l).length - 1)) p root rest ps hnodes (by
        rw [length_cons, length_cons]
        omega)
    have hsplit : splitter m topo nt bfactor isPart (root :: n :: l) =
        some (inner ++ parts.map (·.flatMap PhyNode.nodes)) := by
      unfold splitter buildSpanningTree
      rw [if_pos hdims]
      rw [hinit, bind_some, hbuild]
    have hidsNodup : (parts.flatten.map PhyNode.id).Nodup :=
      (hpermParts.map PhyNode.id).nodup_iff.2 (nodup_cons.1 hformed.nodup).2
    have hinner : ∀ sub ∈ inner, ∀ x ∈ sub, phyNodeId m nt x = some p.id := fun sub hsub x hx => by
      refine hformed.ids p mem_cons_self x ?_
      rw [hnodes]
      exact mem_cons_of_mem root (hpermInner.subset (mem_flatten.2 ⟨sub, hsub, hx⟩))
    have hroot : phyNodeId m nt root = some p.id :=
      hformed.ids p mem_cons_self root (by rw [hnodes]; exact mem_cons_self)
    have hpart : ∀ part ∈ parts, part ⊆ ps := fun part hpart q hq =>
      hpermParts.subset (mem_flatten.2 ⟨part, hpart, hq⟩)
    have hid : ∀ part ∈ parts, ∀ x ∈ part.flatMap PhyNode.nodes,
        ∃ q ∈ part, phyNodeId m nt x = some q.id := fun part hmem x hx => by
      obtain ⟨q, hq, hx⟩ := mem_flatMap.1 hx
      exact ⟨q, hq, hformed.ids q (mem_cons_of_mem p (hpart part hmem hq)) x hx⟩
    refine ⟨_, hsplit, ?_, ?_, inner, _, rfl, ?_, ?_, ?_⟩
    · rw [flatten_append]
      refine (hpermInner.append ?_).trans hperm
      rw [← flatMap_def, ← flatMap_assoc, flatMap_id']
      exact hpermParts.flatMap_right _
    · intro sub hsub
      rcases mem_append.1 hsub with hsub | hsub
      · refine ⟨[⟨p.id, sub⟩], cons_ne_nil _ _, ⟨?_, ?_, by simp⟩, by simp⟩
        · simpa using hneInner sub hsub
        · simpa using hinner sub hsub
      · obtain ⟨part, hmem, rfl⟩ := mem_map.1 hsub
        refine ⟨part, hneParts part hmem, hformed.subset ?_ ?_, rfl⟩
        · exact fun q hq => mem_cons_of_mem p (hpart part hmem hq)
        · exact hidsNodup.sublist ((sublist_flatten_of_mem hmem).map _)
    · intro sub hsub x hx
      rw [hinner sub hsub x hx, hroot]
    · intro sub hsub x hx
      obtain ⟨part, hmem, rfl⟩ := mem_map.1 hsub
      obtain ⟨q, hq, hx⟩ := hid part hmem x hx
      rw [hx, hroot, Ne, some.injEq]
      intro heq
      refine (nodup_cons.1 hformed.nodup).1 ?_
      rw [← heq]
      exact List.mem_map_of_mem (hpart part hmem hq)
    · rw [map_flatten] at hidsNodup
      have hdisjoint := (nodup_flatten.1 hidsNodup).2
      rw [pairwise_map] at hdisjoint ⊢
      refine hdisjoint.imp_of_mem fun {part part'} hmem hmem' hdisj x hx y hy heq => ?_
      obtain ⟨q, hq, hx⟩ := hid part hmem x hx
      obtain ⟨q', hq', hy⟩ := hid part' hmem' y hy
      rw [hx, hy, some.injEq] at heq
      exact hdisj (List.mem_map_of_mem hq) (heq ▸ List.mem_map_of_mem hq')

/-- `buildSpanningTree` gives a result only if the dimensions are small enough, and, unless there is
only one vertex, all physical nodes are known. -/
theorem known_of_splitter {l : List Nat} {subs : List (List Nat)}
    (h : splitter m topo nt bfactor isPart l = some subs) : (∀ t ∈ topo, ∀ d ∈ t.dimSizes, d ≤ 32) ∧
      (l.length = 1 ∨ ∀ n ∈ l, (phyNodeId m nt n).isSome) := by
  unfold splitter buildSpanningTree at h
  split at h
  case isTrue hdims =>
    refine ⟨hdims, ?_⟩
    split at h
    · exact absurd h (by simp)
    · exact .inl rfl
    · obtain ⟨ps, hps, -⟩ := bind_eq_some_iff.1 h
      exact .inr (isSome_of_addNodes hps)
  case isFalse => exact absurd h (by simp)

/-- The recursion splits lists by physical nodes. -/
theorem splitsByKey (hb : 0 < bfactor) (hdims : ∀ t ∈ topo, ∀ d ∈ t.dimSizes, d ≤ 32) :
    SplitsByKey (splitter m topo nt bfactor) (Good m nt) (phyNodeId m nt) where
  ne_nil := by
    intro isPart l h
    cases isPart with
    | false => exact h.1
    | true =>
      obtain ⟨ps, hne, hformed, rfl⟩ := h
      obtain ⟨p, ps', rfl⟩ := exists_cons_of_ne_nil hne
      exact append_ne_nil_of_left_ne_nil (hformed.ne_nil p mem_cons_self) _
  splits := fun h => by
    obtain ⟨subs, hsubs, hperm, hgood, -⟩ := splitter_spec hb hdims h
    exact ⟨subs, hsubs, hperm, hgood⟩
  byKey := fun h hsplit => by
    obtain ⟨subs, hsubs, -, -, hkeys⟩ := splitter_spec hb hdims h
    rwa [some.inj (hsplit.symm.trans hsubs)]

end Build

/-! ## Results -/

section Results

variable (m : Machine) (topo : Option Topology) {bfactor root : Nat} {l : List Nat}

/-- The vertices of a good list describe one spanning tree, with as few edges between physical nodes
as possible. -/
theorem spanningTree_of_good {nt : Bool} (hb : 0 < bfactor)
    (hdims : ∀ t ∈ topo, ∀ d ∈ t.dimSizes, d ≤ 32) (hroot : l.head? = some root) (hnd : l.Nodup)
    (hgood : Good m nt false l) :
    SpanningTree l root (fun v => getNeighborsTopoTreeR m topo nt l v bfactor) ∧
      (l.filter (crosses (phyNodeId m nt) fun v =>
          getNeighborsTopoTreeR m topo nt l v bfactor)).length + 1 =
        (kinds (phyNodeId m nt) l).card := by
  have hsplits := @splitsByKey m topo nt bfactor hb hdims
  obtain ⟨root', l', rfl⟩ := exists_cons_of_ne_nil (hsplits.ne_nil hgood)
  obtain rfl : root' = root := some.inj hroot
  exact ⟨hsplits.spanningTree hgood hnd (Nat.lt_succ_self _),
    hsplits.card_crossing hgood hnd (Nat.lt_succ_self _)⟩

theorem mem_vertices_root {num : Nat} {given : Option (List Nat)} (h : ∀ l ∈ given, root ∈ l) :
    root ∈ vertices num root given := by
  cases given with
  | none => exact mem_cons_self
  | some l => exact h l rfl

theorem vertices_spec {num : Nat} {given : Option (List Nat)} (hroot : root < num)
    (h : ∀ l ∈ given, l.Nodup ∧ ∀ v ∈ l, v < num) :
    (vertices num root given).Nodup ∧ ∀ v ∈ vertices num root given, v < num := by
  cases given with
  | none =>
    refine ⟨nodup_cons.2 ⟨by simp, nodup_range.filter _⟩, forall_mem_cons.2 ⟨hroot, ?_⟩⟩
    intro v hv
    exact mem_range.1 (mem_filter.1 hv).1
  | some l => exact h l rfl

theorem isSome_physicalNodeID {n : Nat} : (m.physicalNodeID n).isSome ↔
    (m.supported = true → n < m.numPes) := by
  rw [Machine.physicalNodeID]
  cases m.supported with
  | false => simp
  | true =>
    simp [Machine.numPes, m.length_nodeIDs]

/-- The answers of `getNodeTopoTreeEdges` on distinct nodes, the first of which is the root, form
one spanning tree, in which the edges between physical nodes are one less than these. A list that
begins with another node is refused. -/
theorem nodeTopoTree_spanning (nodes : Option (List Nat)) (hb : 0 < bfactor)
    (hroot : root < m.numNodes) (hdims : ∀ t ∈ topo, ∀ d ∈ t.dimSizes, d ≤ 32)
    (hnodes : ∀ l ∈ nodes, l.head? = some root ∧ l.Nodup ∧ ∀ n ∈ l, n < m.numNodes) :
    SpanningTree (vertices m.numNodes root nodes) root
        (fun node => getNodeTopoTreeEdges m topo node root nodes bfactor) ∧
      ((vertices m.numNodes root nodes).filter (crosses (phyNodeId m true) fun node =>
          getNodeTopoTreeEdges m topo node root nodes bfactor)).length + 1 =
        (kinds (phyNodeId m true) (vertices m.numNodes root nodes)).card ∧
      ∀ l node, l.head? ≠ some root →
        getNodeTopoTreeEdges m topo node root (some l) bfactor = none := by
  have hhead : (vertices m.numNodes root nodes).head? = some root := by
    cases nodes with
    | none => rfl
    | some l => exact (hnodes l rfl).1
  obtain ⟨hnodup, hlt⟩ := vertices_spec hroot fun l hl => (hnodes l hl).2
  have hmem : root ∈ vertices m.numNodes root nodes := mem_of_head? hhead
  have hgood : Good m true false (vertices m.numNodes root nodes) := by
    refine ⟨ne_nil_of_mem hmem, .inr fun n hn => ?_⟩
    rw [phyNodeId, if_pos rfl, isSome_physicalNodeID]
    exact fun _ => Nat.mul_lt_mul_of_pos_right (hlt n hn) m.nodeSize_pos
  have hanswer : ∀ v ∈ vertices m.numNodes root nodes,
      getNeighborsTopoTreeR m topo true (vertices m.numNodes root nodes) v bfactor =
        getNodeTopoTreeEdges m topo v root nodes bfactor := fun v hv => by
    rw [getNodeTopoTreeEdges, if_pos ⟨hlt v hv, hroot, hb, hhead⟩]
  obtain ⟨htree, hcard⟩ := spanningTree_of_good m topo hb hdims hhead hnodup hgood
  refine ⟨htree.congr hmem hanswer, ?_, fun l node hl => if_neg fun hcond => hl hcond.2.2.2⟩
  rw [← hcard, filter_congr fun v hv => ?_]
  rw [crosses, crosses, hanswer v hv]

/-- Five nodes on three physical nodes. -/
def fiveNodes : Machine := ⟨5, 1, true, [0, 1, 0, 2, 1], Nat.one_pos, rfl⟩

theorem nodeTopoTree_spanning_five :
    SpanningTree [2, 4, 1, 0, 3] 2
        (fun node => getNodeTopoTreeEdges fiveNodes none node 2 (some [2, 4, 1, 0, 3]) 2) ∧
      ([2, 4, 1, 0, 3].filter (crosses (phyNodeId fiveNodes true) fun node =>
        getNodeTopoTreeEdges fiveNodes none node 2 (some [2, 4, 1, 0, 3]) 2)).length = 2 := by
  obtain ⟨htree, hcard, -⟩ := nodeTopoTree_spanning fiveNodes none (some [2, 4, 1, 0, 3])
    (by decide : 0 < 2) (by decide : 2 < 5) (by simp) (by decide)
  have hthree : (kinds (phyNodeId fiveNodes true) [2, 4, 1, 0, 3]).card = 3 := by decide
  exact ⟨htree, Nat.succ.inj (hcard.trans hthree)⟩

/-- Two nodes on one physical node. -/
def twoNodes : Machine := ⟨2, 1, true, [0, 0], Nat.one_pos, rfl⟩

/-- A root that is not the first one of the list is refused. -/
theorem nodeTopoTree_root_second :
    ¬SpanningTree [0, 1] 1
    (fun node => getNodeTopoTreeEdges twoNodes none node 1 (some [0, 1]) 4) := by
  intro h
  obtain ⟨place, hplace, -⟩ := h.answers 0 (by decide)
  have hnone : getNodeTopoTreeEdges twoNodes none 0 1 (some [0, 1]) 4 = none := by decide
  exact absurd (hnone.symm.trans hplace) (by simp)

/-- The answers of `getPETopoTreeEdges` on distinct PEs form one spanning tree if and only if the
root comes first and, where the machine layer knows the physical nodes, every PE's number is that of
a node too. -/
theorem peTopoTree_iff (pes : Option (List Nat)) (hb : 0 < bfactor) (hroot : root < m.numPes)
    (hpes : ∀ l ∈ pes, root ∈ l ∧ l.Nodup ∧ ∀ pe ∈ l, pe < m.numPes) :
    SpanningTree (vertices m.numPes root pes) root
        (fun pe => getPETopoTreeEdges m topo pe root pes bfactor) ↔
      (vertices m.numPes root pes).head? = some root ∧ (∀ t ∈ topo, ∀ d ∈ t.dimSizes, d ≤ 32) ∧
        ((vertices m.numPes root pes).length = 1 ∨
          (m.supported = true → ∀ pe ∈ vertices m.numPes root pes, pe < m.numNodes)) := by
  have hmem : root ∈ vertices m.numPes root pes := mem_vertices_root fun l hl => (hpes l hl).1
  obtain ⟨hnodup, hlt⟩ := vertices_spec hroot fun l hl => (hpes l hl).2
  have hids : (m.supported = true → ∀ pe ∈ vertices m.numPes root pes, pe < m.numNodes) ↔
      ∀ pe ∈ vertices m.numPes root pes, (phyNodeId m true pe).isSome := by
    have hpe (pe : Nat) : (phyNodeId m true pe).isSome ↔
        (m.supported = true → pe < m.numNodes) := by
      rw [phyNodeId, if_pos rfl, isSome_physicalNodeID, Machine.nodeFirst, Machine.numPes,
        Nat.mul_lt_mul_right m.nodeSize_pos]
    simp only [hpe]
    exact ⟨fun h pe hpe hsupported => h hsupported pe hpe,
      fun h hsupported pe hpe => h pe hpe hsupported⟩
  rw [hids]
  refine ⟨fun h => ?_, fun ⟨hhead, hdims, hnodes⟩ => ?_⟩
  · obtain ⟨place, hplace, -⟩ := h.answers root hmem
    rw [getPETopoTreeEdges] at hplace
    split at hplace
    case isTrue hcond =>
      refine ⟨hcond.2.2.2, ?_⟩
      obtain ⟨v, l, hl⟩ := exists_cons_of_ne_nil (ne_nil_of_mem hmem)
      rw [hl, getNeighborsTopoTreeR, length_cons, walk, bind_eq_some_iff] at hplace
      obtain ⟨subs, hsubs, -⟩ := hplace
      rw [hl]
      exact known_of_splitter hsubs
    case isFalse => exact absurd hplace (by simp)
  · have hgood : Good m true false (vertices m.numPes root pes) := ⟨ne_nil_of_mem hmem, hnodes⟩
    refine (spanningTree_of_good m topo hb hdims hhead hnodup hgood).1.congr hmem fun v hv => ?_
    rw [getPETopoTreeEdges, if_pos ⟨hlt v hv, hroot, hb, hhead⟩]

/-- Two PEs in one process. -/
def twoPes : Machine := ⟨1, 2, false, [0, 0], Nat.two_pos, rfl⟩

theorem peTopoTree_iff_two :
    SpanningTree [0, 1] 0 (fun pe => getPETopoTreeEdges twoPes none pe 0 (some [0, 1]) 4) :=
  (peTopoTree_iff twoPes none (some [0, 1]) (by decide) (by decide) (by decide)).2
    ⟨rfl, by simp, .inr fun h => absurd h (by decide)⟩

/-- Two processes with two PEs each, on one physical node. -/
def fourPes : Machine := ⟨2, 2, true, [0, 0, 0, 0], Nat.two_pos, rfl⟩

/-- PE 2 is taken for a third node, and the physical node of its first PE is looked up past the
end. -/
theorem peTopoTree_no_such_node :
    ¬SpanningTree [0, 1, 2, 3] 0 (fun pe => getPETopoTreeEdges fourPes none pe 0 none 4) := by
  intro h
  obtain ⟨place, hplace, -⟩ := h.answers 0 (by decide)
  have hnone : getPETopoTreeEdges fourPes none 0 0 none 4 = none := by decide
  exact absurd (hnone.symm.trans hplace) (by simp)

end Results

end CharmRuntime.TopoTree
