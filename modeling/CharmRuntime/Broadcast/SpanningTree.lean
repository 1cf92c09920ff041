import CharmRuntime.Broadcast.Machine

/-!
# Broadcast along the spanning tree

Counted from the start node on, node `x` sends to the nodes `f * x + 1, ..., f * x + f`, where `f`
is `BROADCAST_SPANNING_FACTOR`, as far as they exist. Every number but 0 is of this form for one
`x`, its parent `(c - 1) / f`, so that the broadcast reaches every node exactly once
(`spanning_exactlyOnce`). The numbers have to fit into an `int`: with a factor of `2 ^ 30` the
broadcast fails on three nodes (`spanning_overflow`).
-/

set_option autoImplicit false

namespace CharmRuntime.Broadcast.Machine

open Lib Words List

/-! ## The children of a node -/

/-- The children of `x` among the numbers below `n`, from the child `i` on and with `k` more. -/
def spanningChildren (n f x : Nat) : Nat → Nat → List Nat
  | 0, _ => []
  | k + 1, i => if f * x + i < n then (f * x + i) :: spanningChildren n f x k (i + 1) else []

theorem mem_spanningChildren {n f x k i c : Nat} :
    c ∈ spanningChildren n f x k i ↔ f * x + i ≤ c ∧ c < f * x + i + k ∧ c < n := by
  induction k generalizing i with
  | zero =>
    simp only [spanningChildren, not_mem_nil, false_iff]
    omega
  | succ k ih =>
    rw [spanningChildren]
    split
    · rw [mem_cons, ih]
      omega
    · simp only [not_mem_nil, false_iff]
      omega

theorem nodup_spanningChildren (n f x k i : Nat) : (spanningChildren n f x k i).Nodup := by
  induction k generalizing i with
  | zero => exact nodup_nil
  | succ k ih =>
    rw [spanningChildren]
    split
    · refine nodup_cons.2 ⟨fun hmem => ?_, ih (i + 1)⟩
      have := (mem_spanningChildren.1 hmem).1
      omega
    · exact nodup_nil

/-- A number is a child of its parent only. -/
theorem mem_spanningChildren_iff {n f x c : Nat} (hf : 0 < f) :
    c ∈ spanningChildren n f x f 1 ↔ 0 < c ∧ c < n ∧ (c - 1) / f = x := by
  rw [mem_spanningChildren]
  constructor
  · rintro ⟨hlo, hhi, hc⟩
    refine ⟨by omega, hc, ?_⟩
    apply Nat.div_eq_of_lt_le
    · rw [mul_comm]
      omega
    · rw [Nat.succ_mul, mul_comm]
      omega
  · rintro ⟨h0, hc, rfl⟩
    have := Nat.div_add_mod (c - 1) f
    have := Nat.mod_lt (c - 1) hf
    omega

/-! ## The loop -/

variable {m : Machine} {r x : Nat}

/-- The numbers that `SendSpanningChildren` computes on any node fit into an `int`. -/
def SpanningFits (m : Machine) (r : Nat) : Prop :=
  m.broadcastSpanningFactor * (m.numNodes - 1) + 1 < 2 ^ 31 ∧ m.numNodes - 1 + r < 2 ^ 31

section Loop

variable (hr : r < m.numNodes) (hx : x < m.numNodes) (hfits : m.SpanningFits r)

include hr hx hfits

/-- The loop from child `i` on; all children before `i` exist. -/
theorem spanningLoop_eq (k i : Nat) (hi : 1 ≤ i)
    (hbefore : i = 1 ∨ m.broadcastSpanningFactor * x + (i - 1) < m.numNodes) :
    m.spanningLoop (m.nodeAt r x) r k i =
      some ((spanningChildren m.numNodes m.broadcastSpanningFactor x k i).map (m.nodeAt r)) := by
  have hN := m.numNodes_lt
  have hf := m.factor_pos
  have hfx : m.broadcastSpanningFactor * x ≤ m.broadcastSpanningFactor * (m.numNodes - 1) :=
    Nat.mul_le_mul_left _ (by omega)
  obtain ⟨hfit, hroom⟩ := hfits
  induction k generalizing i with
  | zero => rfl
  | succ k ih =>
    rw [spanningLoop, spanningChildren]
    dsimp only
    have hnd : toInt32 (toInt32 (m.broadcastSpanningFactor * (x : Int)) + i) =
        (m.broadcastSpanningFactor * x + i : Nat) := by
      rw [← Int.natCast_mul, toInt32_natCast (by omega), ← Int.natCast_add,
        toInt32_natCast (by omega)]
    rw [relDist_nodeAt hr hx, hnd]
    by_cases hc : m.broadcastSpanningFactor * x + i < m.numNodes
    · have hne : m.nodeAt r (m.broadcastSpanningFactor * x + i) ≠ m.nodeAt r x := by
        intro heq
        have := nodeAt_inj hr hc hx heq
        have := Nat.le_mul_of_pos_left x hf
        omega
      have hnext : toInt32 ((i : Int) + 1) = (i + 1 : Nat) :=
        toInt32_natCast (x := i + 1) (by omega)
      rw [if_neg (by omega), if_pos hc, tmod_nodeAt (by omega), if_pos ⟨by omega, by omega⟩, hnext,
        ih (i + 1) (by omega) (.inr (by omega))]
      rfl
    · rw [if_pos (by omega), if_neg hc]
      rfl

theorem sendSpanningChildren_eq (msg : BcastMsg) (rank : Nat) :
    m.sendSpanningChildren (m.nodeAt r x) msg rank r =
      some ((spanningChildren m.numNodes m.broadcastSpanningFactor x m.broadcastSpanningFactor
        1).map (m.code r { msg with destRank := rank })) := by
  have hloop := spanningLoop_eq hr hx hfits m.broadcastSpanningFactor 1 le_rfl (.inl rfl)
  rw [Int.natCast_one] at hloop
  rw [sendSpanningChildren, if_pos ⟨by omega, by omega⟩, hloop, Option.map_some, copies, map_map]
  rfl

end Loop

theorem spanning_tree (hfits : m.SpanningFits r) (hr : r < m.numNodes) (msg : BcastMsg)
    (hreceive : ∀ x < m.numNodes, m.receive (m.code r msg x) =
      m.sendSpanningChildren (m.nodeAt r x) msg msg.destRank r) :
    NumberedTree m.receive (m.code r msg) m.numNodes
      (fun x => spanningChildren m.numNodes m.broadcastSpanningFactor x m.broadcastSpanningFactor 1)
      (fun c => (c - 1) / m.broadcastSpanningFactor) where
  forward_code x hx := by
    rw [hreceive x hx, sendSpanningChildren_eq hr hx hfits]
  nodup x _ := nodup_spanningChildren ..
  mem_children x _ c := mem_spanningChildren_iff m.factor_pos
  parent_lt c h0 _ := lt_of_le_of_lt (Nat.div_le_self _ _) (by omega)

/-! ## Exactly once -/

/-- With the numbers in range, a broadcast along the spanning tree reaches every node but the first
exactly once: one for the processors, and one for the nodes. -/
theorem spanning_exactlyOnce (m : Machine) (r myRank : Nat) (msg : BcastMsg)
    (hscheme : m.scheme = .spanningTree) (hr : r < m.numNodes) (hfits : m.SpanningFits r) :
    m.ExactlyOnce r (m.cmiSyncBroadcastFn1 r myRank msg) ∧
      m.ExactlyOnce r (m.cmiSyncNodeBroadcastFn r msg) := by
  have hzero : m.nodeAt r 0 = r := nodeAt_zero hr
  constructor
  · obtain ⟨hroot, hstart⟩ := procRoot_toInt32 hr
    refine exactlyOnce_of_tree hr (spanning_tree hfits hr ⟨0, r + 1⟩ fun x hx => ?_) ?_
    · rw [receive, nodeOf_code, code, handleOneBcastMsg, if_pos (by dsimp only; omega),
        if_pos (by dsimp only; omega), processProcBcastMsg, if_pos rfl, sendProc, hscheme]
      rw [sendSpanningChildrenProc, hstart]
    · have := sendSpanningChildren_eq hr m.numNodes_pos hfits ⟨myRank, r + 1⟩ 0
      rw [hzero] at this
      rw [cmiSyncBroadcastFn1, sendProc, hscheme, hroot]
      rw [sendSpanningChildrenProc, hstart, this]
  · obtain ⟨hroot, hstart⟩ := nodeRoot_toInt32 hr
    refine exactlyOnce_of_tree hr
      (spanning_tree hfits hr ⟨dgramNodeMessage, -r - 1⟩ fun x hx => ?_) ?_
    · rw [receive, nodeOf_code, code, handleOneBcastMsg, if_pos (by dsimp only; omega),
        if_neg (by dsimp only; omega), sendNode, hscheme]
      rw [sendSpanningChildrenNode, hstart]
    · have := sendSpanningChildren_eq hr m.numNodes_pos hfits ⟨msg.destRank, -r - 1⟩
        dgramNodeMessage
      rw [hzero] at this
      rw [cmiSyncNodeBroadcastFn, sendNode, hscheme, hroot]
      rw [sendSpanningChildrenNode, hstart, this]

/-- Three nodes with one processor each. -/
def threeNodes (factor : Nat) (hpos : 0 < factor) (hlt : factor < 2 ^ 31) : Machine where
  nodeSizes := [1, 1, 1]
  broadcastSpanningFactor := factor
  scheme := .spanningTree
  smp := false
  nodes_pos := by decide
  sizes_pos := by decide
  pes_lt := by decide
  factor_pos := hpos
  factor_lt := hlt

/-- The default factor on three nodes. -/
theorem spanning_exactlyOnce_three_nodes : (threeNodes 4 (by decide) (by decide)).ExactlyOnce 1
      ((threeNodes 4 (by decide) (by decide)).cmiSyncBroadcastFn1 1 0 ⟨0, 0⟩) :=
  (spanning_exactlyOnce (threeNodes 4 (by decide) (by decide)) 1 0 ⟨0, 0⟩ rfl (by decide)
    ⟨by decide, by decide⟩).1

/-- A factor of `2 ^ 30` makes node 2 compute a negative child, which fails the assertion. -/
theorem spanning_overflow : ¬ (threeNodes (2 ^ 30) (by decide) (by decide)).ExactlyOnce 0
      ((threeNodes (2 ^ 30) (by decide) (by decide)).cmiSyncBroadcastFn1 0 0 ⟨0, 0⟩) := by
  rintro ⟨first, hfirst, -, -, hall⟩
  have hsends : (threeNodes (2 ^ 30) (by decide) (by decide)).cmiSyncBroadcastFn1 0 0 ⟨0, 0⟩ =
      some [⟨1, 0, 1⟩, ⟨2, 0, 1⟩] := by decide +kernel
  cases hfirst.symm.trans hsends
  obtain ⟨-, hhandled, -⟩ := hall [] _ Run.nil
  obtain ⟨next, hnext, -⟩ := hhandled ⟨2, 0, 1⟩ (by simp)
  have hnone : (threeNodes (2 ^ 30) (by decide) (by decide)).receive ⟨2, 0, 1⟩ = none := by
    decide +kernel
  cases hnext.symm.trans hnone

end CharmRuntime.Broadcast.Machine
