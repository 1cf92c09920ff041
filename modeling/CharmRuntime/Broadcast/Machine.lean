import CharmRuntime.Lib.Dissemination
import CharmRuntime.Lib.Words

/-!
# Broadcasts between nodes

A broadcast starts on one node and is forwarded from node to node. Every node computes the nodes
that it sends to from its own number and the start node, which it reads from the `root` field of the
message: along a tree with a fixed number of children (`sendSpanningChildren`), or along a hypercube
(`sendHyperCube`); which of the two is chosen when the machine layer is built. A message for
processors has a positive root, one for nodes a negative root.

The model has the copies that go from node to node. Numbers are `int`, so sums and products are
reduced to 32 bits. A failed `CmiAssert` is `none`. What a node does with the message itself
(`CmiPushPE`, `CmiPushNode`, `SendToPeers`) stays inside of the node and is left out.

`Machine.ExactlyOnce` says what a broadcast is for: whatever the order in which the copies arrive,
the copies come to an end, and every node but the first receives one of them.
`Machine.exactlyOnce_of_tree` gets it from a tree on the numbers of the nodes, which are counted
from the start node on.
-/

set_option autoImplicit false

namespace CharmRuntime.Broadcast

open Lib Words List

/-! ## The machine -/

/-- `CMK_BROADCAST_SPANNING_TREE` or `CMK_BROADCAST_HYPERCUBE`. -/
inductive Scheme
  | spanningTree
  | hyperCube
  deriving DecidableEq, Repr

/-- The nodes with the number of processors of each, and the options of the build. All numbers are
in the range of `int`. -/
structure Machine where
  nodeSizes : List Nat
  broadcastSpanningFactor : Nat
  scheme : Scheme
  smp : Bool
  nodes_pos : 0 < nodeSizes.length
  sizes_pos : ∀ size ∈ nodeSizes, 0 < size
  pes_lt : nodeSizes.sum < 2 ^ 31
  factor_pos : 0 < broadcastSpanningFactor
  factor_lt : broadcastSpanningFactor < 2 ^ 31

namespace Machine

variable (m : Machine)

/-- `CmiNumNodes`. -/
def numNodes : Nat := m.nodeSizes.length

/-- `CmiNumPes`. -/
def numPes : Nat := m.nodeSizes.sum

/-- `CmiNodeFirst`: the first processor of a node. -/
def nodeFirst (nd : Nat) : Nat := (m.nodeSizes.take nd).sum

/-- `CmiNodeOf`: the node of a processor. -/
def nodeOf (pe : Nat) : Nat := go m.nodeSizes pe
where
  go : List Nat → Nat → Nat
    | [], _ => 0
    | size :: sizes, pe => if pe < size then 0 else go sizes (pe - size) + 1

end Machine

/-- The fields of a message header that a broadcast uses: `CMI_DEST_RANK` and
`CMI_BROADCAST_ROOT`. -/
structure BcastMsg where
  destRank : Nat
  broadcastRoot : Int
  deriving DecidableEq, Repr

/-- A copy on its way: the arguments of `CmiSendNetworkFunc`. -/
structure Packet where
  destPE : Nat
  msg : BcastMsg
  deriving DecidableEq, Repr

/-- `DGRAM_NODEMESSAGE`, the rank of messages for nodes. -/
def dgramNodeMessage : Nat := 0x1FFB

namespace Machine

variable (m : Machine)

/-- A copy of the message for each of the nodes. -/
def copies (rankToAssign : Nat) (msg : BcastMsg) (nodes : List Nat) : List Packet :=
  nodes.map fun nd => ⟨m.nodeFirst nd, { msg with destRank := rankToAssign }⟩

/-! ## The spanning tree -/

/-- The loop of `SendSpanningChildren`, from child `i` on and with `k` more children. -/
def spanningLoop (myNode startNode : Int) : Nat → Int → Option (List Nat)
  | 0, _ => some []
  | k + 1, i =>
    let nd := toInt32 (myNode - startNode)
    let nd := if nd < 0 then toInt32 (nd + m.numNodes) else nd
    let nd := toInt32 (toInt32 (m.broadcastSpanningFactor * nd) + i)
    if nd > m.numNodes - 1 then some []
    else
      let nd := toInt32 (nd + startNode)
      let nd := Int.tmod nd m.numNodes
      if 0 ≤ nd ∧ nd ≠ myNode then
        (spanningLoop myNode startNode k (toInt32 (i + 1))).map (nd.toNat :: ·)
      else none

/-- `SendSpanningChildren` without a topology tree (`_topoTree` is `NULL`). -/
def sendSpanningChildren (myNode : Int) (msg : BcastMsg) (rankToAssign : Nat) (startNode : Int) :
    Option (List Packet) :=
  if 0 ≤ startNode ∧ startNode < m.numNodes then
    (m.spanningLoop myNode startNode m.broadcastSpanningFactor 1).map (m.copies rankToAssign msg)
  else none

/-- `SendSpanningChildrenProc`. -/
def sendSpanningChildrenProc (myNode : Int) (msg : BcastMsg) : Option (List Packet) :=
  m.sendSpanningChildren myNode msg 0 (toInt32 (msg.broadcastRoot - 1))

/-- `SendSpanningChildrenNode`. -/
def sendSpanningChildrenNode (myNode : Int) (msg : BcastMsg) : Option (List Packet) :=
  m.sendSpanningChildren myNode msg dgramNodeMessage (toInt32 (-msg.broadcastRoot - 1))

/-! ## The hypercube -/

/-- The loop that computes `CmiNodesDim` at startup. -/
def dimLoop (tmp : Nat) : Nat :=
  if 0 < tmp then dimLoop (tmp / 2) + 1 else 0

/-- `CmiNodesDim`. -/
def nodesDim : Nat := if m.numNodes = 1 then 1 else dimLoop (m.numNodes - 1)

/-- The loop of `SendHyperCube`. A partner that is out of range is skipped. -/
def hyperCubeLoop (myNode relDist startNode cnt : Int) : Option (List Nat) :=
  if 0 < cnt then
    let nd := toInt32 (relDist + cnt)
    if nd ≥ m.numNodes then hyperCubeLoop myNode relDist startNode (cnt / 2)
    else
      let nd := Int.tmod (toInt32 (nd + startNode)) m.numNodes
      if 0 ≤ nd ∧ nd ≠ myNode then
        (hyperCubeLoop myNode relDist startNode (cnt / 2)).map (nd.toNat :: ·)
      else none
  else some []
termination_by cnt.toNat

/-- `x & ((~x)+1)` on `int`. -/
def lowestBit (x : Int) : Int := (BitVec.ofInt 32 x &&& (~~~ BitVec.ofInt 32 x + 1)).toInt

/-- `SendHyperCube`. -/
def sendHyperCube (myNode : Int) (msg : BcastMsg) (rankToAssign : Nat) (startNode : Int) :
    Option (List Packet) :=
  let relDist := toInt32 (myNode - startNode)
  let relDist := if relDist < 0 then toInt32 (relDist + m.numNodes) else relDist
  let cnt := if relDist = 0 then toInt32 (2 ^ m.nodesDim) else lowestBit relDist
  (m.hyperCubeLoop myNode relDist startNode (cnt / 2)).map (m.copies rankToAssign msg)

/-- `SendHyperCubeProc`: the root of the message is taken for a processor. -/
def sendHyperCubeProc (myNode : Int) (msg : BcastMsg) : Option (List Packet) :=
  let startpe := toInt32 (msg.broadcastRoot - 1)
  let startnode : Int := m.nodeOf startpe.toNat
  let startnode := if m.smp ∧ startpe > m.numPes then toInt32 (startpe - m.numPes) else startnode
  m.sendHyperCube myNode msg 0 startnode

/-- `SendHyperCubeNode`. -/
def sendHyperCubeNode (myNode : Int) (msg : BcastMsg) : Option (List Packet) :=
  m.sendHyperCube myNode msg dgramNodeMessage (toInt32 (-msg.broadcastRoot - 1))

/-! ## Starting and receiving -/

variable (myNode : Int) (msg : BcastMsg) {nd : Nat}

/-- `SendSpanningChildrenProc` or `SendHyperCubeProc`. -/
def sendProc : Option (List Packet) :=
  match m.scheme with
  | .spanningTree => m.sendSpanningChildrenProc myNode msg
  | .hyperCube => m.sendHyperCubeProc myNode msg

/-- `SendSpanningChildrenNode` or `SendHyperCubeNode`. -/
def sendNode : Option (List Packet) :=
  match m.scheme with
  | .spanningTree => m.sendSpanningChildrenNode myNode msg
  | .hyperCube => m.sendHyperCubeNode myNode msg

/-- `processProcBcastMsg`. -/
def processProcBcastMsg : Option (List Packet) :=
  if msg.destRank = 0 then m.sendProc myNode msg else none

/-- `handleOneBcastMsg` with `processNodeBcastMsg`: the sign of the root tells the two kinds of
messages apart. -/
def handleOneBcastMsg : Option (List Packet) :=
  if msg.broadcastRoot ≠ 0 then
    if msg.broadcastRoot > 0 then m.processProcBcastMsg myNode msg else m.sendNode myNode msg
  else none

/-- `CmiSyncBroadcastFn1`, called on a node by the processor with rank `myRank`. -/
def cmiSyncBroadcastFn1 (myNode myRank : Nat) (msg : BcastMsg) : Option (List Packet) :=
  m.sendProc myNode { msg with destRank := myRank, broadcastRoot := toInt32 (myNode + 1) }

/-- `CmiSyncNodeBroadcastFn`. -/
def cmiSyncNodeBroadcastFn (myNode : Nat) (msg : BcastMsg) : Option (List Packet) :=
  m.sendNode myNode { msg with broadcastRoot := toInt32 (-myNode - 1) }

/-- What the node does that receives a copy. -/
def receive (p : Packet) : Option (List Packet) :=
  m.handleOneBcastMsg (m.nodeOf p.destPE) p.msg

/-- The number of copies that a node has received. -/
def receipts (s : Spread Packet) (nd : Nat) : Nat :=
  (s.received.map fun p => m.nodeOf p.destPE).count nd

/-- A broadcast from node `r`, which starts with the copies `sends`: the copies can be delivered
until none is left. In every run there are fewer copies than nodes, no copy makes its receiver fail
or send to itself, no node receives two copies, `r` receives none, and when no copy is left every
other node has received one. -/
def ExactlyOnce (r : Nat) (sends : Option (List Packet)) : Prop :=
  ∃ first, sends = some first ∧ (∀ q ∈ first, m.nodeOf q.destPE ≠ r) ∧
    (∃ es s, Run (Delivery m.receive) ⟨first, []⟩ es s ∧ s.inFlight = []) ∧
    ∀ es s, Run (Delivery m.receive) ⟨first, []⟩ es s →
      s.received.length < m.numNodes ∧
      (∀ p ∈ s.inFlight, ∃ next, m.receive p = some next ∧
        ∀ q ∈ next, m.nodeOf q.destPE ≠ m.nodeOf p.destPE) ∧
      (∀ nd < m.numNodes, nd ≠ r → m.receipts s nd ≤ 1) ∧
      m.receipts s r = 0 ∧
      (s.inFlight = [] → ∀ nd < m.numNodes, nd ≠ r → m.receipts s nd = 1)

/-! ## Nodes and processors -/

section

variable (sizes : List Nat) (hpos : ∀ size ∈ sizes, 0 < size)

include sizes hpos

theorem nodeOf_go_sum_take (nd : Nat)
    (hnd : nd < sizes.length) : nodeOf.go sizes (sizes.take nd).sum = nd := by
  induction sizes generalizing nd with
  | nil => cases hnd
  | cons size sizes ih =>
    have hsize : 0 < size := hpos size (mem_cons_self ..)
    cases nd with
    | zero => simp [nodeOf.go, hsize]
    | succ nd =>
      have hrest := ih (fun k hk => hpos k (mem_cons_of_mem _ hk)) nd
        (Nat.lt_of_succ_lt_succ hnd)
      rw [take_succ_cons, sum_cons, nodeOf.go, if_neg (by omega), Nat.add_sub_cancel_left, hrest]

omit sizes hpos in
theorem nodeOf_nodeFirst (hnd : nd < m.numNodes) : m.nodeOf (m.nodeFirst nd) = nd :=
  nodeOf_go_sum_take m.nodeSizes m.sizes_pos nd hnd

/-- The number of a node as a number of a processor belongs to the same node if and only if there is
one processor on each of the nodes before it. -/
theorem nodeOf_go_self_iff (r : Nat) (hr : r < sizes.length) :
    nodeOf.go sizes r ≤ r ∧ (nodeOf.go sizes r = r ↔ ∀ size ∈ sizes.take r, size = 1) := by
  induction sizes generalizing r with
  | nil => cases hr
  | cons size sizes ih =>
    have hsize : 0 < size := hpos size (mem_cons_self ..)
    have hrest : ∀ k ∈ sizes, 0 < k := fun k hk => hpos k (mem_cons_of_mem _ hk)
    cases r with
    | zero => simp [nodeOf.go, hsize]
    | succ r =>
      have hr' : r < sizes.length := Nat.lt_of_succ_lt_succ hr
      rw [nodeOf.go, take_succ_cons, forall_mem_cons]
      by_cases hone : size = 1
      · subst hone
        obtain ⟨hle, hiff⟩ := ih hrest r hr'
        rw [if_neg (by omega), Nat.add_sub_cancel, ← hiff]
        omega
      · by_cases hlt : r + 1 < size
        · rw [if_pos hlt]
          omega
        · obtain ⟨hle, -⟩ := ih hrest (r + 1 - size) (by omega)
          rw [if_neg hlt]
          omega

end

theorem numNodes_le_numPes : m.numNodes ≤ m.numPes := length_le_sum_of_one_le _ m.sizes_pos

theorem numNodes_pos : 0 < m.numNodes := m.nodes_pos

theorem numNodes_lt : m.numNodes < 2 ^ 31 :=
  lt_of_le_of_lt m.numNodes_le_numPes m.pes_lt

/-! ## Numbers counted from the start node -/

/-- The node with number `x` when the nodes are counted from `r` on. -/
def nodeAt (r x : Nat) : Nat := (x + r) % m.numNodes

theorem nodeAt_lt (r x : Nat) : m.nodeAt r x < m.numNodes := Nat.mod_lt _ m.numNodes_pos

variable {m} {r x c : Nat}

section

variable (hr : r < m.numNodes)

include hr

theorem nodeAt_zero : m.nodeAt r 0 = r := by
  rw [nodeAt, zero_add, Nat.mod_eq_of_lt hr]

theorem nodeAt_eq (hx : x < m.numNodes) :
    m.nodeAt r x = if x + r < m.numNodes then x + r else x + r - m.numNodes := by
  rw [nodeAt]
  split
  · next h => exact Nat.mod_eq_of_lt h
  · next h => rw [Nat.mod_eq_sub_mod (by omega), Nat.mod_eq_of_lt (by omega)]

theorem nodeAt_inj (hx : x < m.numNodes) (hc : c < m.numNodes)
    (h : m.nodeAt r x = m.nodeAt r c) : x = c := by
  rw [nodeAt_eq hr hx, nodeAt_eq hr hc] at h
  split at h <;> split at h <;> omega

theorem exists_nodeAt (hnd : nd < m.numNodes) : ∃ x < m.numNodes, m.nodeAt r x = nd := by
  by_cases hle : r ≤ nd
  · refine ⟨nd - r, by omega, ?_⟩
    rw [nodeAt_eq hr (by omega), if_pos (by omega)]
    omega
  · refine ⟨nd + m.numNodes - r, by omega, ?_⟩
    rw [nodeAt_eq hr (by omega), if_neg (by omega)]
    omega

/-- The distance of a node from the start node, as both functions compute it. -/
theorem relDist_nodeAt (hx : x < m.numNodes) : (if toInt32 ((m.nodeAt r x : Int) - r) < 0 then
      toInt32 (toInt32 ((m.nodeAt r x : Int) - r) + m.numNodes)
    else toInt32 ((m.nodeAt r x : Int) - r)) = (x : Int) := by
  have hN := m.numNodes_lt
  have hnd := m.nodeAt_lt r x
  have heq := nodeAt_eq hr hx
  rw [toInt32_of_range (by omega) (by omega)]
  split at heq
  · omega
  · rw [if_pos (by omega), toInt32_of_range (by omega) (by omega)]
    omega

omit hr in
/-- The node of a child, as both functions compute it. -/
theorem tmod_nodeAt (hfit : c + r < 2 ^ 31) :
    Int.tmod (toInt32 ((c : Int) + r)) m.numNodes = m.nodeAt r c := by
  rw [toInt32_of_range (by omega) (by omega), ← Int.natCast_add, ← Int.ofNat_tmod, nodeAt]

/-- The start of a processor broadcast as `CMI_BROADCAST_ROOT` carries it. -/
theorem procRoot_toInt32 : toInt32 ((r : Int) + 1) = r + 1 ∧ toInt32 ((r : Int) + 1 - 1) = r := by
  have hlt := m.numNodes_lt
  rw [Int.add_sub_cancel]
  exact ⟨toInt32_of_range (by omega) (by omega), toInt32_of_range (by omega) (by omega)⟩

/-- The start of a node broadcast. -/
theorem nodeRoot_toInt32 :
    toInt32 (-(r : Int) - 1) = -r - 1 ∧ toInt32 (-(-(r : Int) - 1) - 1) = r := by
  have hlt := m.numNodes_lt
  refine ⟨toInt32_of_range (by omega) (by omega), ?_⟩
  rw [toInt32_of_range (by omega) (by omega)]
  omega

end

/-- The copy for the node with number `x`. -/
def code (m : Machine) (r : Nat) (msg : BcastMsg) (x : Nat) : Packet :=
  ⟨m.nodeFirst (m.nodeAt r x), msg⟩

theorem nodeOf_code (msg : BcastMsg) : m.nodeOf (m.code r msg x).destPE = m.nodeAt r x :=
  m.nodeOf_nodeFirst (m.nodeAt_lt r x)

/-- A tree on the numbers counted from `r` delivers exactly once. -/
theorem exactlyOnce_of_tree {msg : BcastMsg} {children : Nat → List Nat} {parent : Nat → Nat}
    (hr : r < m.numNodes) (h : NumberedTree m.receive (m.code r msg) m.numNodes children parent)
    {sends : Option (List Packet)} (hsends : sends = some ((children 0).map (m.code r msg))) :
    m.ExactlyOnce r sends := by
  have hn := m.numNodes_pos
  -- a child has another number than its parent, so it is another node
  have hother : ∀ x < m.numNodes, ∀ q ∈ (children x).map (m.code r msg),
      m.nodeOf q.destPE ≠ m.nodeAt r x := by
    intro x hx q hq heq
    obtain ⟨c, hc, rfl⟩ := mem_map.1 hq
    obtain ⟨h0, hlt, hpar⟩ := (h.mem_children x hx c).1 hc
    rw [nodeOf_code] at heq
    have := h.parent_lt c h0 hlt
    have := nodeAt_inj hr hlt hx heq
    omega
  have hinj : ∀ x < m.numNodes, ∀ y < m.numNodes,
      m.nodeOf (m.code r msg x).destPE = m.nodeOf (m.code r msg y).destPE → x = y := by
    intro x hx y hy heq
    rw [nodeOf_code, nodeOf_code] at heq
    exact nodeAt_inj hr hx hy heq
  refine ⟨_, hsends, ?_, h.exists_end hn Run.nil, fun es s hrun => ⟨?_, ?_, ?_, ?_, ?_⟩⟩
  · intro q hq
    have := hother 0 hn q hq
    rwa [nodeAt_zero hr] at this
  · exact h.length_lt hn hrun
  · intro p hp
    obtain ⟨x, hx, rfl⟩ := h.inFlight_code hn hrun hp
    refine ⟨_, h.forward_code x hx, fun q hq => ?_⟩
    rw [nodeOf_code]
    exact hother x hx q hq
  · intro nd hnd _
    obtain ⟨x, hx, rfl⟩ := exists_nodeAt hr hnd
    have := h.count_le_one (f := fun p => m.nodeOf p.destPE) hn hrun hinj hx
    rwa [nodeOf_code] at this
  · have := h.count_root (f := fun p => m.nodeOf p.destPE) hn hrun hinj
    rwa [nodeOf_code, nodeAt_zero hr] at this
  · intro hend nd hnd hne
    obtain ⟨x, hx, rfl⟩ := exists_nodeAt hr hnd
    have h0 : 0 < x := by
      rcases Nat.eq_zero_or_pos x with rfl | h0
      · exact absurd (nodeAt_zero hr) hne
      · exact h0
    have := h.count_eq_one (f := fun p => m.nodeOf p.destPE) hn hrun hinj hend h0 hx
    rwa [nodeOf_code] at this

end Machine

end CharmRuntime.Broadcast
