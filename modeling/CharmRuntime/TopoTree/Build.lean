import CharmRuntime.Lib.RecursivePartition

/-!
# Spanning trees by recursive partition

The model of `ST_RecursivePartition` and of the functions that use it (`spanningTree.C`). A range of
a vector is the list of its elements. `buildSpanningTree` reorders a range and gives the positions
where the subtrees begin; here it gives the subtrees, which are the parts of the range between these
positions. An abort, a failed assertion and reading past the end of an array give no result.
-/

set_option autoImplicit false

namespace CharmRuntime.TopoTree

open Lib.RecursivePartition

/-! ## The machine -/

/-- Processes ("nodes") with the same number of PEs each. `nodeIDs` are the physical nodes of the
PEs, if the machine layer knows them. -/
structure Machine where
  numNodes : Nat
  nodeSize : Nat
  supported : Bool
  nodeIDs : List Nat
  nodeSize_pos : 0 < nodeSize
  length_nodeIDs : nodeIDs.length = numNodes * nodeSize

namespace Machine

variable (m : Machine)

/-- `CkNumPes`. -/
def numPes : Nat := m.numNodes * m.nodeSize

/-- `CmiNodeFirst`. -/
def nodeFirst (node : Nat) : Nat := node * m.nodeSize

/-- `CkNodeOf`. -/
def nodeOf (pe : Nat) : Nat := pe / m.nodeSize

/-- `CmiPhysicalNodeID`. -/
def physicalNodeID (pe : Nat) : Option Nat :=
  if m.supported then m.nodeIDs[pe]? else some (m.nodeOf pe)

end Machine

/-- `PhyNode`. Its PE and its coordinates are those of its first node. -/
structure PhyNode where
  id : Nat
  nodes : List Nat
  deriving DecidableEq

/-- What is used of the topology manager, when there is topology information: the sizes of the
dimensions, the effect of `nth_element` with the comparison along the dimension of maximal spread,
and the distances. Only that `nth_element` reorders is assumed. -/
structure Topology where
  dimSizes : List Nat
  nthElement : List PhyNode → Nat → List PhyNode
  perm_nthElement : ∀ phyNodes n, (nthElement phyNodes n).Perm phyNodes
  distance : PhyNode → PhyNode → Fin 2147483647

/-! ## Physical nodes -/

section PhyNodes

variable (m : Machine) (nodeTree preSorted : Bool)

/-- The physical node of a vertex of the tree, which is a node or a PE. -/
def phyNodeId (n : Nat) : Option Nat := m.physicalNodeID (if nodeTree then m.nodeFirst n else n)

/-- A vertex is added to its physical node, which is found by its number, or is new. -/
def addNode (id n : Nat) : List PhyNode → List PhyNode
  | [] => [⟨id, [n]⟩]
  | p :: ps => if p.id = id then { p with nodes := p.nodes ++ [n] } :: ps else p :: addNode id n ps

/-- The same when only the last physical node is looked at. -/
def addSorted (id n : Nat) : List PhyNode → List PhyNode
  | [] => [⟨id, [n]⟩]
  | [p] => if p.id = id then [{ p with nodes := p.nodes ++ [n] }] else [p, ⟨id, [n]⟩]
  | p :: q :: ps => p :: addSorted id n (q :: ps)

/-- The loop of `initPhyNodes`. -/
def addNodes : List Nat → List PhyNode → Option (List PhyNode)
  | [], phynodes => some phynodes
  | n :: l, phynodes =>
    (phyNodeId m nodeTree n).bind fun id =>
      addNodes l (if preSorted then addSorted id n phynodes else addNode id n phynodes)

/-- `initPhyNodes`. -/
def initPhyNodes (l : List Nat) : Option (List PhyNode) := addNodes m nodeTree preSorted l []

end PhyNodes

/-! ## Within a physical node -/

/-- `nodePes[node].push_back(pe)`. The map is sorted. -/
def pushPe (node pe : Nat) : List (Nat × List Nat) → List (Nat × List Nat)
  | [] => [(node, [pe])]
  | (n, pes) :: rest =>
    if node = n then (n, pes ++ [pe]) :: rest
    else if node < n then (node, [pe]) :: (n, pes) :: rest
    else (n, pes) :: pushPe node pe rest

/-- The PEs of each node. -/
def nodePes (m : Machine) (pes : List Nat) : List (Nat × List Nat) :=
  pes.foldl (fun map pe => pushPe (m.nodeOf pe) pe map) []

/-- `parts` parts of the given size, of which the last one is the rest. -/
def cut {α : Type} (partSize : Nat) : Nat → List α → List (List α)
  | 0, _ => []
  | 1, l => [l]
  | parts + 2, l => l.take partSize :: cut partSize (parts + 1) (l.drop partSize)

/-- `withinPhyNodeTree`: the subtrees of the root within its physical node. -/
def withinPhyNodeTree (m : Machine) (nodeTree : Bool) (rootPhyNode : PhyNode) (bfactor : Nat) :
    List (List Nat) :=
  let others := rootPhyNode.nodes.drop 1
  if others = [] then []
  else if nodeTree then
    let numChildren := min bfactor others.length
    cut (others.length / numChildren) numChildren others
  else
    let nodes := nodePes m others
    if nodes.length = 1 then (nodes.flatMap (·.2)).map ([·])
    else
      let numChildren := min bfactor nodes.length
      (cut (nodes.length / numChildren) numChildren nodes).map (·.flatMap (·.2))

/-! ## Between physical nodes -/

/-- `nth_element`, if there is topology information. -/
def arrange (topo : Option Topology) (phyNodes : List PhyNode) (n : Nat) : List PhyNode :=
  topo.elim phyNodes fun t => t.nthElement phyNodes n

mutual

/-- `partition`. The two aborts are one. -/
def partition (topo : Option Topology) (nodes : List PhyNode) (numPartitions : Nat) :
    Option (List (List PhyNode)) :=
  if h : 1 < numPartitions ∧ 1 < nodes.length then
    if numPartitions % 3 = 0 then trisect topo nodes numPartitions h.1
    else bisect topo nodes numPartitions h.1
  else if 1 ≤ numPartitions ∧ 1 ≤ nodes.length then some [nodes]
  else if nodes.length = 0 then some []
  else none
termination_by (numPartitions, 1)

/-- `bisect`. -/
def bisect (topo : Option Topology) (nodes : List PhyNode) (numPartitions : Nat)
    (_h : 1 < numPartitions) : Option (List (List PhyNode)) :=
  let median := nodes.length / 2
  let nodes := arrange topo nodes median
  let numLeft := numPartitions / 2
  (partition topo (nodes.take median) numLeft).bind fun left =>
    (partition topo (nodes.drop median) (numPartitions - numLeft)).map fun right => left ++ right
termination_by (numPartitions, 0)

/-- `trisect`. -/
def trisect (topo : Option Topology) (nodes : List PhyNode) (numPartitions : Nat)
    (_h : 1 < numPartitions) : Option (List (List PhyNode)) :=
  let third := nodes.length / 3
  let nodes := arrange topo nodes third
  let rest := arrange topo (nodes.drop third) third
  let numLeft := numPartitions / 3
  (partition topo (nodes.take third) numLeft).bind fun first =>
    (partition topo (rest.take third) numLeft).bind fun second =>
      (partition topo (rest.drop third) numLeft).map fun last => first ++ second ++ last
termination_by (numPartitions, 0)

end

/-- The loop that looks for the closest physical node of a subtree. -/
def closestIdx (distance : PhyNode → Nat) : List PhyNode → Nat → Nat → Option Nat → Option Nat
  | [], _, _, closest => closest
  | p :: ps, j, minDistance, closest =>
    if distance p < minDistance then closestIdx distance ps (j + 1) (distance p) (some j)
    else closestIdx distance ps (j + 1) minDistance closest

/-- The first element of a list is swapped with another one. -/
def swapFirst : List PhyNode → Nat → List PhyNode
  | [], _ => []
  | p :: ps, 0 => p :: ps
  | p :: ps, j + 1 => ps.getD j p :: ps.set j p

/-- `chooseSubtreeRoots`, for one subtree. -/
def chooseSubtreeRoot (t : Topology) (root : PhyNode) (subtree : List PhyNode) :
    Option (List PhyNode) :=
  (closestIdx (fun p => t.distance root p) subtree 0 2147483647 none).map (swapFirst subtree)

/-- `chooseSubtreeRoots`, if there is topology information. -/
def chooseSubtreeRoots (topo : Option Topology) (root : PhyNode) (subtrees : List (List PhyNode)) :
    Option (List (List PhyNode)) :=
  topo.elim (some subtrees) fun t => subtrees.mapM (chooseSubtreeRoot t root)

/-! ## The tree -/

section Build

variable (m : Machine) (topo : Option Topology) (nodeTree : Bool)

/-- `build`. -/
def build (maxBranches : Nat) : List PhyNode → Option (List (List Nat))
  | [] => none
  | rootPhyNode :: phyNodes =>
    let inner := withinPhyNodeTree m nodeTree rootPhyNode maxBranches
    if phyNodes = [] then some inner
    else
      (partition topo phyNodes maxBranches).bind fun subtrees =>
        (chooseSubtreeRoots topo rootPhyNode subtrees).map fun subtrees =>
          inner ++ subtrees.map (·.flatMap PhyNode.nodes)

/-- The constructor of `ST_RecursivePartition`, which aborts if a dimension is too large, and
`buildSpanningTree`. -/
def buildSpanningTree (preSorted : Bool) (l : List Nat) (maxBranches : Nat) :
    Option (List (List Nat)) :=
  if ∀ t ∈ topo, ∀ d ∈ t.dimSizes, d ≤ 32 then
    match l with
    | [] => none
    | [_] => some []
    | _ :: _ :: _ => (initPhyNodes m nodeTree preSorted l).bind (build m topo nodeTree maxBranches)
  else none

/-- `getNeighborsTopoTree_R`. The recursion ends because the subtrees are shorter. -/
def getNeighborsTopoTreeR (l : List Nat) (myElem bfactor : Nat) : Option (Place Nat) :=
  walk (fun preSorted l => buildSpanningTree m topo nodeTree preSorted l
    (min bfactor (l.length - 1)))
    l.length l none myElem

/-- The elements of the tree: those of a list that is given, or all, with the root first. -/
def vertices (num root : Nat) (l : Option (List Nat)) : List Nat :=
  l.getD (root :: (List.range num).filter (· ≠ root))

/-- `getNodeTopoTreeEdges`. -/
def getNodeTopoTreeEdges (node rootNode : Nat) (nodes : Option (List Nat)) (bfactor : Nat) :
    Option (Place Nat) :=
  if node < m.numNodes ∧ rootNode < m.numNodes ∧ 0 < bfactor ∧
      (vertices m.numNodes rootNode nodes).head? = some rootNode then
    getNeighborsTopoTreeR m topo true (vertices m.numNodes rootNode nodes) node bfactor
  else none

/-- `getPETopoTreeEdges`, which builds a tree of nodes too. -/
def getPETopoTreeEdges (pe rootPE : Nat) (pes : Option (List Nat)) (bfactor : Nat) :
    Option (Place Nat) :=
  if pe < m.numPes ∧ rootPE < m.numPes ∧ 0 < bfactor ∧
      (vertices m.numPes rootPE pes).head? = some rootPE then
    getNeighborsTopoTreeR m topo true (vertices m.numPes rootPE pes) pe bfactor
  else none

end Build

end CharmRuntime.TopoTree
