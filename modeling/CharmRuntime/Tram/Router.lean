import CharmRuntime.Lib.MixedRadix

/-!
# The routers of the mesh streamer

The model of `SimpleMeshRouter` and `NodeAwareMeshRouter` (`VirtualRouter.h`). The PEs are the
points of a virtual mesh; a router says in which buffer a PE puts an item, by a dimension and an
index, and to which PE that buffer is sent.

`Router` is the interface that the streamer uses. All numbers are natural: `nextPeAlongRoute` never
names a PE below zero. A missing route (`routeNotFound`) and a failed assertion are `none`.
Broadcasts and cached routes are left out.
-/

set_option autoImplicit false

namespace CharmRuntime.Tram

open List
open Lib.MixedRadix (radix weight digit setDigit)

/-! ## The virtual topology -/

/-- The dimension sizes that `initializeRouter` accepts; the number of PEs is their product. -/
structure Mesh where
  sizes : List Nat
  nonempty : sizes ≠ []
  pos : ∀ s ∈ sizes, 0 < s

/-- A mesh whose dimension sizes are the successors of some numbers. -/
def Mesh.ofSucc (n : Nat) (ns : List Nat) : Mesh where
  sizes := (n + 1) :: ns.map (· + 1)
  nonempty := cons_ne_nil _ _
  pos := by
    refine forall_mem_cons.2 ⟨Nat.succ_pos n, forall_mem_map.2 fun k _ => ?_⟩
    exact Nat.succ_pos k

/-- `combinedDimensionSizes_`, from the last dimension to the first. -/
def combine : List Nat → List Nat
  | [] => []
  | [_] => [1]
  | _ :: s :: rest =>
    match combine (s :: rest) with
    | [] => []
    | c :: cs => c * s :: c :: cs

/-- The loop over `remainder` that fills `myLocationIndex_`. -/
def locate : List Nat → Nat → List Nat
  | [], _ => []
  | c :: cs, remainder => remainder / c :: locate cs (remainder - c * (remainder / c))

namespace Mesh

variable (m : Mesh)

/-- `numDimensions_`. -/
def numDimensions : Nat := m.sizes.length

/-- `numMembers_`. -/
def numMembers : Nat := m.sizes.prod

/-- `individualDimensionSizes_`. -/
def individualDimensionSizes (dimension : Nat) : Nat := m.sizes.getD dimension 1

/-- `combinedDimensionSizes_`. -/
def combinedDimensionSizes (dimension : Nat) : Nat := (combine m.sizes).getD dimension 1

/-- `myLocationIndex_` of a PE. -/
def myLocationIndex (pe dimension : Nat) : Nat := (locate (combine m.sizes) pe).getD dimension 0

end Mesh

/-! ## The interface -/

/-- `Route`. -/
structure Route where
  dimension : Nat
  dimensionIndex : Nat
  destinationPe : Nat
  deriving DecidableEq

/-- `initialCompletionStage`. -/
def initialCompletionStage : Int := -2

/-- `finalCompletionStage`. -/
def finalCompletionStage : Int := -1

/-- `CompletionStatus`. -/
structure CompletionStatus where
  stageIndex : Int
  numContributors : Nat
  dimensionsToFlush : List Nat
  deriving DecidableEq

/-- What the streamer on a PE asks its router. -/
structure Router where
  determineInitialRoute : Nat → Option Route
  determineRoute : Nat → Nat → Option Route
  nextPeAlongRoute : Nat → Nat → Nat
  numBuffersPerDimension : Nat → Nat
  isMessagePersonalized : Nat → Bool
  determineMsgType : Nat → Nat
  dimensionReceived : Nat → Option Nat
  numMsgTypes : Nat
  updateCompletionProgress : CompletionStatus → CompletionStatus

/-! ## `MeshRouter` -/

namespace Mesh

variable (m : Mesh) (pe : Nat)

/-- `routeAlongDimension`. -/
def routeAlongDimension (destinationPe dimension : Nat) : Nat :=
  let blockIndex := destinationPe / m.combinedDimensionSizes dimension
  blockIndex - blockIndex / m.individualDimensionSizes dimension *
    m.individualDimensionSizes dimension

/-- `MeshRouter::nextPeAlongRoute`. -/
def nextPeAlongRoute (dimension dimensionIndex : Nat) : Nat :=
  pe + dimensionIndex * m.combinedDimensionSizes dimension -
    m.myLocationIndex pe dimension * m.combinedDimensionSizes dimension

/-- The loop of `MeshRouter::determineRoute`: the last dimension below `dimensionReceivedAlong`
along which the destination is elsewhere, and its index there. -/
def findRoute (destinationPe : Nat) : Nat → Option (Nat × Nat)
  | 0 => none
  | i + 1 =>
    let dimensionIndex := m.routeAlongDimension destinationPe i
    if dimensionIndex ≠ m.myLocationIndex pe i then some (i, dimensionIndex)
    else findRoute destinationPe i

/-- `MeshRouter::determineInitialRoute`, over the router's own `determineRoute`. -/
def determineInitialRoute (determineRoute : Nat → Nat → Option Route)
    (initialRoutingDimension destinationPe : Nat) : Option Route :=
  if destinationPe = pe then some ⟨0, m.routeAlongDimension destinationPe 0, destinationPe⟩
  else determineRoute destinationPe (initialRoutingDimension + 1)

/-- The stage after another one; the first is `first`. -/
def nextStage (first stageIndex : Int) : Int :=
  if stageIndex = initialCompletionStage then first else stageIndex - 1

/-! ## `SimpleMeshRouter` -/

/-- `MeshRouter::assignRoute`. -/
def assignRoute (r : Nat × Nat) : Route := ⟨r.1, r.2, m.nextPeAlongRoute pe r.1 r.2⟩

/-- `MeshRouter::determineRoute`. -/
def determineRoute (destinationPe dimensionReceivedAlong : Nat) : Option Route :=
  (m.findRoute pe destinationPe dimensionReceivedAlong).map (m.assignRoute pe)

/-- `MeshRouter::updateCompletionProgress`. -/
def updateCompletionProgress (status : CompletionStatus) : CompletionStatus :=
  let stage := nextStage (m.numDimensions - 1) status.stageIndex
  if stage = finalCompletionStage then { status with stageIndex := stage }
  else ⟨stage, m.individualDimensionSizes stage.toNat - 1,
    status.dimensionsToFlush ++ [stage.toNat]⟩

/-- `SimpleMeshRouter` on a PE. With `CMK_MULTICORE` all messages have the same type. -/
def simpleMeshRouter (multicore : Bool) : Router where
  determineInitialRoute := m.determineInitialRoute pe (m.determineRoute pe) (m.numDimensions - 1)
  determineRoute := m.determineRoute pe
  nextPeAlongRoute := m.nextPeAlongRoute pe
  numBuffersPerDimension := m.individualDimensionSizes
  isMessagePersonalized _ := false
  determineMsgType dimension := if multicore then (!false).toNat else dimension
  dimensionReceived msgType := some msgType
  numMsgTypes := m.numDimensions
  updateCompletionProgress := m.updateCompletionProgress

/-! ## `NodeAwareMeshRouter` -/

namespace NodeAware

/-- The last dimension, whose PEs are in one node. -/
def last : Nat := m.numDimensions - 1

/-- `teamSize_`. -/
def teamSize : Nat := m.individualDimensionSizes (last m) / m.numDimensions

/-- `myAssignedDim_`. -/
def myAssignedDim : Nat := m.myLocationIndex pe (last m) / teamSize m

/-- `dimensionOfArrivingMsgs_`. The PEs that are left over have no dimension. -/
def dimensionOfArrivingMsgs : Nat :=
  if myAssignedDim m pe > last m then last m
  else if myAssignedDim m pe = last m then 0
  else myAssignedDim m pe + 1

/-- `forwardingDestinations_`. -/
def forwardingDestinations (dimension : Nat) : Nat :=
  pe - m.myLocationIndex pe (last m) + pe % teamSize m + dimension * teamSize m

/-- `NodeAwareMeshRouter::nextPeAlongRoute`. -/
def nextPeAlongRoute (dimension dimensionIndex : Nat) : Nat :=
  if dimension = myAssignedDim m pe then
    let destinationPe := m.nextPeAlongRoute pe dimension dimensionIndex
    if dimension = 0 then destinationPe + (m.numDimensions - 1) * teamSize m
    else if dimension ≠ last m then destinationPe - teamSize m
    else destinationPe
  else forwardingDestinations m pe dimension

/-- `NodeAwareMeshRouter::assignRoute`. -/
def assignRoute (r : Nat × Nat) : Route :=
  ⟨r.1, if myAssignedDim m pe = r.1 then r.2 else 0, nextPeAlongRoute m pe r.1 r.2⟩

/-- `NodeAwareMeshRouter::determineRoute`. -/
def determineRoute (destinationPe dimensionReceivedAlong : Nat) : Option Route :=
  match m.findRoute pe destinationPe dimensionReceivedAlong with
  | some r => some (assignRoute m pe r)
  | none => some (assignRoute m pe (last m, m.routeAlongDimension destinationPe (last m)))

/-- `isMessagePersonalized`. -/
def isMessagePersonalized (dimension : Nat) : Bool :=
  dimension == last m && myAssignedDim m pe == last m

/-- The loop of `numSendingToMe` over the PEs without a team. -/
def countLeftOver : Nat → Nat → Nat
  | 0, _ => 0
  | fuel + 1, offset =>
    if offset < m.individualDimensionSizes (last m) then countLeftOver fuel
      (offset + teamSize m) + 1 else 0

/-- `numSendingToMe`; `forwardMsgType` is 1 and `personalizedMsgType` is 0. -/
def numSendingToMe (msgType : Nat) : Nat :=
  if msgType = 1 then
    if myAssignedDim m pe > last m then 0
    else
      last m +
        (if myAssignedDim m pe ≠ m.numDimensions - 2 then
          m.individualDimensionSizes (dimensionOfArrivingMsgs m pe) - 1 else 0) +
        countLeftOver m (m.individualDimensionSizes (last m))
          (m.myLocationIndex pe (last m) + (m.numDimensions - myAssignedDim m pe) * teamSize m)
  else if myAssignedDim m pe = last m then teamSize m - 1
  else teamSize m

/-- `NodeAwareMeshRouter::updateCompletionProgress`. -/
def updateCompletionProgress (status : CompletionStatus) : CompletionStatus :=
  let stage := nextStage 1 status.stageIndex
  if stage = finalCompletionStage then { status with stageIndex := stage }
  else
    ⟨stage, numSendingToMe m pe stage.toNat, status.dimensionsToFlush ++
        if stage = 1 then ((List.range (last m)).filter (dimensionOfArrivingMsgs m pe ≤ ·)).reverse
        else (List.range (dimensionOfArrivingMsgs m pe)).reverse ++ [last m]⟩

end NodeAware

/-- `NodeAwareMeshRouter` on a PE. -/
def nodeAwareMeshRouter : Router where
  determineInitialRoute :=
    m.determineInitialRoute pe (NodeAware.determineRoute m pe) (m.numDimensions - 2)
  determineRoute := NodeAware.determineRoute m pe
  nextPeAlongRoute := NodeAware.nextPeAlongRoute m pe
  numBuffersPerDimension dimension :=
    if dimension = NodeAware.myAssignedDim m pe then m.individualDimensionSizes dimension else 1
  isMessagePersonalized := NodeAware.isMessagePersonalized m pe
  determineMsgType dimension := (!NodeAware.isMessagePersonalized m pe dimension).toNat
  dimensionReceived msgType := if msgType = 1 then some (NodeAware.dimensionOfArrivingMsgs m pe)
    else none
  numMsgTypes := 2
  updateCompletionProgress := NodeAware.updateCompletionProgress m pe

end Mesh

/-- The two routers; `SimpleMeshRouter` in the two builds. -/
inductive Kind
  | simple (multicore : Bool)
  | nodeAware
  deriving DecidableEq

/-- The meshes that a router accepts (`initializeRouter`, `additionalInitialization`). -/
def Kind.Accepts (m : Mesh) : Kind → Prop
  | .simple _ => True
  | .nodeAware => 2 ≤ m.numDimensions ∧ m.numDimensions ≤
      m.individualDimensionSizes (m.numDimensions - 1)

/-- The router of a PE. -/
def Kind.router (m : Mesh) (pe : Nat) : Kind → Router
  | .simple multicore => m.simpleMeshRouter pe multicore
  | .nodeAware => m.nodeAwareMeshRouter pe

/-! ## Locations are digits -/

theorem combine_cons (s : Nat) (sizes : List Nat) (h : sizes ≠ []) :
    combine (s :: sizes) = sizes.prod :: combine sizes := by
  induction sizes generalizing s with
  | nil => exact absurd rfl h
  | cons r rest ih =>
    by_cases hrest : rest = []
    · subst hrest
      simp [combine]
    · rw [combine, ih r hrest]
      simp [Nat.mul_comm]

theorem combine_getD (sizes : List Nat) (i : Nat) : (combine sizes).getD i 1 = weight sizes i := by
  induction sizes generalizing i with
  | nil => simp [combine, weight]
  | cons s sizes ih =>
    by_cases hsizes : sizes = []
    · subst hsizes
      cases i <;> simp [combine, weight]
    · rw [combine_cons s sizes hsizes]
      cases i with
      | zero => rfl
      | succ i => simpa using ih i

theorem locate_getD (sizes : List Nat) (hpos : ∀ s ∈ sizes, 0 < s) (p i : Nat)
    (hp : p < sizes.prod) : (locate (combine sizes) p).getD i 0 = digit sizes p i := by
  induction sizes generalizing p i with
  | nil => simp [combine, locate, digit, radix, Nat.mod_one]
  | cons s sizes ih =>
    have hpos' : ∀ r ∈ sizes, 0 < r := fun r hr => hpos r (mem_cons_of_mem _ hr)
    rw [prod_cons, Nat.mul_comm] at hp
    by_cases hsizes : sizes = []
    · subst hsizes
      rw [prod_nil, Nat.one_mul] at hp
      cases i with
      | zero => simp [combine, locate, digit, weight, radix, Nat.mod_eq_of_lt hp]
      | succ i => simp [combine, locate, digit, radix, Nat.mod_one]
    · rw [combine_cons s sizes hsizes, locate]
      cases i with
      | zero =>
        have hdiv : p / sizes.prod < s := Nat.div_lt_of_lt_mul hp
        simp [digit, weight, radix, Nat.mod_eq_of_lt hdiv]
      | succ i =>
        -- what is left after the first dimension is the remainder, which has the same digits
        have hrem : p - sizes.prod * (p / sizes.prod) = p % sizes.prod :=
          (Nat.mod_def p sizes.prod).symm
        have hlt : p % sizes.prod < sizes.prod := Nat.mod_lt _ (prod_pos hpos')
        rw [hrem, getD_cons_succ, ih hpos' _ _ hlt, Lib.MixedRadix.digit_cons_succ]
        exact Lib.MixedRadix.digit_eq_of_mod
          (Nat.mod_mod_of_dvd p (Lib.MixedRadix.radix_mul_weight_dvd_prod sizes i))

namespace Mesh

variable (m : Mesh) {pe dest i x : Nat}

@[simp] theorem combinedDimensionSizes_eq : m.combinedDimensionSizes i = weight m.sizes i :=
  combine_getD m.sizes i

@[simp] theorem individualDimensionSizes_eq : m.individualDimensionSizes i = radix m.sizes i := rfl

theorem myLocationIndex_eq (h : pe < m.numMembers) : m.myLocationIndex pe i = digit m.sizes pe i :=
  locate_getD m.sizes m.pos pe i h

@[simp] theorem routeAlongDimension_eq : m.routeAlongDimension dest i = digit m.sizes dest i := by
  simp only [routeAlongDimension, combinedDimensionSizes_eq, individualDimensionSizes_eq, digit]
  rw [Nat.mod_def, Nat.mul_comm]

theorem nextPeAlongRoute_eq (h : pe < m.numMembers) :
    m.nextPeAlongRoute pe i x = setDigit m.sizes pe i x := by
  rw [nextPeAlongRoute, combinedDimensionSizes_eq, m.myLocationIndex_eq h, setDigit]

end Mesh

end CharmRuntime.Tram
