import CharmRuntime.Lib.Run
import CharmRuntime.Tram.Router

/-!
# The mesh streamer

The model of `MeshStreamer` and of `GroupMeshStreamer` (`NDMeshStreamer.h`): on each PE the buffers,
the messages that they become, and the counts of staged completion. A buffer that is `NULL` is the
empty list.

The calls work on the state of all PEs and of the messages in flight. They give no result where the
code aborts, where an assertion fails, and where it reads or writes outside an array: the buffer of
a missing route, or the counts of a stage after the last one. A flush may happen at any time, be it
periodic, idle or asked for.
-/

set_option autoImplicit false

namespace CharmRuntime.Tram

open Function

/-! ## Items, messages and PEs -/

/-- A data item, with its destination. -/
structure Item where
  id : Nat
  destinationPe : Nat
  deriving DecidableEq

/-- An item in a buffer or a message. The last two fields are not in the code: the number of
messages that have carried the item, and the PE that its last route named. -/
structure Entry where
  item : Item
  hops : Nat
  named : Nat
  deriving DecidableEq

/-- `MeshStreamerMessage`, with its sender, its receiver and the entry method that it is sent to. -/
structure Message where
  source : Nat
  dest : Nat
  personalized : Bool
  msgType : Nat
  finalMsgCount : Int
  entries : List Entry
  deriving DecidableEq

/-- `MeshStreamer` on a PE. `contributed` says that it has contributed to the end callback, and
`delivered` are the items that its client has received. -/
structure MeshStreamer where
  dataBuffers : Nat → Nat → List Entry
  numDataItemsBuffered : Nat
  cntMsgSent : Nat → Nat → Nat
  cntMsgReceived : Nat → Nat
  cntMsgExpected : Nat → Nat
  cntFinished : Nat → Nat
  numLocalDone : Nat
  stagedCompletionStarted : Bool
  myCompletionStatus : CompletionStatus
  contributed : Bool
  delivered : List Entry

/-- A streamer after its construction and `init`. -/
def MeshStreamer.init : MeshStreamer where
  dataBuffers _ _ := []
  numDataItemsBuffered := 0
  cntMsgSent _ _ := 0
  cntMsgReceived _ := 0
  cntMsgExpected _ := 0
  cntFinished _ := 0
  numLocalDone := 0
  stagedCompletionStarted := false
  myCompletionStatus := ⟨initialCompletionStage, 0, []⟩
  contributed := false
  delivered := []

/-- What the client chooses. -/
structure Params where
  bufferSize : Nat
  maxNumDataItemsBuffered : Nat
  useStagedCompletion : Bool
  numLocalContributors : Nat → Nat

/-- What stays the same in a run. `checksOwnMessages` is set in the builds without `CMK_MULTICORE`
and `CMK_UTH_VERSION`. -/
structure Config extends Params where
  router : Nat → Router
  numMembers : Nat
  numDimensions : Nat
  checksOwnMessages : Bool

/-- All PEs, the messages in flight, and the items that have been inserted. -/
structure System where
  streamers : Nat → MeshStreamer
  network : List Message
  inserted : List Item

namespace System

/-- No item and no message. -/
def init : System := ⟨fun _ => MeshStreamer.init, [], []⟩

variable (cfg : Config) (pe : Nat)

/-- The streamer of a PE changes. -/
def modify (f : MeshStreamer → MeshStreamer) (s : System) : System :=
  { s with streamers := update s.streamers pe (f (s.streamers pe)) }

/-- `cntMsgSent_[dimension][index]++`. -/
def countSent (dimension index : Nat) (s : System) : System :=
  s.modify pe fun st =>
    { st with
      cntMsgSent := update st.cntMsgSent dimension
        (update (st.cntMsgSent dimension) index (st.cntMsgSent dimension index + 1)) }

/-- An item is put into a buffer. -/
def pushEntry (dimension index : Nat) (e : Entry) (s : System) : System :=
  s.modify pe fun st =>
    { st with
      dataBuffers := update st.dataBuffers dimension
        (update (st.dataBuffers dimension) index (st.dataBuffers dimension index ++ [e]))
      numDataItemsBuffered := st.numDataItemsBuffered + 1 }

/-- A buffer is emptied. -/
def clearBuffer (dimension index : Nat) (s : System) : System :=
  s.modify pe fun st =>
    { st with
      dataBuffers := update st.dataBuffers dimension
        (update (st.dataBuffers dimension) index [])
      numDataItemsBuffered := st.numDataItemsBuffered - (st.dataBuffers dimension index).length }

/-- The message that a buffer is sent in. -/
def message (dimension index destinationIndex : Nat) (finalMsgCount : Int) (s : System) :
    Message where
  source := pe
  dest := destinationIndex
  personalized := (cfg.router pe).isMessagePersonalized dimension
  msgType := (cfg.router pe).determineMsgType dimension
  finalMsgCount := finalMsgCount
  entries := ((s.streamers pe).dataBuffers dimension index).map fun e =>
    { e with hops := e.hops + 1 }

/-- `sendMeshStreamerMessage`, for the message in a buffer, which is then empty. -/
def sendMeshStreamerMessage (dimension index destinationIndex : Nat) (finalMsgCount : Int)
    (s : System) : System :=
  { s.clearBuffer pe dimension index with
    network := s.network ++ [message cfg pe dimension index destinationIndex finalMsgCount s] }

/-! ## Storing an item -/

/-- The search of `sendLargestBuffer`: the first of the longest buffers, unless all are empty. -/
def largestBuffer (buffers : Nat → List Entry) : Nat → Option Nat
  | 0 => none
  | n + 1 =>
    let best := largestBuffer buffers n
    let maxSize := best.elim 0 fun j => (buffers j).length
    if (buffers n).length > maxSize then some n else best

/-- `sendLargestBuffer`, for one dimension. -/
def sendLargestOf (s : System) (dimension : Nat) : System :=
  match largestBuffer ((s.streamers pe).dataBuffers dimension)
      ((cfg.router pe).numBuffersPerDimension dimension) with
  | none => s
  | some index =>
    let destinationIndex := (cfg.router pe).nextPeAlongRoute dimension index
    if destinationIndex = pe then s.sendMeshStreamerMessage cfg pe dimension index
      destinationIndex (-2)
    else
      let s := s.sendMeshStreamerMessage cfg pe dimension index destinationIndex (-1)
      if cfg.useStagedCompletion then s.countSent pe dimension index else s

/-- `sendLargestBuffer`. -/
def sendLargestBuffer (s : System) : System :=
  (List.range cfg.numDimensions).foldl (sendLargestOf cfg pe) s

/-- `storeMessage`. -/
def storeMessage (item : Item) (hops : Nat) (route : Route) (s : System) : Option System :=
  if route.dimension < cfg.numDimensions ∧
      route.dimensionIndex < (cfg.router pe).numBuffersPerDimension route.dimension then
    let s := s.pushEntry pe route.dimension route.dimensionIndex ⟨item, hops, route.destinationPe⟩
    if ((s.streamers pe).dataBuffers route.dimension route.dimensionIndex).length =
      cfg.bufferSize then
      let s := s.sendMeshStreamerMessage cfg pe route.dimension route.dimensionIndex
        route.destinationPe (-1)
      some (if cfg.useStagedCompletion then s.countSent pe route.dimension route.dimensionIndex
        else s)
    else if (s.streamers pe).numDataItemsBuffered = cfg.maxNumDataItemsBuffered then
      some (s.sendLargestBuffer cfg pe)
    else some s
  else none

/-- `insertData`. -/
def insertData (item : Item) (s : System) : Option System :=
  if (s.streamers pe).stagedCompletionStarted then none
  else
    ((cfg.router pe).determineInitialRoute item.destinationPe).bind fun route =>
      (s.storeMessage cfg pe item 0 route).map fun s => { s with inserted := s.inserted ++ [item] }

/-! ## Flushing -/

/-- `flushDimension`, for one buffer. -/
def flushBuffer (dimension : Nat) (sendMsgCounts : Bool) (s : System) (index : Nat) : System :=
  if (s.streamers pe).dataBuffers dimension index = [] ∧ sendMsgCounts = false then s
  else
    let destinationIndex := (cfg.router pe).nextPeAlongRoute dimension index
    if cfg.useStagedCompletion then
      if destinationIndex = pe then s.sendMeshStreamerMessage cfg pe dimension index
        destinationIndex (-2)
      else
        let s := s.countSent pe dimension index
        s.sendMeshStreamerMessage cfg pe dimension index destinationIndex
          (if sendMsgCounts then (s.streamers pe).cntMsgSent dimension index else -1)
    else s.sendMeshStreamerMessage cfg pe dimension index destinationIndex (-1)

/-- `flushDimension`. -/
def flushDimension (sendMsgCounts : Bool) (s : System) (dimension : Nat) : System :=
  (List.range ((cfg.router pe).numBuffersPerDimension dimension)).foldl
    (flushBuffer cfg pe dimension sendMsgCounts) s

/-- `flushToIntermediateDestinations`. -/
def flushToIntermediateDestinations (s : System) : System :=
  (List.range cfg.numDimensions).foldl (flushDimension cfg pe false) s

/-- `flushIfIdle`, when it flushes. -/
def flushIfIdle (s : System) : Option System :=
  let s := if (s.streamers pe).numDataItemsBuffered ≠
    0 then s.flushToIntermediateDestinations cfg pe else s
  if (s.streamers pe).numDataItemsBuffered = 0 then some s else none

/-! ## Staged completion -/

/-- The next stage is entered, and the dimensions that it names are flushed. -/
def enterStage (s : System) : System :=
  let s := s.modify pe fun st =>
    { st with myCompletionStatus := (cfg.router pe).updateCompletionProgress st.myCompletionStatus }
  let dimensionsToFlush := (s.streamers pe).myCompletionStatus.dimensionsToFlush
  (dimensionsToFlush.foldl (flushDimension cfg pe true) s).modify pe fun st =>
    { st with myCompletionStatus := { st.myCompletionStatus with dimensionsToFlush := [] } }

/-- Whether all messages of a stage have arrived. -/
def stageCompleted (s : System) (stage : Nat) : Bool :=
  let st := s.streamers pe
  st.cntFinished stage == st.myCompletionStatus.numContributors &&
    st.cntMsgExpected stage == st.cntMsgReceived stage

/-- `checkForCompletedStages`; the fuel bounds the number of stages. There are no counts for the
stage before the first message type, which is where the loop would read if it were entered after the
last stage. -/
def checkForCompletedStages : Nat → System → Option System
  | 0, _ => none
  | fuel + 1, s =>
    let stage := (s.streamers pe).myCompletionStatus.stageIndex
    if 0 ≤ stage ∧ stage < (cfg.router pe).numMsgTypes then
      if s.stageCompleted pe stage.toNat then
        let s := s.enterStage cfg pe
        if (s.streamers pe).myCompletionStatus.stageIndex = finalCompletionStage then
          if (s.streamers pe).numDataItemsBuffered = 0 then
            some (s.modify pe fun st => { st with contributed := true })
          else none
        else checkForCompletedStages fuel s
      else some s
    else none

/-- `startStagedCompletion`. -/
def startStagedCompletion (s : System) : Option System :=
  let s := s.modify pe fun st =>
    { st with
      stagedCompletionStarted := true
      myCompletionStatus := { st.myCompletionStatus with stageIndex := initialCompletionStage } }
  (s.enterStage cfg pe).checkForCompletedStages cfg pe ((cfg.router pe).numMsgTypes + 1)

/-- The counts of `markMessageReceived`. -/
def countReceived (msgType : Nat) (finalCount : Int) (s : System) : System :=
  s.modify pe fun st =>
    let st := { st with
      cntMsgReceived := update st.cntMsgReceived msgType (st.cntMsgReceived msgType + 1) }
    if 0 ≤ finalCount then
      { st with
        cntFinished := update st.cntFinished msgType (st.cntFinished msgType + 1)
        cntMsgExpected := update st.cntMsgExpected msgType
          (st.cntMsgExpected msgType + finalCount.toNat) }
    else st

/-- `checkForCompletedStages`, once staged completion has started. -/
def checkIfStarted (s : System) : Option System :=
  if (s.streamers pe).stagedCompletionStarted then
    s.checkForCompletedStages cfg pe ((cfg.router pe).numMsgTypes + 1)
  else some s

/-- `markMessageReceived`. -/
def markMessageReceived (msgType : Nat) (finalCount : Int) (s : System) : Option System :=
  if msgType <
    (cfg.router pe).numMsgTypes then (s.countReceived pe msgType finalCount).checkIfStarted cfg pe
  else none

/-- `done`. -/
def done (numContributorsFinished : Nat) (s : System) : Option System :=
  if cfg.useStagedCompletion then
    let s := s.modify pe fun st =>
      { st with numLocalDone := st.numLocalDone + numContributorsFinished }
    if (s.streamers pe).numLocalDone < cfg.numLocalContributors pe then some s
    else if (s.streamers pe).numLocalDone =
      cfg.numLocalContributors pe then s.startStagedCompletion cfg pe
    else none
  else some s

/-! ## Receiving -/

/-- `localDeliver`. -/
def localDeliver (e : Entry) (s : System) : System :=
  s.modify pe fun st => { st with delivered := st.delivered ++ [e] }

/-- The loop of `receiveAlongRoute`. -/
def receiveItems (msgType : Nat) : List Entry → System → Option System
  | [], s => some s
  | e :: es, s =>
    if e.item.destinationPe = pe then receiveItems msgType es (s.localDeliver pe e)
    else
      ((cfg.router pe).dimensionReceived msgType).bind fun dimensionReceivedAlong =>
        ((cfg.router pe).determineRoute e.item.destinationPe dimensionReceivedAlong).bind
            fun route =>
          (s.storeMessage cfg pe e.item e.hops route).bind (receiveItems msgType es)

/-- `receiveAlongRoute`; the message is deleted. -/
def receiveAlongRoute (m : Message) (s : System) : Option System :=
  (s.receiveItems cfg m.dest m.msgType m.entries).bind fun s =>
    let s := { s with network := s.network.erase m }
    if cfg.useStagedCompletion then
      if m.finalMsgCount ≠ -2 then s.markMessageReceived cfg m.dest m.msgType m.finalMsgCount
      else if cfg.checksOwnMessages then s.checkIfStarted cfg m.dest
      else some s
    else some s

/-- `receiveAtDestination`; the message is deleted. -/
def receiveAtDestination (m : Message) (s : System) : Option System :=
  let s :=
    { m.entries.foldl (fun s e => s.localDeliver m.dest e) s with network := s.network.erase m }
  if cfg.useStagedCompletion then s.markMessageReceived cfg m.dest m.msgType m.finalMsgCount
  else some s

/-! ## Runs -/

/-- What happens: a client inserts an item, a message arrives, a PE flushes its buffers, some of the
contributors of a PE are done, or the PEs without contributors are told to start. -/
inductive Event
  | insert (pe : Nat) (item : Item)
  | receive (m : Message)
  | flush (pe : Nat)
  | done (pe numContributorsFinished : Nat)
  | syncInit (pe : Nat)

/-- What an event does, if it can happen. -/
def exec (s : System) : Event → Option System
  | .insert pe item =>
    if pe < cfg.numMembers ∧ item.destinationPe < cfg.numMembers then s.insertData cfg pe item
    else none
  | .receive m =>
    if m ∈ s.network then
      if m.personalized then s.receiveAtDestination cfg m else s.receiveAlongRoute cfg m
    else none
  | .flush pe => if pe < cfg.numMembers then s.flushIfIdle cfg pe else none
  | .done pe numContributorsFinished =>
    if pe < cfg.numMembers ∧ 0 < numContributorsFinished then s.done cfg pe numContributorsFinished
    else none
  | .syncInit pe =>
    if pe < cfg.numMembers ∧ cfg.useStagedCompletion ∧ cfg.numLocalContributors pe = 0 ∧
        (s.streamers pe).stagedCompletionStarted = false then
      s.startStagedCompletion cfg pe
    else none

end System

/-- A run over a mesh, with one of the routers. -/
def Kind.config (kind : Kind) (m : Mesh) (P : Params) : Config where
  toParams := P
  router pe := kind.router m pe
  numMembers := m.numMembers
  numDimensions := m.numDimensions
  checksOwnMessages := kind ≠ .simple true

end CharmRuntime.Tram
