import CharmRuntime.Lib.Run
import CharmRuntime.Lib.Tables
import Mathlib.Algebra.Group.Nat.Defs

/-!
# The location manager

Every processor has a `CkLocMgr`, which knows where the elements of an array, or of several arrays
that are bound together, live. An element is named by its index; the location manager gives every
index an identifier (`idx2id`), keeps the last known processor of each identifier (`id2pe`), and has
a record (`hash`) of each location that is on its own processor. A message for an element is
forwarded to the last known processor. It is buffered while the identifier is not known
(`bufferedIndexMsgs`), while the home has no location for it (`bufferedMsgs`), while the location of
an identifier is asked for (`bufferedRemoteMsgs`), and while the location is here but the element of
this array is not (`bufferedShadowElemMsgs`).

The model has one location manager on any number of processors. A processor's functions change its
own state and send messages to others, which are received in any order. All array managers are
registered before the run; the program is not restarting, messages are sent without `CK_MSG_KEEP`
and are buffered if the element is not there. A failed assertion and an abort are `none`.

Some fields are not in the source, and no function reads them: the number `moves` that goes with a
place counts the places that the element has lived in so far, with 0 for a guess; `uid` tells
messages apart; `issued` records the identifiers that were given out.
-/

set_option autoImplicit false

namespace CharmRuntime.Location

open Lib Function Option

/-! ## Data -/

/-- `ArrayIndexCompressor`: identifiers that are computed from the indices. -/
structure IndexCode (Idx : Type) where
  compress : Idx → Nat
  decompress : Nat → Idx
  decompress_compress : ∀ idx, decompress (compress idx) = idx

/-- The number of processors, the home map, the bound arrays, the compressor if there is one, and
`_messageBufferingThreshold`. -/
structure Config (Idx : Type) where
  numPes : Nat
  home : Idx → Nat
  managers : List Nat
  compressor : Option (IndexCode Idx)
  messageBufferingThreshold : Nat
  home_lt : ∀ idx, home idx < numPes

/-- A processor where an element is, or is thought to be. -/
structure Place where
  pe : Nat
  moves : Nat
  deriving DecidableEq, Repr

/-- `CkArrayMessage`: the array, the index it was sent to, the element part of the recipient's
identifier, and the fields of the envelope that the location manager uses. -/
structure UserMsg (Idx : Type) where
  uid : Nat
  mgr : Nat
  idx : Idx
  elementId : Nat
  srcPe : Nat
  hops : UInt8
  totalsize : Nat
  deriving DecidableEq, Repr

/-- `CkDeliver_queue` or `CkDeliver_inline`. -/
inductive DeliverType
  | queue
  | inline
  deriving DecidableEq, Repr

/-- `CkLocRec`. -/
structure LocRec (Idx : Type) where
  idx : Idx
  moves : Nat
  deriving DecidableEq, Repr

/-- The state of `CkLocMgr` on one processor. `elements mgr id` tells whether the array `mgr` has
the element here (`getEltFromArrMgr`). A buffer for identifiers is keyed by the `elementId` of its
messages, `bufferedIndexMsgs` by their index. -/
structure LocMgr (Idx : Type) where
  idCounter : Nat
  idx2id : Idx → Option Nat
  id2pe : Nat → Option Place
  hash : Nat → Option (LocRec Idx)
  elements : Nat → Nat → Bool
  bufferedMsgs : List (UserMsg Idx)
  bufferedRemoteMsgs : List (UserMsg Idx)
  bufferedIndexMsgs : List (UserMsg Idx)
  bufferedShadowElemMsgs : List (UserMsg Idx)
  bufferedLocationRequests : List (Idx × Nat)
  issued : List (Nat × Idx)

/-- The calls that one processor makes on another. -/
inductive Call (Idx : Type)
  | deliver (msg : UserMsg Idx)
  | updateLocationIdx (idx : Idx) (id : Nat) (nowOn : Place)
  | updateLocation (id : Nat) (nowOn : Place)
  | requestLocationIdx (idx : Idx) (peToTell : Nat)
  | requestLocation (id peToTell : Nat)
  | immigrate (idx : Idx) (id : Nat) (elements : List Nat) (moves : Nat)
  | insertElement (mgr : Nat) (idx : Idx)
  | reclaimRemote (idx : Idx)
  deriving DecidableEq, Repr

/-- A call on its way. -/
structure Wire (Idx : Type) where
  dest : Nat
  call : Call Idx
  deriving DecidableEq, Repr

/-- What a function does: the new state, the calls on other processors, and the messages whose entry
methods were invoked. -/
structure Outcome (Idx : Type) where
  mgr : LocMgr Idx
  sent : List (Wire Idx)
  invoked : List (UserMsg Idx)

variable {Idx : Type} [DecidableEq Idx] {cfg : Config Idx}

/-- The constructor of `CkLocMgr`. -/
def initialMgr : LocMgr Idx where
  idCounter := 1
  idx2id := fun _ => none
  id2pe := fun _ => none
  hash := fun _ => none
  elements := fun _ _ => false
  bufferedMsgs := []
  bufferedRemoteMsgs := []
  bufferedIndexMsgs := []
  bufferedShadowElemMsgs := []
  bufferedLocationRequests := []
  issued := []

/-- First one function, then another one from the state that it left. -/
def Outcome.andThen (a : Outcome Idx) (f : LocMgr Idx → Option (Outcome Idx)) :
    Option (Outcome Idx) :=
  (f a.mgr).map fun b => ⟨b.mgr, a.sent ++ b.sent, a.invoked ++ b.invoked⟩

/-! ## Tables -/

section Functions

variable (cfg : Config Idx) (me : Nat) (s : LocMgr Idx)

/-- `homePe` of an identifier. -/
def homePeId (id : Nat) : Nat :=
  match cfg.compressor with
  | some code => cfg.home (code.decompress id)
  | none => id >>> 24

/-- `lookupID`. -/
def lookupID (idx : Idx) : Option Nat :=
  match cfg.compressor with
  | some code => some (code.compress idx)
  | none => s.idx2id idx

/-- `insertID`. -/
def insertID (idx : Idx) (id : Nat) : LocMgr Idx :=
  match cfg.compressor with
  | some _ => s
  | none => { s with idx2id := update s.idx2id idx (some id) }

/-- `lastKnown` of an index. -/
def lastKnownIdx (idx : Idx) : Place :=
  ((lookupID cfg s idx).bind s.id2pe).getD ⟨cfg.home idx, 0⟩

/-- `lastKnown` of an identifier. -/
def lastKnown (id : Nat) : Place := (s.id2pe id).getD ⟨homePeId cfg id, 0⟩

/-- `getNewObjectID`. -/
def getNewObjectID (idx : Idx) : LocMgr Idx × Nat :=
  match lookupID cfg s idx with
  | some id => (s, id)
  | none =>
    let id := (s.idCounter + me <<< 24) % 2 ^ 64
    let s := { s with
      idCounter := (s.idCounter + 1) % 2 ^ 64
      issued := s.issued ++ [(id, idx)] }
    (insertID cfg s idx id, id)

/-! ## Messaging -/

/-- `multiHop`: the sender is told where the element is. -/
def multiHop (record : LocRec Idx) (msg : UserMsg Idx) : List (Wire Idx) :=
  if msg.srcPe = me then [] else [⟨msg.srcPe, .updateLocation msg.elementId ⟨me, record.moves⟩⟩]

/-- `deliverUnknown`. -/
def deliverUnknown (msg : UserMsg Idx) (idx : Option Idx) : Outcome Idx :=
  let id := msg.elementId
  let home := match idx with
    | some idx => cfg.home idx
    | none => homePeId cfg id
  if home ≠ me then
    let s' := { s with id2pe := update s.id2pe id (some ⟨home, 0⟩) }
    if msg.totalsize < cfg.messageBufferingThreshold then
      ⟨s', [⟨home, .deliver { msg with hops := msg.hops + 1 }⟩], []⟩
    else
      ⟨{ s' with bufferedRemoteMsgs := s.bufferedRemoteMsgs ++ [msg] },
        if s.bufferedRemoteMsgs.any fun m => m.elementId = id then []
        else [⟨home, .requestLocation id me⟩], []⟩
  else ⟨{ s with bufferedMsgs := s.bufferedMsgs ++ [msg] }, [], []⟩

/-- `deliverMsg`. -/
def deliverMsg (msg : UserMsg Idx) (idx : Option Idx) (type : DeliverType) : Outcome Idx :=
  match s.hash msg.elementId with
  | none =>
    match s.id2pe msg.elementId with
    | some place => ⟨s, [⟨place.pe, .deliver { msg with hops := msg.hops + 1 }⟩], []⟩
    | none => deliverUnknown cfg me s msg idx
  | some record =>
    match type with
    | .queue => ⟨s, [⟨me, .deliver msg⟩], []⟩
    | .inline =>
      if s.elements msg.mgr msg.elementId then
        ⟨s, if msg.hops > 1 then multiHop me record msg else [], [msg]⟩
      else ⟨{ s with bufferedShadowElemMsgs := s.bufferedShadowElemMsgs ++ [msg] }, [], []⟩

/-- `deliverMsg` through the queue for each of the messages. -/
def deliverMsgs (idx : Option Idx) : LocMgr Idx → List (UserMsg Idx) → Outcome Idx
  | s, [] => ⟨s, [], []⟩
  | s, msg :: msgs =>
    let a := deliverMsg cfg me s msg idx .queue
    let b := deliverMsgs idx a.mgr msgs
    ⟨b.mgr, a.sent ++ b.sent, a.invoked ++ b.invoked⟩

/-- The buffers that are keyed by identifiers. -/
inductive Buffer
  | bufferedMsgs
  | bufferedRemoteMsgs
  | bufferedShadowElemMsgs

/-- The contents of a buffer. -/
def LocMgr.buffer (s : LocMgr Idx) : Buffer → List (UserMsg Idx)
  | .bufferedMsgs => s.bufferedMsgs
  | .bufferedRemoteMsgs => s.bufferedRemoteMsgs
  | .bufferedShadowElemMsgs => s.bufferedShadowElemMsgs

/-- A buffer with new contents. -/
def LocMgr.setBuffer (s : LocMgr Idx) : Buffer → List (UserMsg Idx) → LocMgr Idx
  | .bufferedMsgs, msgs => { s with bufferedMsgs := msgs }
  | .bufferedRemoteMsgs, msgs => { s with bufferedRemoteMsgs := msgs }
  | .bufferedShadowElemMsgs, msgs => { s with bufferedShadowElemMsgs := msgs }

/-- `deliverAnyBufferedMsgs`, with the assertion that nothing has been added. -/
def deliverAnyBufferedMsgs (id : Nat) (b : Buffer) : Option (Outcome Idx) :=
  let o := deliverMsgs cfg me none
    (s.setBuffer b ((s.buffer b).filter fun m => m.elementId ≠ id))
    ((s.buffer b).filter fun m => m.elementId = id)
  if (o.mgr.buffer b).any fun m => m.elementId = id then none else some o

/-! ## Locations -/

/-- The loop of `inform` over the messages that wait for the identifier of the index. -/
def deliverIndexMsgs (idx : Idx) (id : Nat) : Outcome Idx :=
  let o := deliverMsgs cfg me (some idx) s
    ((s.bufferedIndexMsgs.filter fun m => m.idx = idx).map fun m => { m with elementId := id })
  { o with mgr := { o.mgr with
    bufferedIndexMsgs := o.mgr.bufferedIndexMsgs.filter fun m => m.idx ≠ idx } }

/-- `inform` with an index. -/
def informIdx (idx : Idx) (id : Nat) (nowOn : Place) : Option (Outcome Idx) :=
  let s := insertID cfg s idx id
  let s := { s with id2pe := update s.id2pe id (some nowOn) }
  let replies := (s.bufferedLocationRequests.filter fun r => r.1 = idx ∧ r.2 ≠ me).map fun r =>
    (⟨r.2, .updateLocationIdx idx id nowOn⟩ : Wire Idx)
  let s := { s with
    bufferedLocationRequests := s.bufferedLocationRequests.filter fun r => r.1 ≠ idx }
  (Outcome.mk s replies []).andThen fun s =>
    (deliverAnyBufferedMsgs cfg me s id .bufferedMsgs).bind fun a =>
      a.andThen fun s => some (deliverIndexMsgs cfg me s idx id)

/-- `inform` without an index. -/
def inform (id : Nat) (nowOn : Place) : Option (Outcome Idx) :=
  deliverAnyBufferedMsgs cfg me { s with id2pe := update s.id2pe id (some nowOn) } id
    .bufferedMsgs

/-- `informHome`; `lookupID` asserts that there is an identifier. -/
def informHome (idx : Idx) (nowOn : Place) : Option (Outcome Idx) :=
  if cfg.home idx ≠ me ∧ cfg.home idx ≠ nowOn.pe then
    (lookupID cfg s idx).map fun id => ⟨s, [⟨cfg.home idx, .updateLocationIdx idx id nowOn⟩], []⟩
  else some ⟨s, [], []⟩

/-- `updateLocation` with an index. -/
def updateLocationIdx (idx : Idx) (id : Nat) (nowOn : Place) : Option (Outcome Idx) :=
  (informIdx cfg me s idx id nowOn).bind fun a =>
    a.andThen fun s => deliverAnyBufferedMsgs cfg me s id .bufferedRemoteMsgs

/-- `updateLocation` without an index. -/
def updateLocation (id : Nat) (nowOn : Place) : Option (Outcome Idx) :=
  (inform cfg me s id nowOn).bind fun a =>
    a.andThen fun s => deliverAnyBufferedMsgs cfg me s id .bufferedRemoteMsgs

/-- `requestLocation` with an index. -/
def requestLocationIdx (idx : Idx) (peToTell : Nat) : Outcome Idx :=
  if peToTell = me then ⟨s, [], []⟩
  else
    match lookupID cfg s idx with
    | some id => ⟨s, [⟨peToTell, .updateLocationIdx idx id (lastKnownIdx cfg s idx)⟩], []⟩
    | none =>
      ⟨{ s with bufferedLocationRequests := s.bufferedLocationRequests ++ [(idx, peToTell)] }, [],
        []⟩

/-- `requestLocation` without an index. -/
def requestLocation (id peToTell : Nat) : Outcome Idx :=
  if peToTell = me then ⟨s, [], []⟩
  else ⟨s, [⟨peToTell, .updateLocation id (lastKnown cfg s id)⟩], []⟩

/-- `sendMsg`. -/
def sendMsg (msg : UserMsg Idx) (type : DeliverType) : Outcome Idx :=
  match lookupID cfg s msg.idx with
  | some id => deliverMsg cfg me s { msg with elementId := id } (some msg.idx) type
  | none =>
    let msg := { msg with elementId := 0 }
    let s' := { s with bufferedIndexMsgs := s.bufferedIndexMsgs ++ [msg] }
    if cfg.home msg.idx ≠ me then
      ⟨s', if s.bufferedIndexMsgs.any fun m => m.idx = msg.idx then []
        else [⟨cfg.home msg.idx, .requestLocationIdx msg.idx me⟩], []⟩
    else ⟨s', [], []⟩

/-! ## Creation, migration and deletion -/

/-- `createLocal`. -/
def createLocal (idx : Idx) (moves : Nat) (notifyHome : Bool) : Option (Outcome Idx) :=
  (lookupID cfg s idx).bind fun id =>
    let s := { s with hash := update s.hash id (some ⟨idx, moves⟩) }
    (informIdx cfg me s idx id ⟨me, moves⟩).bind fun a =>
      a.andThen fun s =>
        if notifyHome then informHome cfg me s idx ⟨me, moves⟩ else some ⟨s, [], []⟩

/-- The table of the elements with one entry changed. -/
def setElement (mgr id : Nat) (here : Bool) : LocMgr Idx :=
  { s with elements := update s.elements mgr (update (s.elements mgr) id here) }

/-- `addElementToRec`: "Cannot insert array element twice!". -/
def addElementToRec (mgr id : Nat) : Option (Outcome Idx) :=
  if s.elements mgr id then none else some ⟨setElement s mgr id true, [], []⟩

/-- `addElement`. The places of an element whose identifier was used before are counted on. -/
def addElement (mgr : Nat) (idx : Idx) : Option (Outcome Idx) :=
  let (s, id) := getNewObjectID cfg me s idx
  (match s.hash id with
    | none =>
      createLocal cfg me s idx (((s.id2pe id).map Place.moves).getD 0 + 1) true
    | some _ => deliverAnyBufferedMsgs cfg me s id .bufferedShadowElemMsgs).bind fun a =>
    a.andThen fun s => addElementToRec s mgr id

/-- `insertElement` of `CkArray`: an element whose location is known to be remote is inserted
there. -/
def insertElement (mgr : Nat) (idx : Idx) : Option (Outcome Idx) :=
  match (lookupID cfg s idx).bind s.id2pe with
  | some place =>
    if place.pe = me then addElement cfg me s mgr idx
    else some ⟨s, [⟨place.pe, .insertElement mgr idx⟩], []⟩
  | none => addElement cfg me s mgr idx

/-- Deleting the elements of all arrays with the identifier, and its record. -/
def removeRec (id : Nat) : LocMgr Idx :=
  { s with
    hash := update s.hash id none
    elements := fun mgr => update (s.elements mgr) id false }

/-- `emigrate`. -/
def emigrate (id toPe : Nat) : Option (Outcome Idx) :=
  match s.hash id with
  | none => none
  | some record =>
    if toPe = me then some ⟨s, [], []⟩
    else
      let elements := cfg.managers.filter fun mgr => s.elements mgr id
      (Outcome.mk (removeRec s id)
          [⟨toPe, .immigrate record.idx id elements (record.moves + 1)⟩] []).andThen fun s =>
        (informIdx cfg me s record.idx id ⟨toPe, record.moves + 1⟩).bind fun a =>
          a.andThen fun s => informHome cfg me s record.idx ⟨toPe, record.moves + 1⟩

/-- `immigrate`. -/
def immigrate (idx : Idx) (id : Nat) (elements : List Nat) (moves : Nat) : Option (Outcome Idx) :=
  (createLocal cfg me (insertID cfg s idx id) idx moves false).bind fun a =>
    a.andThen fun s => some ⟨{ s with
      elements := fun mgr =>
        if mgr ∈ elements then update (s.elements mgr) id true else s.elements mgr }, [], []⟩

/-- The deletion of one element, with `reclaim`: the record goes with the last element. -/
def reclaim (mgr id : Nat) : Option (Outcome Idx) :=
  match s.hash id with
  | none => none
  | some record =>
    if s.elements mgr id then
      let s := setElement s mgr id false
      if cfg.managers.any fun mgr => s.elements mgr id then some ⟨s, [], []⟩
      else
        some ⟨removeRec s id,
          if cfg.home record.idx ≠ me then [⟨cfg.home record.idx, .reclaimRemote record.idx⟩]
          else [], []⟩
    else none

/-- `reclaimRemote`, with its assertions that nothing is buffered. -/
def reclaimRemote (idx : Idx) : Option (Outcome Idx) :=
  (lookupID cfg s idx).bind fun id =>
    if (s.bufferedMsgs.any fun m => m.elementId = id) ∨
        (s.bufferedRemoteMsgs.any fun m => m.elementId = id) ∨
        (s.bufferedShadowElemMsgs.any fun m => m.elementId = id) ∨
        (s.bufferedLocationRequests.any fun r => r.1 = idx) ∨
        s.bufferedIndexMsgs.any fun m => m.idx = idx then none
    else some ⟨{ s with
      id2pe := update s.id2pe id none
      idx2id := update s.idx2id idx none }, [], []⟩

/-- The call that is received. A message is delivered to the element without the queue. -/
def receive : Call Idx → Option (Outcome Idx)
  | .deliver msg => some (deliverMsg cfg me s msg none .inline)
  | .updateLocationIdx idx id nowOn => updateLocationIdx cfg me s idx id nowOn
  | .updateLocation id nowOn => updateLocation cfg me s id nowOn
  | .requestLocationIdx idx peToTell => some (requestLocationIdx cfg me s idx peToTell)
  | .requestLocation id peToTell => some (requestLocation cfg me s id peToTell)
  | .immigrate idx id elements moves => immigrate cfg me s idx id elements moves
  | .insertElement mgr idx => insertElement cfg me s mgr idx
  | .reclaimRemote idx => reclaimRemote cfg s idx

end Functions

/-! ## The system -/

/-- All processors, the calls in flight, the messages sent so far, and those whose entry methods
were invoked. -/
structure System (Idx : Type) where
  pes : Nat → LocMgr Idx
  net : List (Wire Idx)
  sent : List (UserMsg Idx)
  invoked : List (UserMsg Idx)

/-- The start of the program. -/
def initialSystem : System Idx := ⟨fun _ => initialMgr, [], [], []⟩

/-- A processor has run a function; `net` are the calls that are still in flight. -/
def System.put (w : System Idx) (pe : Nat) (net : List (Wire Idx)) (o : Outcome Idx) : System Idx :=
  { w with
    pes := update w.pes pe o.mgr
    net := net ++ o.sent
    invoked := w.invoked ++ o.invoked }

/-- What happens on one processor: the user's program sends a message, inserts, migrates or destroys
an element, or a call is received. -/
inductive Event (Idx : Type)
  | send (pe mgr : Nat) (idx : Idx) (totalsize : Nat) (type : DeliverType)
  | insert (pe mgr : Nat) (idx : Idx)
  | emigrate (pe id toPe : Nat)
  | destroy (pe mgr id : Nat)
  | receive (wire : Wire Idx)

/-- The message that the next `send` event makes. -/
def System.message (w : System Idx) (pe mgr : Nat) (idx : Idx) (totalsize : Nat) : UserMsg Idx :=
  ⟨w.sent.length, mgr, idx, 0, pe, 0, totalsize⟩

/-- The steps of the system. -/
inductive Step (cfg : Config Idx) : System Idx → Event Idx → System Idx → Prop
  | send {w : System Idx} {pe mgr : Nat} {idx : Idx} {totalsize : Nat} {type : DeliverType}
      (hpe : pe < cfg.numPes) (hmgr : mgr ∈ cfg.managers) :
      Step cfg w (.send pe mgr idx totalsize type)
        { w.put pe w.net (sendMsg cfg pe (w.pes pe) (w.message pe mgr idx totalsize) type) with
          sent := w.sent ++ [w.message pe mgr idx totalsize] }
  | insert {w : System Idx} {pe mgr : Nat} {idx : Idx} {o : Outcome Idx} (hpe : pe < cfg.numPes)
      (hmgr : mgr ∈ cfg.managers) (h : insertElement cfg pe (w.pes pe) mgr idx = some o) :
      Step cfg w (.insert pe mgr idx) (w.put pe w.net o)
  | emigrate {w : System Idx} {pe id toPe : Nat} {o : Outcome Idx} (hpe : pe < cfg.numPes)
      (hto : toPe < cfg.numPes) (h : emigrate cfg pe (w.pes pe) id toPe = some o) :
      Step cfg w (.emigrate pe id toPe) (w.put pe w.net o)
  | destroy {w : System Idx} {pe mgr id : Nat} {o : Outcome Idx} (hpe : pe < cfg.numPes)
      (hmgr : mgr ∈ cfg.managers) (h : reclaim cfg pe (w.pes pe) mgr id = some o) :
      Step cfg w (.destroy pe mgr id) (w.put pe w.net o)
  | receive {w : System Idx} {before after : List (Wire Idx)} {wire : Wire Idx} {o : Outcome Idx}
      (hnet : w.net = before ++ wire :: after)
      (h : receive cfg wire.dest (w.pes wire.dest) wire.call = some o) :
      Step cfg w (.receive wire) (w.put wire.dest (before ++ after) o)

/-- The step of an event, computed; a call is taken from its first place in the network. -/
def System.exec (cfg : Config Idx) (w : System Idx) : Event Idx → Option (System Idx)
  | .send pe mgr idx totalsize type =>
    if pe < cfg.numPes ∧ mgr ∈ cfg.managers then
      some { w.put pe w.net (sendMsg cfg pe (w.pes pe) (w.message pe mgr idx totalsize) type) with
        sent := w.sent ++ [w.message pe mgr idx totalsize] }
    else none
  | .insert pe mgr idx =>
    if pe < cfg.numPes ∧ mgr ∈ cfg.managers then
      (insertElement cfg pe (w.pes pe) mgr idx).map (w.put pe w.net)
    else none
  | .emigrate pe id toPe =>
    if pe < cfg.numPes ∧ toPe < cfg.numPes then
      (emigrate cfg pe (w.pes pe) id toPe).map (w.put pe w.net)
    else none
  | .destroy pe mgr id =>
    if pe < cfg.numPes ∧ mgr ∈ cfg.managers then
      (reclaim cfg pe (w.pes pe) mgr id).map (w.put pe w.net)
    else none
  | .receive wire =>
    if wire ∈ w.net then
      (receive cfg wire.dest (w.pes wire.dest) wire.call).map (w.put wire.dest (w.net.erase wire))
    else none

theorem step_of_exec {w w' : System Idx} {e : Event Idx}
    (h : w.exec cfg e = some w') : Step cfg w e w' := by
  cases e with
  | send pe mgr idx totalsize type =>
    rw [System.exec, ite_none_right_eq_some] at h
    cases h.2
    exact .send h.1.1 h.1.2
  | insert pe mgr idx =>
    rw [System.exec, ite_none_right_eq_some, map_eq_some_iff] at h
    obtain ⟨⟨hpe, hmgr⟩, o, ho, rfl⟩ := h
    exact .insert hpe hmgr ho
  | emigrate pe id toPe =>
    rw [System.exec, ite_none_right_eq_some, map_eq_some_iff] at h
    obtain ⟨⟨hpe, hto⟩, o, ho, rfl⟩ := h
    exact .emigrate hpe hto ho
  | destroy pe mgr id =>
    rw [System.exec, ite_none_right_eq_some, map_eq_some_iff] at h
    obtain ⟨⟨hpe, hmgr⟩, o, ho, rfl⟩ := h
    exact .destroy hpe hmgr ho
  | receive wire =>
    rw [System.exec, ite_none_right_eq_some, map_eq_some_iff] at h
    obtain ⟨hmem, o, ho, rfl⟩ := h
    obtain ⟨before, after, -, hnet, herase⟩ := List.exists_erase_eq hmem
    rw [herase]
    exact .receive hnet ho

/-- The steps of a list of events that meet a condition, computed. -/
def execChecked (C : System Idx → Event Idx → Prop) [∀ w e, Decidable (C w e)] (cfg : Config Idx)
    (w : System Idx) (es : List (Event Idx)) : Option (System Idx) :=
  es.foldlM (fun w e => if C w e then w.exec cfg e else none) w

theorem run_of_execChecked {C : System Idx → Event Idx → Prop} [∀ w e, Decidable (C w e)]
    {w w' : System Idx} {es : List (Event Idx)} (h : execChecked C cfg w es = some w') :
    Run (fun w e w' => Step cfg w e w' ∧ C w e) w es w' := by
  refine (Run.of_foldlM h).mono fun a e b hab => ?_
  rw [ite_none_right_eq_some] at hab
  exact ⟨step_of_exec hab.2, hab.1⟩

/-- The steps of a list of events, computed. -/
def System.execAll (cfg : Config Idx) : System Idx → List (Event Idx) → Option (System Idx)
  | w, [] => some w
  | w, e :: es => (w.exec cfg e).bind fun w' => w'.execAll cfg es

theorem run_of_execAll {w w' : System Idx} {es : List (Event Idx)}
    (h : w.execAll cfg es = some w') : Run (Step cfg) w es w' := by
  induction es generalizing w with
  | nil =>
    cases h
    exact .nil
  | cons e es ih =>
    rw [System.execAll, bind_eq_some_iff] at h
    obtain ⟨w1, h1, h2⟩ := h
    exact (Run.single (step_of_exec h1)).append (ih h2)

end CharmRuntime.Location
