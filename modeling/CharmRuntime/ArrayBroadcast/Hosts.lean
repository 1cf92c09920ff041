import CharmRuntime.Lib.Run
import Mathlib.Data.List.Rotate

/-!
# Broadcasts to chare arrays

The model of `CkArrayBroadcaster` and of the parts of `CkArray` that it works with (`ckarray.C`,
`ckarray.h`), for arrays whose elements may migrate. A broadcast is its number. All PEs receive the
broadcasts in the order of the numbers, at any time. The entry method that a broadcast invokes may
destroy its element, or send it away; an element that arrives on a PE, or is created there, is
brought up to date with the broadcasts that the PE keeps.

An element is found through `localElems` by its identifier; the map is left out, as it always has
the position in `localElemVec`. Reading past the end of `localElemVec` gives no result.
-/

set_option autoImplicit false

namespace CharmRuntime.ArrayBroadcast

/-! ## Elements and hosts -/

/-- `ArrayElement`, with the broadcaster's part of `listenerData`. The last two fields are not in
the code: the number at the creation, and the broadcasts that the element has received. -/
structure Element where
  id : Nat
  bcastNo : Nat
  stamp : Nat
  received : List Nat
  deriving DecidableEq

/-- What an entry method does with its element. -/
inductive Fate
  | stays
  | dies
  | leaves (dest : Nat)
  deriving DecidableEq

/-- `CkArray` and its `CkArrayBroadcaster` on a PE. `bcastNo` is an `int`, and there are fewer than
`2 ^ 31` broadcasts. -/
structure Host where
  bcastNo : Nat
  oldBcasts : List Nat
  localElemVec : List Element
  deriving DecidableEq

/-- What is left of a call: the host, the elements that have been sent to other PEs, the broadcasts
that have been queued for elements, and whether the element is still there. -/
structure Outcome where
  host : Host
  left : List (Nat × Element)
  queued : List (Nat × Nat)
  stayed : Bool
  deriving DecidableEq

namespace Host

variable (h : Host)

/-- The identifiers of the local elements. -/
def ids : List Nat := h.localElemVec.map Element.id

/-- `getEltFromArrMgr`. -/
def getElt (id : Nat) : Option Element := h.localElemVec.find? (·.id = id)

/-- `putEltInArrMgr`. -/
def putElt (el : Element) : Host := { h with localElemVec := h.localElemVec ++ [el] }

/-- `deleteElt`: the last element takes the place of the one that is deleted. -/
def deleteElt (id : Nat) : Host :=
  match h.localElemVec.findIdx? (·.id = id), h.localElemVec.getLast? with
  | some offset, some moved =>
    { h with localElemVec :=
        (if offset ≠ h.localElemVec.length - 1 then h.localElemVec.set offset moved
          else h.localElemVec).dropLast }
  | _, _ => h

/-- An element changes. -/
def modify (id : Nat) (f : Element → Element) : Host :=
  { h with localElemVec := h.localElemVec.map fun el => if el.id = id then f el else el }

/-- An element dies, or migrates unless it is already there (`ckDestroy`, `emigrate`). -/
def depart (pe id : Nat) : Fate → Outcome
  | .stays => ⟨h, [], [], true⟩
  | .dies => ⟨h.deleteElt id, [], [], false⟩
  | .leaves dest =>
    if dest = pe then ⟨h, [], [], true⟩
    else ⟨h.deleteElt id, (h.getElt id).toList.map fun el => (dest, el), [], false⟩

/-- `invokeEntry`, for the message of a broadcast. -/
def invokeEntry (pe id msg : Nat) (fate : Fate) : Outcome :=
  (h.modify id fun el => { el with received := el.received ++ [msg] }).depart pe id fate

/-! ## `CkArrayBroadcaster` -/

/-- `incoming`. -/
def incoming (msg : Nat) : Host :=
  { h with bcastNo := h.bcastNo + 1, oldBcasts := h.oldBcasts ++ [msg] }

/-- `deliver`. -/
def deliver (viaScheduler : Bool) (pe msg : Nat) (el : Element) (fate : Fate) : Outcome :=
  if h.bcastNo ≤ el.bcastNo then ⟨h, [], [], false⟩
  else
    let h := h.modify el.id fun el => { el with bcastNo := el.bcastNo + 1 }
    if viaScheduler then ⟨h, [], [(el.id, msg)], true⟩ else h.invokeEntry pe el.id msg fate

end Host

/-- One call after another. -/
def Outcome.append (o o' : Outcome) : Outcome :=
  ⟨o'.host, o.left ++ o'.left, o.queued ++ o'.queued, o'.stayed⟩

section Loops

variable (viaScheduler : Bool) (pe : Nat) (fates : Nat → Fate)

/-- The second loop of `bringUpToDate`. -/
def deliverOld (id : Nat) : Nat → Host → Option Outcome
  | 0, h => some ⟨h, [], [], true⟩
  | i + 1, h =>
    match h.oldBcasts with
    | [] => deliverOld id i h
    | msg :: rest =>
      (h.getElt id).bind fun el =>
        let o := { h with oldBcasts := rest ++ [msg] }.deliver viaScheduler pe msg el (fates msg)
        if o.stayed then (deliverOld id i o.host).map o.append else some o

/-- `bringUpToDate`. The first loop rotates the queue. -/
def bringUpToDate (id : Nat) (h : Host) : Option Outcome :=
  (h.getElt id).bind fun el =>
    if el.bcastNo < h.bcastNo then
      let nDeliver := h.bcastNo - el.bcastNo
      deliverOld viaScheduler pe fates id nDeliver
        { h with oldBcasts := h.oldBcasts.rotate (h.oldBcasts.length - nDeliver) }
    else some ⟨h, [], [], true⟩

/-- The loop of `recvBroadcast`, from position `i` on. -/
def deliverAll (msg : Nat) : Nat → Nat → Host → Option Outcome
  | 0, _, h => some ⟨h, [], [], true⟩
  | n + 1, i, h =>
    h.localElemVec[i]?.bind fun el =>
      let o := h.deliver viaScheduler pe msg el (fates el.id)
      (deliverAll msg n (i + 1) o.host).map o.append

/-- `recvBroadcast`. -/
def recvBroadcast (msg : Nat) (h : Host) : Option Outcome :=
  deliverAll viaScheduler pe fates msg h.localElemVec.length 0 (h.incoming msg)

end Loops

/-! ## All PEs -/

/-- The system. `issued` is the number of broadcasts of the serializer, and `used` are the
identifiers of all elements that have been created. -/
structure System where
  viaScheduler : Bool
  issued : Nat
  hosts : Nat → Host
  flying : List (Nat × Element)
  queued : List (Nat × Nat)
  used : List Nat

/-- No element and no broadcast. -/
def System.init (viaScheduler : Bool) : System :=
  ⟨viaScheduler, 0, fun _ => ⟨0, [], []⟩, [], [], []⟩

/-- A call on a PE is over. -/
def System.put (s : System) (pe : Nat) (o : Outcome) : System :=
  { s with
    hosts := Function.update s.hosts pe o.host
    flying := s.flying ++ o.left
    queued := s.queued ++ o.queued }

/-- What happens: the serializer sends a broadcast, a PE receives the next one, an element is
created with the number of some PE, arrives, migrates or is destroyed, or a broadcast is taken from
the scheduler's queue. The entry methods that are invoked meanwhile do what `fates` says, for each
element or for each broadcast. -/
inductive Event
  | broadcast
  | recv (pe : Nat) (fates : Nat → Fate)
  | insert (pe id stamp : Nat) (fates : Nat → Fate)
  | arrive (pe id : Nat) (fates : Nat → Fate)
  | depart (pe id : Nat) (fate : Fate)
  | process (pe id msg : Nat) (fate : Fate)

/-- Whether an event can happen. -/
def System.Enabled (s : System) : Event → Prop
  | .broadcast => True
  | .recv pe _ => (s.hosts pe).bcastNo < s.issued
  | .insert _ id stamp _ => id ∉ s.used ∧ stamp ≤ s.issued
  | .arrive pe id _ => ∃ el, (pe, el) ∈ s.flying ∧ el.id = id
  | .depart pe id _ => id ∈ (s.hosts pe).ids
  | .process pe id msg _ => (id, msg) ∈ s.queued ∧ id ∈ (s.hosts pe).ids

/-- What an event does, if it can happen. -/
def System.exec (s : System) : Event → Option System
  | .broadcast => some { s with issued := s.issued + 1 }
  | .recv pe fates =>
    if (s.hosts pe).bcastNo < s.issued then
      (recvBroadcast s.viaScheduler pe fates ((s.hosts pe).bcastNo + 1) (s.hosts pe)).map (s.put pe)
    else none
  | .insert pe id stamp fates =>
    if id ∉ s.used ∧ stamp ≤ s.issued then
      (bringUpToDate s.viaScheduler pe fates id ((s.hosts pe).putElt ⟨id, stamp, stamp, []⟩)).map
          fun o =>
        { s with used := id :: s.used }.put pe o
    else none
  | .arrive pe id fates =>
    (s.flying.find? fun f => f.1 = pe ∧ f.2.id = id).bind fun f =>
      (bringUpToDate s.viaScheduler pe fates id ((s.hosts pe).putElt f.2)).map fun o =>
        { s with flying := s.flying.erase f }.put pe o
  | .depart pe id fate =>
    if id ∈ (s.hosts pe).ids then some (s.put pe ((s.hosts pe).depart pe id fate)) else none
  | .process pe id msg fate =>
    if (id, msg) ∈ s.queued ∧ id ∈ (s.hosts pe).ids then
      some ({ s with queued := s.queued.erase (id, msg) }.put pe
        ((s.hosts pe).invokeEntry pe id msg fate))
    else none

end CharmRuntime.ArrayBroadcast
