import CharmRuntime.Location.Manager

/-!
# What the functions of the location manager do

A message for an identifier that has a record or a last known place is sent on and leaves the state
as it is (`deliverMsg_known`). So the functions that learn a place empty the buffers by sending
every message on (`deliverAnyBufferedMsgs_known`), and their assertions hold. The equations of this
module give the outcome of `inform` and of everything that calls it as one record update and a list
of calls: `informIdx_eq`, `createLocal_eq`, `updateLocationIdx_eq`, `updateLocation_eq`,
`emigrate_eq`, `immigrate_eq`, `addElement_new`, `addElement_here`.
-/

set_option autoImplicit false

namespace CharmRuntime.Location

open Function List Option
open Outcome (andThen)

variable {Idx : Type} {cfg : Config Idx} {me : Nat} {s : LocMgr Idx}

/-! ## Known identifiers -/

/-- Sending a message on: through the queue if the record is here, else to the place. -/
def route (me : Nat) (here : Bool) (nowOn : Place) (msg : UserMsg Idx) : Wire Idx :=
  if here then ⟨me, .deliver msg⟩ else ⟨nowOn.pe, .deliver { msg with hops := msg.hops + 1 }⟩

/-- The identifier has a record, or the place as its last known one. -/
def Known (s : LocMgr Idx) (id : Nat) (nowOn : Place) : Prop :=
  (s.hash id).isSome ∨ s.id2pe id = some nowOn

variable {nowOn : Place} {msg : UserMsg Idx} {idx : Option Idx}

theorem deliverMsg_known (h : Known s msg.elementId nowOn) : deliverMsg cfg me s msg idx .queue =
      ⟨s, [route me (s.hash msg.elementId).isSome nowOn msg], []⟩ := by
  rw [deliverMsg]
  cases hhash : s.hash msg.elementId with
  | none =>
    rcases h with h | h
    · rw [hhash] at h
      cases h
    · rw [h]
      rfl
  | some record => rfl

variable {id : Nat}

theorem deliverMsgs_known (h : Known s id nowOn)
    {msgs : List (UserMsg Idx)} (hid : ∀ m ∈ msgs, m.elementId = id) :
    deliverMsgs cfg me idx s msgs = ⟨s, msgs.map (route me (s.hash id).isSome nowOn), []⟩ := by
  induction msgs with
  | nil => rfl
  | cons msg msgs ih =>
    rw [forall_mem_cons] at hid
    rw [deliverMsgs, deliverMsg_known (by rw [hid.1]; exact h)]
    rw [ih hid.2, hid.1]
    rfl

variable {b : Buffer} {msgs : List (UserMsg Idx)}

@[simp] theorem setBuffer_id2pe :
    (s.setBuffer b msgs).id2pe = s.id2pe := by cases b <;> rfl

@[simp] theorem setBuffer_hash :
    (s.setBuffer b msgs).hash = s.hash := by cases b <;> rfl

@[simp] theorem buffer_setBuffer (b : Buffer) (msgs : List (UserMsg Idx)) :
    (s.setBuffer b msgs).buffer b = msgs := by cases b <;> rfl

theorem deliverAnyBufferedMsgs_known (h : Known s id nowOn) : deliverAnyBufferedMsgs cfg me s id b =
      some ⟨s.setBuffer b ((s.buffer b).filter fun m => m.elementId ≠ id),
        ((s.buffer b).filter fun m => m.elementId = id).map (route me (s.hash id).isSome nowOn),
        []⟩ := by
  have hfilter : ∀ m ∈ (s.buffer b).filter fun m => m.elementId = id, m.elementId = id := by
    intro m hm
    simpa using (mem_filter.1 hm).2
  have hknown : Known (s.setBuffer b ((s.buffer b).filter fun m => m.elementId ≠ id)) id nowOn := by
    rwa [Known, setBuffer_hash, setBuffer_id2pe]
  rw [deliverAnyBufferedMsgs, deliverMsgs_known hknown hfilter]
  simp

/-! ## Delivering a message -/

/-- The home that `deliverUnknown` computes, from the index if it has one. -/
def unknownHome (cfg : Config Idx) (msg : UserMsg Idx) (idx : Option Idx) : Nat :=
  match idx with
  | some idx => cfg.home idx
  | none => homePeId cfg msg.elementId

theorem homePeId_compress {code : IndexCode Idx} (hc : cfg.compressor = some code) (idx : Idx) :
    homePeId cfg (code.compress idx) = cfg.home idx := by
  rw [homePeId, hc]
  dsimp only
  rw [code.decompress_compress]

/-- The guess that an identifier is at its home. -/
def guessed (s : LocMgr Idx) (id home : Nat) : LocMgr Idx :=
  { s with id2pe := update s.id2pe id (some ⟨home, 0⟩) }

variable {o : Outcome Idx}

variable (cfg me s msg idx) in
/-- All that `deliverMsg` does. -/
inductive Delivered : Outcome Idx → Prop
  | sent (dest : Nat) (hops : UInt8) :
      Delivered ⟨s, [⟨dest, .deliver { msg with hops := hops }⟩], []⟩
  | invoked {record : LocRec Idx} (hrec : s.hash msg.elementId = some record) :
      Delivered ⟨s, if msg.hops > 1 then multiHop me record msg else [], [msg]⟩
  | shadow (hhash : s.hash msg.elementId ≠ none)
      (helem : s.elements msg.mgr msg.elementId = false) :
      Delivered
        ⟨{ s with bufferedShadowElemMsgs := s.bufferedShadowElemMsgs ++ [msg] }, [], []⟩
  | atHome (hnone : s.id2pe msg.elementId = none) (hhome : unknownHome cfg msg idx = me) :
      Delivered ⟨{ s with bufferedMsgs := s.bufferedMsgs ++ [msg] }, [], []⟩
  | guessed (hhash : s.hash msg.elementId = none) (hnone : s.id2pe msg.elementId = none)
      (hhome : unknownHome cfg msg idx ≠ me) :
      Delivered ⟨guessed s msg.elementId (unknownHome cfg msg idx),
        [⟨unknownHome cfg msg idx, .deliver { msg with hops := msg.hops + 1 }⟩], []⟩
  | asked (hhash : s.hash msg.elementId = none) (hnone : s.id2pe msg.elementId = none)
      (hhome : unknownHome cfg msg idx ≠ me) :
      Delivered
        ⟨{ guessed s msg.elementId (unknownHome cfg msg idx) with
          bufferedRemoteMsgs := s.bufferedRemoteMsgs ++ [msg] },
          if s.bufferedRemoteMsgs.any fun m => m.elementId = msg.elementId then []
          else [⟨unknownHome cfg msg idx, .requestLocation msg.elementId me⟩], []⟩

theorem deliverMsg_delivered (msg : UserMsg Idx) (idx : Option Idx) (type : DeliverType) :
    Delivered cfg me s msg idx (deliverMsg cfg me s msg idx type) := by
  rw [deliverMsg]
  cases hhash : s.hash msg.elementId with
  | none =>
    cases hnone : s.id2pe msg.elementId with
    | some place => exact .sent place.pe (msg.hops + 1)
    | none =>
      show Delivered cfg me s msg idx (if unknownHome cfg msg idx ≠ me then _ else _)
      split
      · next hhome =>
        split
        · exact .guessed hhash hnone hhome
        · exact .asked hhash hnone hhome
      · next hhome => exact .atHome hnone (not_not.1 hhome)
  | some record =>
    cases type with
    | queue => exact .sent me msg.hops
    | inline =>
      dsimp only
      split
      · exact .invoked hhash
      · next helem => exact .shadow (hhash ▸ some_ne_none _) (by simpa using helem)

/-! ## Learning a place -/

theorem inform_eq : inform cfg me s id nowOn = some ⟨{ s with
          id2pe := update s.id2pe id (some nowOn)
          bufferedMsgs := s.bufferedMsgs.filter fun m => m.elementId ≠ id },
        (s.bufferedMsgs.filter fun m => m.elementId = id).map (route me (s.hash id).isSome nowOn),
        []⟩ := by
  rw [inform, deliverAnyBufferedMsgs_known (.inr (update_self ..))]
  rfl

/-- A place is learned for an identifier. -/
def learned (me : Nat) (s : LocMgr Idx) (id : Nat) (nowOn : Place) : Outcome Idx :=
  ⟨{ s with
      id2pe := update s.id2pe id (some nowOn)
      bufferedMsgs := s.bufferedMsgs.filter fun m => m.elementId ≠ id
      bufferedRemoteMsgs := s.bufferedRemoteMsgs.filter fun m => m.elementId ≠ id },
    (s.bufferedMsgs.filter fun m => m.elementId = id).map (route me (s.hash id).isSome nowOn) ++
      (s.bufferedRemoteMsgs.filter fun m => m.elementId = id).map
        (route me (s.hash id).isSome nowOn),
    []⟩

theorem updateLocation_eq : updateLocation cfg me s id nowOn = some (learned me s id nowOn) := by
  rw [updateLocation, inform_eq, bind_some, andThen,
    deliverAnyBufferedMsgs_known (.inr (update_self ..))]
  rfl

variable [DecidableEq Idx]

/-- The tables and buffers after `inform` with an index. -/
def informed (cfg : Config Idx) (s : LocMgr Idx) (idx : Idx) (id : Nat) (nowOn : Place) :
    LocMgr Idx :=
  { s with
    idx2id := (insertID cfg s idx id).idx2id
    id2pe := update s.id2pe id (some nowOn)
    bufferedLocationRequests := s.bufferedLocationRequests.filter fun r => r.1 ≠ idx
    bufferedMsgs := s.bufferedMsgs.filter fun m => m.elementId ≠ id
    bufferedIndexMsgs := s.bufferedIndexMsgs.filter fun m => m.idx ≠ idx }

/-- The calls of `inform` with an index: the answers to the processors that asked for the location,
and the messages that were waiting for it. -/
def informWires (me : Nat) (s : LocMgr Idx) (idx : Idx) (id : Nat) (nowOn : Place) :
    List (Wire Idx) :=
  ((s.bufferedLocationRequests.filter fun r => r.1 = idx ∧ r.2 ≠ me).map fun r =>
      ⟨r.2, .updateLocationIdx idx id nowOn⟩) ++
    ((s.bufferedMsgs.filter fun m => m.elementId = id).map
        (route me (s.hash id).isSome nowOn) ++
      (s.bufferedIndexMsgs.filter fun m => m.idx = idx).map fun m =>
        route me (s.hash id).isSome nowOn { m with elementId := id })

variable {idx : Idx}

theorem insertID_eq : insertID cfg s idx id =
    { s with idx2id := (insertID cfg s idx id).idx2id } := by
  rw [insertID]
  cases cfg.compressor <;> rfl

theorem insertID_idCounter : (insertID cfg s idx id).idCounter = s.idCounter := by rw [insertID_eq]

theorem insertID_issued : (insertID cfg s idx id).issued = s.issued := by
  rw [insertID_eq]

theorem informIdx_eq : informIdx cfg me s idx id nowOn =
      some ⟨informed cfg s idx id nowOn, informWires me s idx id nowOn, []⟩ := by
  have hknown : update s.id2pe id (some nowOn) id = some nowOn := update_self ..
  rw [informIdx, insertID_eq]
  rw [andThen, deliverAnyBufferedMsgs_known (.inr hknown), bind_some, andThen,
    deliverIndexMsgs, deliverMsgs_known (.inr hknown)]
  · rw [List.map_map]
    rfl
  · intro m hm
    obtain ⟨_, -, rfl⟩ := mem_map.1 hm
    rfl

/-- A place is learned for an index. -/
def learnedIdx (cfg : Config Idx) (me : Nat) (s : LocMgr Idx) (idx : Idx) (id : Nat)
    (nowOn : Place) : Outcome Idx :=
  ⟨{ informed cfg s idx id nowOn with
      bufferedRemoteMsgs := s.bufferedRemoteMsgs.filter fun m => m.elementId ≠ id },
    informWires me s idx id nowOn ++
      (s.bufferedRemoteMsgs.filter fun m => m.elementId = id).map
        (route me (s.hash id).isSome nowOn),
    []⟩

theorem updateLocationIdx_eq (s : LocMgr Idx) (idx : Idx) (id : Nat) (nowOn : Place) :
    updateLocationIdx cfg me s idx id nowOn = some (learnedIdx cfg me s idx id nowOn) := by
  rw [updateLocationIdx, informIdx_eq, bind_some, andThen,
    deliverAnyBufferedMsgs_known (.inr (update_self ..))]
  rfl

/-! ## Creation and migration -/

/-- The identifier that `lookupID` finds for an index after it was inserted. -/
def Config.identifier (cfg : Config Idx) (idx : Idx) (id : Nat) : Nat :=
  match cfg.compressor with
  | some code => code.compress idx
  | none => id

variable {idx : Idx} {s' : LocMgr Idx}

theorem lookupID_of_inserted (h : s'.idx2id = (insertID cfg s idx id).idx2id) :
    lookupID cfg s' idx = some (cfg.identifier idx id) := by
  rw [lookupID, Config.identifier]
  rw [insertID] at h
  cases hc : cfg.compressor with
  | some code => rfl
  | none =>
    rw [hc] at h
    dsimp only at h ⊢
    rw [h, update_self]

/-- The call of `informHome`. -/
def homeWires (cfg : Config Idx) (me : Nat) (idx : Idx) (id : Nat) (nowOn : Place) :
    List (Wire Idx) :=
  if cfg.home idx ≠ me ∧ cfg.home idx ≠ nowOn.pe then
    [⟨cfg.home idx, .updateLocationIdx idx (cfg.identifier idx id) nowOn⟩]
  else []

variable {place : Place}

theorem informHome_informed : informHome cfg me (informed cfg s idx id place) idx nowOn =
      some ⟨informed cfg s idx id place, homeWires cfg me idx id nowOn, []⟩ := by
  have hlook : lookupID cfg (informed cfg s idx id place) idx = some (cfg.identifier idx id) :=
    lookupID_of_inserted (s := s) rfl
  rw [informHome, homeWires, hlook]
  split <;> rfl

/-- A new record. -/
def withRec (s : LocMgr Idx) (id : Nat) (idx : Idx) (moves : Nat) : LocMgr Idx :=
  { s with hash := update s.hash id (some ⟨idx, moves⟩) }

variable {moves toPe : Nat} {record : LocRec Idx}

theorem createLocal_eq (h : lookupID cfg s idx = some id) (notifyHome : Bool) :
    createLocal cfg me s idx moves notifyHome =
      some ⟨informed cfg (withRec s id idx moves) idx id ⟨me, moves⟩,
        informWires me (withRec s id idx moves) idx id ⟨me, moves⟩ ++
          if notifyHome then homeWires cfg me idx id ⟨me, moves⟩ else [], []⟩ := by
  rw [createLocal, h, bind_some]
  dsimp only
  rw [← withRec, informIdx_eq, bind_some, andThen]
  cases notifyHome with
  | false => rfl
  | true =>
    rw [if_pos rfl, informHome_informed]
    rfl

/-- A location leaves for another processor. -/
abbrev emigrated (cfg : Config Idx) (me : Nat) (s : LocMgr Idx) (id toPe : Nat)
    (record : LocRec Idx) : Outcome Idx :=
  ⟨informed cfg (removeRec s id) record.idx id ⟨toPe, record.moves + 1⟩,
    ⟨toPe, .immigrate record.idx id (cfg.managers.filter fun mgr => s.elements mgr id)
      (record.moves + 1)⟩ ::
      (informWires me (removeRec s id) record.idx id ⟨toPe, record.moves + 1⟩ ++
        homeWires cfg me record.idx id ⟨toPe, record.moves + 1⟩), []⟩

theorem emigrate_eq (h : s.hash id = some record)
    (hne : toPe ≠ me) : emigrate cfg me s id toPe = some (emigrated cfg me s id toPe record) := by
  rw [emigrate, h]
  dsimp only
  rw [if_neg hne, andThen]
  rw [informIdx_eq, bind_some, andThen, informHome_informed]
  rfl

/-- The elements of the arrays that a migrating location has brought. -/
def withElements (s : LocMgr Idx) (id : Nat) (elements : List Nat) : LocMgr Idx :=
  { s with
    elements := fun mgr =>
      if mgr ∈ elements then update (s.elements mgr) id true else s.elements mgr }

theorem informed_insertID :
    informed cfg (withRec (insertID cfg s idx id) id idx moves) idx id place =
      informed cfg (withRec s id idx moves) idx id place := by
  rw [insertID]
  cases hc : cfg.compressor with
  | some code => rfl
  | none => simp [informed, insertID, hc, withRec]

theorem informWires_insertID :
    informWires me (withRec (insertID cfg s idx id) id idx moves) idx id place =
      informWires me (withRec s id idx moves) idx id place := by
  rw [insertID]
  cases hc : cfg.compressor <;> rfl

theorem immigrate_eq (elements : List Nat) (hid : cfg.identifier idx id = id) :
    immigrate cfg me s idx id elements moves =
      some ⟨withElements (informed cfg (withRec s id idx moves) idx id ⟨me, moves⟩) id elements,
        informWires me (withRec s id idx moves) idx id ⟨me, moves⟩, []⟩ := by
  have hlook : lookupID cfg (insertID cfg s idx id) idx = some id := by
    rw [lookupID_of_inserted (s := s) rfl, hid]
  rw [immigrate, createLocal_eq hlook, bind_some, andThen, informed_insertID,
    informWires_insertID, if_neg (by decide), append_nil]
  simp [withElements]

/-- The identifier that `getNewObjectID` makes. -/
def newID (me : Nat) (s : LocMgr Idx) : Nat := (s.idCounter + me <<< 24) % 2 ^ 64

/-- The state after `getNewObjectID` has given out an identifier. -/
def withID (me : Nat) (s : LocMgr Idx) (idx : Idx) : LocMgr Idx :=
  { s with
    idCounter := (s.idCounter + 1) % 2 ^ 64
    issued := s.issued ++ [(newID me s, idx)] }

omit [DecidableEq Idx] in
theorem compressor_of_lookupID (h : lookupID cfg s idx = none) : cfg.compressor = none := by
  rw [lookupID] at h
  cases hc : cfg.compressor with
  | some code =>
    rw [hc] at h
    cases h
  | none => rfl

theorem getNewObjectID_new (me : Nat) (h : lookupID cfg s idx = none) :
    getNewObjectID cfg me s idx =
      (insertID cfg (withID me s idx) idx (newID me s), newID me s) := by
  rw [getNewObjectID, h]
  rfl

/-- A new element at a location that is here: the messages that wait for it go through the queue. -/
def addedHere (me : Nat) (s : LocMgr Idx) (mgr id : Nat) : Outcome Idx :=
  ⟨setElement { s with
      bufferedShadowElemMsgs := s.bufferedShadowElemMsgs.filter fun m =>
        m.elementId ≠ id } mgr id true,
    (s.bufferedShadowElemMsgs.filter fun m => m.elementId = id).map fun m => ⟨me, .deliver m⟩, []⟩

/-- A new element at a location that is not here. -/
def addedNew (cfg : Config Idx) (me : Nat) (s : LocMgr Idx) (mgr : Nat) (idx : Idx)
    (id moves : Nat) : Outcome Idx :=
  ⟨setElement (informed cfg (withRec s id idx moves) idx id ⟨me, moves⟩) mgr id true,
    informWires me (withRec s id idx moves) idx id ⟨me, moves⟩ ++
      homeWires cfg me idx id ⟨me, moves⟩, []⟩

variable {mgr : Nat}

theorem addElement_here (hlook : lookupID cfg s idx = some id) (hhash : s.hash id = some record) :
    addElement cfg me s mgr idx = if s.elements mgr id then none else some
    (addedHere me s mgr id) := by
  have hknown : Known s id ⟨me, 0⟩ := .inl (by rw [hhash]; rfl)
  rw [addElement, getNewObjectID, hlook]
  dsimp only
  rw [hhash]
  rw [deliverAnyBufferedMsgs_known hknown, bind_some, andThen, addElementToRec, hhash]
  split
  · next h => rw [if_pos (by exact h), map_none]
  · next h =>
    rw [if_neg (by exact h), map_some, append_nil]
    rfl

theorem addElement_new (hlook : lookupID cfg s idx = some id) (hhash : s.hash id = none)
    (moves : Nat)
    (hmoves : moves = ((s.id2pe id).map Place.moves).getD 0 + 1) : addElement cfg me s mgr idx =
      if s.elements mgr id then none else some (addedNew cfg me s mgr idx id moves) := by
  rw [addElement, getNewObjectID, hlook]
  dsimp only
  rw [hhash]
  rw [← hmoves, createLocal_eq hlook, bind_some, andThen, addElementToRec, if_pos rfl]
  split
  · next h => rw [if_pos (by exact h), map_none]
  · next h =>
    rw [if_neg (by exact h), map_some, append_nil]
    rfl

/-- The state in which an index has an identifier: the one there was, or a new one. -/
def Identified (cfg : Config Idx) (me : Nat) (s : LocMgr Idx) (idx : Idx) (s' : LocMgr Idx)
    (id : Nat) : Prop :=
  lookupID cfg s idx = some id ∧ s' = s ∨
    lookupID cfg s idx = none ∧ id = newID me s ∧ s' = insertID cfg (withID me s idx) idx id

theorem Identified.lookupID_eq
    (h : Identified cfg me s idx s' id) : lookupID cfg s' idx = some id := by
  rcases h with ⟨h, hs⟩ | ⟨h, -, hs⟩
  · rw [hs, h]
  · rw [hs, lookupID_of_inserted (s := withID me s idx) rfl, Config.identifier,
      compressor_of_lookupID h]

/-- A new element whose index has no identifier: it gets one, and the rest is as above. -/
theorem addElement_unknown (h : lookupID cfg s idx = none) : addElement cfg me s mgr idx =
      addElement cfg me (insertID cfg (withID me s idx) idx (newID me s)) mgr idx := by
  have hid : Identified cfg me s idx (insertID cfg (withID me s idx) idx (newID me s))
      (newID me s) :=
    .inr ⟨h, rfl, rfl⟩
  have hsame : getNewObjectID cfg me (insertID cfg (withID me s idx) idx (newID me s)) idx =
      getNewObjectID cfg me s idx := by
    rw [getNewObjectID_new me h, getNewObjectID, hid.lookupID_eq]
  rw [addElement, addElement, hsame]

variable (cfg me s mgr) in
/-- All that `addElement` does for an index with an identifier: it adds the element to the record,
or makes a record. -/
inductive Added (idx : Idx) (id : Nat) : Outcome Idx → Prop
  | here {record : LocRec Idx} (hrec : s.hash id = some record) :
      Added idx id (addedHere me s mgr id)
  | new {moves : Nat} (hnone : s.hash id = none)
      (hmoves : moves = ((s.id2pe id).map Place.moves).getD 0 + 1) :
      Added idx id (addedNew cfg me s mgr idx id moves)

theorem added (hlook : lookupID cfg s idx = some id) (h : addElement cfg me s mgr idx = some o) :
    Added cfg me s mgr idx id o := by
  cases hhash : s.hash id with
  | some record =>
    rw [addElement_here hlook hhash] at h
    split at h
    · cases h
    · rw [← some.inj h]
      exact .here hhash
  | none =>
    rw [addElement_new hlook hhash _ rfl] at h
    split at h
    · cases h
    · rw [← some.inj h]
      exact .new hhash rfl

variable (cfg me s idx) in
/-- The processor knows of no other processor where the index is. -/
def NotRemote : Prop :=
  ∀ place, (lookupID cfg s idx).bind s.id2pe = some place → place.pe = me

variable (cfg me s mgr) in
/-- All that `insertElement` does: it passes the element on, or adds it. -/
inductive Inserted (idx : Idx) : Outcome Idx → Prop
  | passed {place : Place} (hplace : (lookupID cfg s idx).bind s.id2pe = some place) :
      Inserted idx ⟨s, [⟨place.pe, .insertElement mgr idx⟩], []⟩
  | added {s' : LocMgr Idx} {id : Nat} {o : Outcome Idx} (hid : Identified cfg me s idx s' id)
      (hlocal : NotRemote cfg me s idx) (hadd : Added cfg me s' mgr idx id o) : Inserted idx o

theorem inserted (h : insertElement cfg me s mgr idx = some o) : Inserted cfg me s mgr idx o := by
  have hadd : NotRemote cfg me s idx → addElement cfg me s mgr idx = some o →
      Inserted cfg me s mgr idx o := by
    intro hlocal h
    cases hlook : lookupID cfg s idx with
    | some id => exact .added (.inl ⟨hlook, rfl⟩) hlocal (added hlook h)
    | none =>
      rw [addElement_unknown hlook] at h
      have hid : Identified cfg me s idx _ (newID me s) := .inr ⟨hlook, rfl, rfl⟩
      exact .added hid hlocal (added hid.lookupID_eq h)
  rw [insertElement] at h
  split at h
  · next place hplace =>
    split at h
    · next hpe =>
      refine hadd (fun place' hplace' => ?_) h
      rw [hplace] at hplace'
      cases hplace'
      exact hpe
    · rw [← some.inj h]
      exact .passed hplace
  · next hplace =>
    refine hadd (fun place' hplace' => ?_) h
    rw [hplace] at hplace'
    cases hplace'

/-- The first element of an index that has no identifier. -/
theorem insertElement_new (hlook : lookupID cfg s idx = none)
    (hhash : s.hash (newID me s) = none) (hplace : s.id2pe (newID me s) = none)
    (helem : s.elements mgr (newID me s) = false) : insertElement cfg me s mgr idx =
      some (addedNew cfg me (insertID cfg (withID me s idx) idx (newID me s)) mgr idx
        (newID me s) 1) := by
  have hid : Identified cfg me s idx (insertID cfg (withID me s idx) idx (newID me s))
      (newID me s) :=
    .inr ⟨hlook, rfl, rfl⟩
  have hs : insertID cfg (withID me s idx) idx (newID me s) = { withID me s idx with
      idx2id := (insertID cfg (withID me s idx) idx (newID me s)).idx2id } := insertID_eq ..
  rw [insertElement, hlook]
  dsimp only [bind_none]
  rw [addElement_unknown hlook, addElement_new hid.lookupID_eq (by rw [hs]; exact hhash) 1, if_neg]
  · rw [hs, Bool.not_eq_true]
    exact helem
  · rw [hs]
    show 1 = ((s.id2pe (newID me s)).map Place.moves).getD 0 + 1
    rw [hplace]
    rfl

/-- All that `emigrate` does. -/
theorem emigrate_cases (h : emigrate cfg me s id toPe = some o) :
    ∃ record, s.hash id = some record ∧
      (toPe = me ∧ o = ⟨s, [], []⟩ ∨ toPe ≠ me ∧ o = emigrated cfg me s id toPe record) := by
  cases hhash : s.hash id with
  | none =>
    rw [emigrate, hhash] at h
    cases h
  | some record =>
    refine ⟨record, rfl, ?_⟩
    by_cases hto : toPe = me
    · rw [emigrate, hhash] at h
      dsimp only at h
      rw [if_pos hto] at h
      exact .inl ⟨hto, (some.inj h).symm⟩
    · rw [emigrate_eq hhash hto] at h
      exact .inr ⟨hto, (some.inj h).symm⟩

omit [DecidableEq Idx] in
/-- All that the deletion of an element does. -/
theorem reclaim_cases (h : reclaim cfg me s mgr id = some o) : ∃ record, s.hash id = some record ∧
      (o = ⟨setElement s mgr id false, [], []⟩ ∨ o = ⟨removeRec (setElement s mgr id false) id,
          if cfg.home record.idx ≠ me then [⟨cfg.home record.idx, .reclaimRemote record.idx⟩]
          else [], []⟩) := by
  rw [reclaim] at h
  cases hhash : s.hash id with
  | none =>
    rw [hhash] at h
    cases h
  | some record =>
    rw [hhash] at h
    dsimp only at h
    split at h
    · refine ⟨record, rfl, ?_⟩
      split at h
      · exact .inl (some.inj h).symm
      · exact .inr (some.inj h).symm
    · cases h

variable (cfg me s) in
/-- All that receiving a call does, but for migrations and insertions. -/
inductive Received : Call Idx → Outcome Idx → Prop
  | deliver {msg : UserMsg Idx} {o : Outcome Idx} (h : Delivered cfg me s msg none o) :
      Received (.deliver msg) o
  | learnIdx {idx : Idx} {id : Nat} {nowOn : Place} :
      Received (.updateLocationIdx idx id nowOn) (learnedIdx cfg me s idx id nowOn)
  | learn {id : Nat} {nowOn : Place} :
      Received (.updateLocation id nowOn) (learned me s id nowOn)
  | ownIdx {idx : Idx} : Received (.requestLocationIdx idx me) ⟨s, [], []⟩
  | answerIdx {idx : Idx} {peToTell id : Nat} (hlookup : lookupID cfg s idx = some id) :
      Received (.requestLocationIdx idx peToTell)
        ⟨s, [⟨peToTell, .updateLocationIdx idx id (lastKnownIdx cfg s idx)⟩], []⟩
  | waitIdx {idx : Idx} {peToTell : Nat} (hlookup : lookupID cfg s idx = none) :
      Received (.requestLocationIdx idx peToTell)
        ⟨{ s with bufferedLocationRequests := s.bufferedLocationRequests ++ [(idx, peToTell)] }, [],
          []⟩
  | own {id : Nat} : Received (.requestLocation id me) ⟨s, [], []⟩
  | answer {id peToTell : Nat} :
      Received (.requestLocation id peToTell)
        ⟨s, [⟨peToTell, .updateLocation id (lastKnown cfg s id)⟩], []⟩
  | immigrate {idx : Idx} {id : Nat} {elements : List Nat} {moves : Nat} {o : Outcome Idx}
      (h : immigrate cfg me s idx id elements moves = some o) :
      Received (.immigrate idx id elements moves) o
  | insertElement {mgr : Nat} {idx : Idx} {o : Outcome Idx}
      (h : insertElement cfg me s mgr idx = some o) : Received (.insertElement mgr idx) o
  | forget {idx : Idx} {id : Nat} (hlookup : lookupID cfg s idx = some id) :
      Received (.reclaimRemote idx)
        ⟨{ s with id2pe := update s.id2pe id none, idx2id := update s.idx2id idx none }, [], []⟩

theorem received {call : Call Idx} (h : receive cfg me s call = some o) :
    Received cfg me s call o := by
  cases call with
  | deliver msg =>
    cases h
    exact .deliver (deliverMsg_delivered ..)
  | updateLocationIdx idx id nowOn =>
    cases (updateLocationIdx_eq ..).symm.trans h
    exact .learnIdx
  | updateLocation id nowOn =>
    cases (updateLocation_eq ..).symm.trans h
    exact .learn
  | requestLocationIdx idx peToTell =>
    cases h
    rw [requestLocationIdx]
    split
    · next hme => exact hme ▸ .ownIdx
    · split
      · next hlook => exact .answerIdx hlook
      · next hlook => exact .waitIdx hlook
  | requestLocation id peToTell =>
    cases h
    rw [requestLocation]
    split
    · next hme => exact hme ▸ .own
    · exact .answer
  | immigrate idx id elements moves => exact .immigrate h
  | insertElement mgr idx => exact .insertElement h
  | reclaimRemote idx =>
    rw [receive, reclaimRemote, bind_eq_some_iff] at h
    obtain ⟨id, hlook, h⟩ := h
    split at h
    · cases h
    · cases h
      exact .forget hlook

/-! ## Calls -/

variable {wire : Wire Idx}

section Calls

variable {Q R : Call Idx → Prop} {wires a b : List (Wire Idx)}

omit [DecidableEq Idx]

/-- All of the calls satisfy `Q`. -/
def AllCalls (Q : Call Idx → Prop) (wires : List (Wire Idx)) : Prop := ∀ wire ∈ wires, Q wire.call

theorem AllCalls.nil : AllCalls Q [] := nofun

theorem AllCalls.cons (h : Q wire.call) (hwires : AllCalls Q wires) : AllCalls Q (wire :: wires) :=
  forall_mem_cons.2 ⟨h, hwires⟩

theorem AllCalls.append (ha : AllCalls Q a) (hb : AllCalls Q b) : AllCalls Q (a ++ b) :=
  forall_mem_append.2 ⟨ha, hb⟩

theorem AllCalls.single (h : Q wire.call) : AllCalls Q [wire] := .cons h .nil

theorem AllCalls.ite {c : Prop} [Decidable c] (h : Q wire.call) :
    AllCalls Q (if c then [] else [wire]) := by
  split
  · exact .nil
  · exact .single h

theorem AllCalls.mono (h : AllCalls Q wires) (hQR : ∀ call, Q call → R call) : AllCalls R wires :=
  fun wire hwire => hQR _ (h wire hwire)

theorem AllCalls.subset (h : AllCalls Q b) (hab : a ⊆ b) : AllCalls Q a :=
  fun wire hwire => h wire (hab hwire)

theorem AllCalls.map {α : Type} {l : List α} {f : α → Wire Idx} (h : ∀ a ∈ l, Q (f a).call) :
    AllCalls Q (l.map f) := by
  intro wire hwire
  obtain ⟨a, ha, rfl⟩ := mem_map.1 hwire
  exact h a ha

theorem AllCalls.multiHop (h : Q (.updateLocation msg.elementId ⟨me, record.moves⟩)) :
    AllCalls Q (if msg.hops > 1 then multiHop me record msg else []) := by
  split
  · exact .ite h
  · exact .nil

theorem AllCalls.home (h : Q (.updateLocationIdx idx (cfg.identifier idx id) nowOn)) :
    AllCalls Q (homeWires cfg me idx id nowOn) := by
  rw [homeWires]
  split
  · exact .single h
  · exact .nil

variable (hdeliver : ∀ msg, Q (.deliver msg))
include hdeliver

theorem AllCalls.route {here : Bool} : AllCalls Q (msgs.map (route me here nowOn)) :=
  .map fun msg _ => by cases here <;> exact hdeliver _

theorem AllCalls.inform [DecidableEq Idx] (h : Q (.updateLocationIdx idx id nowOn)) :
    AllCalls Q (informWires me s idx id nowOn) :=
  .append (.map fun _ _ => h) (.append (.route hdeliver)
    (.map fun msg _ => by cases (s.hash id).isSome <;> exact hdeliver _))

end Calls

/-! ## The system -/

section System

variable {w : System Idx} {p q : Nat} {net : List (Wire Idx)} {o : Outcome Idx}

omit [DecidableEq Idx]

/-- What is left in flight when a call is received was in flight. -/
theorem mem_of_mem_rest {before after : List (Wire Idx)} (hnet : w.net = before ++ wire :: after) :
    before ++ after ⊆ w.net := by
  rw [hnet]
  exact ((Sublist.refl _).append (sublist_cons_self _ _)).subset

theorem put_pes_self : (w.put p net o).pes p = o.mgr := update_self ..

theorem put_pes_of_ne (h : q ≠ p) : (w.put p net o).pes q = w.pes q := update_of_ne h ..

end System

end CharmRuntime.Location
