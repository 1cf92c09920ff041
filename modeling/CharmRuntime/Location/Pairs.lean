import CharmRuntime.Location.Effects

/-!
# Pairs of an index and an identifier

The tables, the buffers and the calls of the location manager pair indices with identifiers. No
function makes up a pair: if all that it reads satisfies `P`, so does all that it leaves and sends,
unless it gives out a new identifier (`sendMsg_keepsTo`, `emigrate_keepsTo`, `reclaim_keepsTo`,
`addedHere_keepsTo`, `addedNew_keepsTo`, `receive_keepsTo`).
-/

set_option autoImplicit false

namespace CharmRuntime.Location

open Lib List

variable {Idx : Type} {cfg : Config Idx} {P : Idx → Nat → Prop} {me : Nat} {s : LocMgr Idx}

/-- What is used of the pairs that a system may have: a compressor determines them. -/
structure PairRule (cfg : Config Idx) (P : Idx → Nat → Prop) : Prop where
  identifier : ∀ idx id, P idx id → cfg.identifier idx id = id
  compress : ∀ code, cfg.compressor = some code → ∀ idx, P idx (code.compress idx)

/-- The pairs in the tables and buffers of a processor satisfy `P`. -/
structure TablesIn (P : Idx → Nat → Prop) (s : LocMgr Idx) : Prop where
  idx2id : ∀ idx id, s.idx2id idx = some id → P idx id
  hash : ∀ id record, s.hash id = some record → P record.idx id
  id2pe : ∀ id place, s.id2pe id = some place → ∃ idx, P idx id
  bufferedMsgs : ∀ m ∈ s.bufferedMsgs, P m.idx m.elementId
  bufferedRemoteMsgs : ∀ m ∈ s.bufferedRemoteMsgs, P m.idx m.elementId
  bufferedShadowElemMsgs : ∀ m ∈ s.bufferedShadowElemMsgs, P m.idx m.elementId

/-- The pair in a call satisfies `P`. -/
def Call.In (P : Idx → Nat → Prop) : Call Idx → Prop
  | .deliver msg => P msg.idx msg.elementId
  | .updateLocationIdx idx id _ => P idx id
  | .updateLocation id _ => ∃ idx, P idx id
  | .requestLocationIdx _ _ => True
  | .requestLocation id _ => ∃ idx, P idx id
  | .immigrate idx id _ _ => P idx id
  | .insertElement _ _ => True
  | .reclaimRemote idx => ∃ id, P idx id

/-- A function has kept to the pairs that satisfy `P` and has given out no identifier. -/
structure KeepsTo (P : Idx → Nat → Prop) (s : LocMgr Idx) (o : Outcome Idx) : Prop where
  tables : TablesIn P o.mgr
  wires : AllCalls (Call.In P) o.sent
  idCounter : o.mgr.idCounter = s.idCounter
  issued : o.mgr.issued = s.issued

variable {id : Nat} {idx : Idx} {Q : Idx → Nat → Prop} {call : Call Idx}

theorem PairRule.lookupID (hP : PairRule cfg P) (hs : TablesIn P s)
    (h : lookupID cfg s idx = some id) : P idx id := by
  rw [Location.lookupID] at h
  cases hc : cfg.compressor with
  | some code =>
    rw [hc] at h
    cases h
    exact hP.compress code hc idx
  | none =>
    rw [hc] at h
    exact hs.idx2id idx id h

theorem Call.In.mono (h : call.In P) (hPQ : ∀ idx id, P idx id → Q idx id) : call.In Q := by
  cases call with
  | deliver | updateLocationIdx | immigrate => exact hPQ _ _ h
  | updateLocation | requestLocation | reclaimRemote => exact h.imp fun _ => hPQ _ _
  | requestLocationIdx | insertElement => exact trivial

theorem TablesIn.mono (h : TablesIn P s) (hPQ : ∀ idx id, P idx id → Q idx id) : TablesIn Q s where
  idx2id idx id hid := hPQ _ _ (h.idx2id idx id hid)
  hash id record hid := hPQ _ _ (h.hash id record hid)
  id2pe id place hid := (h.id2pe id place hid).imp fun _ => hPQ _ _
  bufferedMsgs m hm := hPQ _ _ (h.bufferedMsgs m hm)
  bufferedRemoteMsgs m hm := hPQ _ _ (h.bufferedRemoteMsgs m hm)
  bufferedShadowElemMsgs m hm := hPQ _ _ (h.bufferedShadowElemMsgs m hm)

variable {msgs : List (UserMsg Idx)} {nowOn : Place}

/-- Sending the messages of a buffer on. -/
theorem route_in (hmsgs : ∀ m ∈ msgs, P m.idx m.elementId) {test : UserMsg Idx → Bool}
    {here : Bool} : AllCalls (Call.In P) ((msgs.filter test).map (route me here nowOn)) := by
  refine .map fun m hm => ?_
  have hp := hmsgs m (mem_filter.1 hm).1
  cases here <;> exact hp

theorem forall_mem_filter (hmsgs : ∀ m ∈ msgs, P m.idx m.elementId)
    (test : UserMsg Idx → Bool) : ∀ m ∈ msgs.filter test, P m.idx m.elementId :=
  fun m hm => hmsgs m (mem_filter.1 hm).1

theorem homeWires_in (hP : PairRule cfg P) (hp : P idx id) :
    AllCalls (Call.In P) (homeWires cfg me idx id nowOn) :=
  .home (by rwa [hP.identifier idx id hp])

theorem tablesIn_initial (p : Nat) : TablesIn P ((initialSystem : System Idx).pes p) :=
  ⟨nofun, nofun, nofun, nofun, nofun, nofun⟩

section Functions

variable (hs : TablesIn P s)

include hs

theorem TablesIn.withRec (hp : P idx id) (moves : Nat) : TablesIn P (withRec s id idx moves) := by
  refine { hs with hash := fun id' record h => ?_ }
  rcases update_some_cases h with ⟨rfl, rfl⟩ | ⟨-, h⟩
  · exact hp
  · exact hs.hash id' record h

theorem TablesIn.removeRec (id : Nat) : TablesIn P (removeRec s id) :=
  { hs with hash := fun id' record h => hs.hash id' record (update_none_cases h).2 }

theorem TablesIn.setElement (mgr id : Nat) (here : Bool) : TablesIn P (setElement s mgr id here) :=
  { hs with }

theorem TablesIn.withElements (id : Nat) (elements : List Nat) :
    TablesIn P (withElements s id elements) := { hs with }

theorem TablesIn.setPlace (hp : ∃ idx, P idx id) (place : Place) :
    TablesIn P { s with id2pe := Function.update s.id2pe id (some place) } := by
  refine { hs with id2pe := fun id' place' h => ?_ }
  rcases update_some_cases h with ⟨rfl, -⟩ | ⟨-, h⟩
  · exact hp
  · exact hs.id2pe id' place' h

theorem Delivered.keepsTo {msg : UserMsg Idx} {idx : Option Idx} {o : Outcome Idx}
    (h : Delivered cfg me s msg idx o) (hmsg : P msg.idx msg.elementId) : KeepsTo P s o := by
  have hguess : TablesIn P (Location.guessed s msg.elementId (unknownHome cfg msg idx)) :=
    hs.setPlace ⟨_, hmsg⟩ _
  cases h with
  | sent => exact ⟨hs, .single hmsg, rfl, rfl⟩
  | invoked => exact ⟨hs, .multiHop ⟨_, hmsg⟩, rfl, rfl⟩
  | shadow =>
    exact ⟨{ hs with bufferedShadowElemMsgs :=
      Lib.forall_mem_concat hs.bufferedShadowElemMsgs hmsg }, .nil, rfl, rfl⟩
  | atHome =>
    exact ⟨{ hs with bufferedMsgs := Lib.forall_mem_concat hs.bufferedMsgs hmsg }, .nil, rfl, rfl⟩
  | guessed => exact ⟨hguess, .single hmsg, rfl, rfl⟩
  | asked =>
    exact ⟨{ hguess with bufferedRemoteMsgs := Lib.forall_mem_concat hs.bufferedRemoteMsgs hmsg },
      .ite ⟨_, hmsg⟩, rfl, rfl⟩

theorem addedHere_keepsTo (mgr id : Nat) : KeepsTo P s (addedHere me s mgr id) := by
  refine ⟨?_, .map (forall_mem_filter hs.bufferedShadowElemMsgs _), rfl, rfl⟩
  exact { hs with bufferedShadowElemMsgs := forall_mem_filter hs.bufferedShadowElemMsgs _ }

variable {o : Outcome Idx}

theorem reclaim_keepsTo {mgr : Nat} (h : reclaim cfg me s mgr id = some o) : KeepsTo P s o := by
  obtain ⟨record, hrec, rfl | rfl⟩ := reclaim_cases h
  · exact ⟨hs.setElement mgr id false, .nil, rfl, rfl⟩
  · refine ⟨(hs.setElement mgr id false).removeRec id, ?_, rfl, rfl⟩
    split
    · exact .single ⟨id, hs.hash id record hrec⟩
    · exact .nil

variable [DecidableEq Idx]

theorem TablesIn.insertID (hp : P idx id) : TablesIn P (insertID cfg s idx id) := by
  rw [Location.insertID]
  cases cfg.compressor with
  | some code => exact hs
  | none =>
    refine { hs with idx2id := fun idx' id' h => ?_ }
    rcases update_some_cases h with ⟨rfl, rfl⟩ | ⟨-, h⟩
    · exact hp
    · exact hs.idx2id idx' id' h

theorem TablesIn.informed (hp : P idx id) (nowOn : Place) :
    TablesIn P (informed cfg s idx id nowOn) :=
  { hs.setPlace ⟨idx, hp⟩ nowOn with
    idx2id := (hs.insertID hp).idx2id
    bufferedMsgs := forall_mem_filter hs.bufferedMsgs _ }

theorem informWires_in (hp : P idx id) (nowOn : Place) :
    AllCalls (Call.In P) (informWires me s idx id nowOn) := by
  refine .append (.map fun _ _ => hp) (.append (route_in hs.bufferedMsgs) (.map fun m hm => ?_))
  have hm : m.idx = idx := by simpa using (mem_filter.1 hm).2
  cases (s.hash id).isSome <;> rw [← hm] at hp <;> exact hp

variable (hP : PairRule cfg P)

include hP

theorem sendMsg_keepsTo (msg : UserMsg Idx) (type : DeliverType) :
    KeepsTo P s (sendMsg cfg me s msg type) := by
  rw [sendMsg]
  split
  · next id hid => exact (deliverMsg_delivered ..).keepsTo hs (hP.lookupID hs hid)
  · dsimp only
    split
    · exact ⟨{ hs with }, .ite trivial, rfl, rfl⟩
    · exact ⟨{ hs with }, .nil, rfl, rfl⟩

theorem addedNew_keepsTo (hp : P idx id) (mgr moves : Nat) :
    KeepsTo P s (addedNew cfg me s mgr idx id moves) := by
  have hrec : TablesIn P (withRec s id idx moves) := hs.withRec hp moves
  exact ⟨(hrec.informed hp ⟨me, moves⟩).setElement mgr id true,
    .append (informWires_in hrec hp _) (homeWires_in hP hp), rfl, rfl⟩

theorem emigrate_keepsTo {toPe : Nat} (h : emigrate cfg me s id toPe = some o) : KeepsTo P s o := by
  obtain ⟨record, hrecord, ⟨-, rfl⟩ | ⟨-, rfl⟩⟩ := emigrate_cases h
  · exact ⟨hs, .nil, rfl, rfl⟩
  · have hp : P record.idx id := hs.hash id record hrecord
    have hrec : TablesIn P (removeRec s id) := hs.removeRec id
    refine ⟨hrec.informed hp _, ?_, rfl, rfl⟩
    exact .cons hp (.append (informWires_in hrec hp _) (homeWires_in hP hp))

/-- Every call but `insertElement` keeps to the pairs of the tables and the one of the call. -/
theorem receive_keepsTo (hcall : call.In P) (hins : ∀ mgr idx, call ≠ .insertElement mgr idx)
    (h : receive cfg me s call = some o) : KeepsTo P s o := by
  cases received h with
  | deliver h => exact h.keepsTo hs hcall
  | @learnIdx idx id nowOn =>
    have htables : TablesIn P (informed cfg s idx id nowOn) := hs.informed hcall nowOn
    exact ⟨{ htables with bufferedRemoteMsgs := forall_mem_filter hs.bufferedRemoteMsgs _ },
      .append (informWires_in hs hcall _) (route_in hs.bufferedRemoteMsgs), rfl, rfl⟩
  | learn =>
    refine ⟨?_, .append (route_in hs.bufferedMsgs) (route_in hs.bufferedRemoteMsgs), rfl, rfl⟩
    exact { hs.setPlace hcall _ with
      bufferedMsgs := forall_mem_filter hs.bufferedMsgs _
      bufferedRemoteMsgs := forall_mem_filter hs.bufferedRemoteMsgs _ }
  | ownIdx | own => exact ⟨hs, .nil, rfl, rfl⟩
  | answerIdx hlook => exact ⟨hs, .single (hP.lookupID hs hlook), rfl, rfl⟩
  | waitIdx => exact ⟨{ hs with }, .nil, rfl, rfl⟩
  | answer => exact ⟨hs, .single hcall, rfl, rfl⟩
  | @immigrate idx id elements moves o h =>
    rw [immigrate_eq _ (hP.identifier _ _ hcall)] at h
    cases h
    have hrec := hs.withRec hcall moves
    exact ⟨(hrec.informed hcall _).withElements _ _, informWires_in hrec hcall _, rfl, rfl⟩
  | insertElement => exact absurd rfl (hins _ _)
  | forget =>
    refine ⟨?_, .nil, rfl, rfl⟩
    exact { hs with
      idx2id := fun idx' id' h' => hs.idx2id idx' id' (update_none_cases h').2
      id2pe := fun id' place h' => hs.id2pe id' place (update_none_cases h').2 }

end Functions

/-! ## Steps -/

/-- The processor on which an event inserts an element, and the index. -/
def Event.inserts : Event Idx → Option (Nat × Idx)
  | .insert pe _ idx => some (pe, idx)
  | .receive ⟨pe, .insertElement _ idx⟩ => some (pe, idx)
  | _ => none

variable [DecidableEq Idx] {w w' : System Idx} {e : Event Idx}

/-- A step that inserts an element calls `insertElement`. -/
theorem Step.inserts {p : Nat} (hstep : Step cfg w e w') (he : e.inserts = some (p, idx)) :
    ∃ mgr net o, insertElement cfg p (w.pes p) mgr idx = some o ∧ net ⊆ w.net ∧
    w' = w.put p net o := by
  cases hstep with
  | insert hpe hmgr ho =>
    cases he
    exact ⟨_, _, _, ho, fun _ hwire => hwire, rfl⟩
  | @receive before after wire o hnet ho =>
    obtain ⟨pe, call⟩ := wire
    cases call with
    | insertElement mgr idx =>
      cases he
      exact ⟨_, _, _, ho, mem_of_mem_rest hnet, rfl⟩
    | _ => cases he
  | _ => cases he

/-- A call that is received was in flight. -/
theorem Step.wire_mem {wire : Wire Idx} (hstep : Step cfg w e w') (he : e = .receive wire) :
    wire ∈ w.net := by
  subst he
  cases hstep with
  | receive hnet => exact hnet ▸ mem_append_cons_self

/-- The other steps keep to the pairs. -/
theorem Step.keepsTo (hP : PairRule cfg P) (htables : ∀ p, TablesIn P (w.pes p))
    (hwires : AllCalls (Call.In P) w.net) (hstep : Step cfg w e w') (he : e.inserts = none) :
    ∃ p net o sent, KeepsTo P (w.pes p) o ∧ net ⊆ w.net ∧
    w' = { w.put p net o with sent := sent } := by
  have hnet : w.net ⊆ w.net := Subset.refl _
  cases hstep with
  | send hpe hmgr => exact ⟨_, w.net, _, _, sendMsg_keepsTo (htables _) hP .., hnet, rfl⟩
  | insert hpe hmgr ho => cases he
  | emigrate hpe hto ho =>
    exact ⟨_, w.net, _, w.sent, emigrate_keepsTo (htables _) hP ho, hnet, rfl⟩
  | destroy hpe hmgr ho => exact ⟨_, w.net, _, w.sent, reclaim_keepsTo (htables _) ho, hnet, rfl⟩
  | @receive before after wire o hnet' ho =>
    have hcall : wire.call.In P := hwires wire (hnet' ▸ mem_append_cons_self)
    have hins : ∀ mgr idx, wire.call ≠ .insertElement mgr idx := by
      obtain ⟨pe, call⟩ := wire
      rintro mgr idx rfl
      cases he
    exact ⟨_, _, _, w.sent, receive_keepsTo (htables _) hP hcall hins ho,
      mem_of_mem_rest hnet', rfl⟩

end CharmRuntime.Location
