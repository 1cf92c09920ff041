import CharmRuntime.Location.Manager

/-!
# Messages that are sent with `CK_MSG_KEEP`

With the option the caller keeps the message: `sendMsg`, `deliverMsg` and `deliverUnknown` copy it
where they store it or give it away. The functions are modelled by the list of their actions, each
on a message object: the caller's own one or a copy. Other than in `CharmRuntime.Location.Manager`
an array may not have registered here yet, the system may be restarting, and elements may be created
on demand. The main result is `sendMsg_stays_iff`: the states and messages for which exactly one
copy is given away, and never the caller's message.
-/

set_option autoImplicit false

namespace CharmRuntime.Location.Keep

open Function List

/-! ## Message objects and actions -/

/-- A message object: the one of the caller or the result of `CkCopyMsg`. -/
inductive Handle
  | own
  | copyOf (h : Handle)
  deriving DecidableEq, Repr

/-- `CkArray_IfNotThere`. -/
inductive IfNotThere
  | buffer
  | createhere
  | createhome
  deriving DecidableEq, Repr

/-- `CkArrayMessage *`: an object and what it says. -/
structure Msg (Idx : Type) where
  handle : Handle
  body : UserMsg Idx
  ifNotThere : IfNotThere
  deriving DecidableEq, Repr

/-- The buffers of messages. -/
inductive Store
  | bufferedMsgs
  | bufferedRemoteMsgs
  | bufferedIndexMsgs
  | bufferedShadowElemMsgs
  deriving DecidableEq, Repr

/-- What the functions do, in their order. `invoke` is `invokeEntry`: with `doFree` unset the entry
method reads the message or works on a copy made for it. -/
inductive Action (Idx : Type)
  | copyMsg (msg : Msg Idx)
  | store (buffer : Store) (msg : Msg Idx)
  | managerDeliver (pe : Nat) (msg : Msg Idx)
  | delete (msg : Msg Idx)
  | invoke (msg : Msg Idx) (doFree : Bool)
  | call (wire : Wire Idx)
  | setPe (id pe : Nat)
  | demandCreate (pe : Nat) (idx : Idx)
  | abort (text : String)
  deriving DecidableEq, Repr

/-- What the functions read beside the tables of `LocMgr`. An entry of `managers` may be a null
pointer, left by `managers[mgr]`. -/
structure Site (Idx : Type) where
  inBounds : Idx → Bool
  managers : Nat → Option Bool
  inRestarting : Bool
  hasDefaultCtor : Bool

variable {Idx : Type} (cfg : Config Idx) (me : Nat) (s : LocMgr Idx) (site : Site Idx) (keep : Bool)

/-! ## The functions -/

/-- `if (opts & CK_MSG_KEEP) msg = CkCopyMsg(&msg)`, and then what follows. -/
def copyIfKeep (msg : Msg Idx) (next : Msg Idx → List (Action Idx)) : List (Action Idx) :=
  if keep then .copyMsg msg :: next { msg with handle := .copyOf msg.handle } else next msg

/-- `array_hops()++`. -/
def Msg.hop (msg : Msg Idx) : Msg Idx :=
  { msg with body := { msg.body with hops := msg.body.hops + 1 } }

/-- `demandCreateElement`; `none` is the processor -1. -/
def demandCreateElement (msg : Msg Idx) (idx : Idx) (onPe : Option Nat) : List (Action Idx) :=
  if site.hasDefaultCtor then
    let pe := onPe.getD (if msg.ifNotThere = .createhere then msg.body.srcPe else cfg.home idx)
    [.demandCreate pe idx]
  else
    [.abort ("Can't create array element to handle message--\n" ++
      "The element has no default constructor in the .ci file!\n")]

/-- `deliverUnknown`. -/
def deliverUnknown (msg : Msg Idx) (idx : Option Idx) : List (Action Idx) :=
  let id := msg.body.elementId
  let home := match idx with
    | some idx => cfg.home idx
    | none => homePeId cfg id
  if home ≠ me then
    .setPe id home ::
      if msg.body.totalsize < cfg.messageBufferingThreshold then [.managerDeliver home msg.hop]
      else
        (if s.bufferedRemoteMsgs.any fun m => m.elementId = id then []
          else [.call ⟨home, .requestLocation id me⟩]) ++ [.store .bufferedRemoteMsgs msg]
  else
    match site.managers msg.body.mgr with
    | none => if site.inRestarting then [.delete msg] else [.managerDeliver me msg]
    | some _ =>
      copyIfKeep keep msg fun msg =>
        .store .bufferedMsgs msg ::
          if msg.ifNotThere = .buffer then []
          else [.abort "Demand creation of elements is currently unimplemented"]

/-- `deliverMsg`. -/
def deliverMsg (msg : Msg Idx) (idx : Option Idx) (type : DeliverType) : List (Action Idx) :=
  match s.hash msg.body.elementId with
  | none =>
    copyIfKeep keep msg fun msg =>
      match s.id2pe msg.body.elementId with
      | some place => [.managerDeliver place.pe msg.hop]
      | none => deliverUnknown cfg me s site keep msg idx
  | some record =>
    match type with
    | .queue => copyIfKeep keep msg fun msg => [.managerDeliver me msg]
    | .inline =>
      if site.managers msg.body.mgr = some true then
        if s.elements msg.body.mgr msg.body.elementId then
          (if msg.body.hops > 1 then (multiHop me record msg.body).map .call else []) ++
            [.invoke msg !keep]
        else
          copyIfKeep keep msg fun msg =>
            if msg.ifNotThere = .buffer then [.store .bufferedShadowElemMsgs msg]
            else demandCreateElement cfg site msg record.idx (some me)
      -- The array has not registered: the message is stored as it came.
      else [.store .bufferedShadowElemMsgs msg]

/-- The message with the element part of its recipient set. -/
def Msg.setRecipient (msg : Msg Idx) (id : Nat) : Msg Idx :=
  { msg with body := { msg.body with elementId := id } }

/-- `sendMsg`. -/
def sendMsg [DecidableEq Idx] (msg : Msg Idx) (type : DeliverType) : List (Action Idx) :=
  let idx := msg.body.idx
  if site.inBounds idx then
    match lookupID cfg s idx with
    | some id => deliverMsg cfg me s site keep (msg.setRecipient id) (some idx) type
    | none =>
      let msg := msg.setRecipient 0
      if cfg.home idx ≠ me then
        (if s.bufferedIndexMsgs.any fun m => m.idx = idx then []
          else [.call ⟨cfg.home idx, .requestLocationIdx idx me⟩]) ++
            [.store .bufferedIndexMsgs msg]
      else
        match site.managers msg.body.mgr with
        | none => if site.inRestarting then [.delete msg] else [.store .bufferedIndexMsgs msg]
        | some _ =>
          copyIfKeep keep msg fun msg =>
            .store .bufferedIndexMsgs msg ::
              if msg.ifNotThere = .buffer then [] else demandCreateElement cfg site msg idx none
  else [.abort "Assertion of checkInBounds failed"]

/-! ## Whose message is given away -/

/-- Copies of a message. -/
@[simp]
def Action.copies : Action Idx → Bool
  | .copyMsg _ => true
  | _ => false

/-- Actions that buffer, forward or queue a message. -/
@[simp]
def Action.passes : Action Idx → Bool
  | .store _ _ | .managerDeliver _ _ => true
  | _ => false

/-- Invocations of an entry method. -/
@[simp]
def Action.invokes : Action Idx → Bool
  | .invoke _ _ => true
  | _ => false

/-- Actions after which the caller's message is not the caller's: it is in a buffer, with
`CkArrayManagerDeliver`, or deleted. -/
@[simp]
def Action.takesOwn : Action Idx → Bool
  | .store _ msg | .managerDeliver _ msg | .delete msg => msg.handle = .own
  | _ => false

/-- The message stays the caller's: one copy where a message is passed on, none where an entry
method is invoked, and the caller's message is not taken. -/
def Stays (acts : List (Action Idx)) : Prop :=
  (acts.any Action.passes = true → acts.countP Action.copies = 1) ∧
    (acts.any Action.invokes = true → acts.countP Action.copies = 0) ∧
    acts.any Action.takesOwn = false

instance (acts : List (Action Idx)) : Decidable (Stays acts) := by
  unfold Stays
  infer_instance

/-- The calls of `sendMsg` that copy as they should. An identifier that is not known must belong to
an index of this processor whose array has registered. With an identifier and a record here, only an
inline delivery to an array that has not registered fails; without a record, only the message that
the home buffers, which it copies twice. -/
def Keepable (idx : Idx) (mgr : Nat) (type : DeliverType) : Prop :=
  site.inBounds idx = true →
    match lookupID cfg s idx with
    | none => cfg.home idx = me ∧ site.managers mgr ≠ none
    | some id =>
      match s.hash id with
      | none => s.id2pe id = none → cfg.home idx = me → site.managers mgr = none
      | some _ => type = .inline → site.managers mgr = some true

theorem demandCreateElement_cases (msg : Msg Idx) (idx : Idx) (onPe : Option Nat) :
    (∃ pe, demandCreateElement cfg site msg idx onPe = [.demandCreate pe idx]) ∨
      ∃ text, demandCreateElement cfg site msg idx onPe = [.abort text] := by
  unfold demandCreateElement
  split
  · exact .inl ⟨_, rfl⟩
  · exact .inr ⟨_, rfl⟩

section Stays

variable {cfg me s site} {msg : Msg Idx}

/-- After the copy of `deliverMsg`, only the home of a registered array copies again. -/
theorem stays_deliverUnknown_iff (m : Msg Idx) (idx : Idx) (hm : m.handle ≠ .own) :
    Stays (.copyMsg msg :: deliverUnknown cfg me s site true m (some idx)) ↔
      (cfg.home idx = me → site.managers m.body.mgr = none) := by
  unfold deliverUnknown
  dsimp only
  split
  case isTrue hhome =>
    -- Sent on or kept for the answer of the home, with the one copy made.
    simp only [hhome, false_imp_iff, iff_true]
    split
    · simp [Stays, countP_cons, Msg.hop, hm]
    · split <;>
        simp [Stays, countP_cons, hm]
  case isFalse hhome =>
    rw [not_not] at hhome
    cases hreg : site.managers m.body.mgr with
    | none =>
      dsimp only
      split <;>
        simp [Stays, countP_cons, hm]
    | some array =>
      simp only [hhome, true_imp_iff, copyIfKeep, if_true]
      split <;> simp [Stays, countP_cons]

theorem stays_deliverMsg_iff (idx : Idx) (type : DeliverType) :
    Stays (deliverMsg cfg me s site true msg (some idx) type) ↔ match s.hash msg.body.elementId with
      | none => s.id2pe msg.body.elementId = none → cfg.home idx = me →
          site.managers msg.body.mgr = none
      | some _ => type = .inline → site.managers msg.body.mgr = some true := by
  unfold deliverMsg
  cases s.hash msg.body.elementId with
  | none =>
    simp only [copyIfKeep, if_true]
    cases s.id2pe msg.body.elementId with
    | some place =>
      simp [Stays, countP_cons, Msg.hop]
    | none =>
      rw [stays_deliverUnknown_iff _ _ (by simp)]
      simp
  | some record =>
    cases type with
    | queue =>
      simp [copyIfKeep, Stays, countP_cons]
    | inline =>
      simp only [true_imp_iff]
      by_cases hreg : site.managers msg.body.mgr = some true
      · rw [if_pos hreg]
        simp only [hreg, iff_true]
        split
        · -- The entry method is invoked on the caller's message, which it only reads.
          split
          · simp [Stays]
          · simp [Stays]
        · simp only [copyIfKeep, if_true]
          split
          · simp [Stays, countP_cons]
          · rcases demandCreateElement_cases cfg site
              { msg with handle := .copyOf msg.handle } record.idx (some me)
                with ⟨pe, h⟩ | ⟨text, h⟩ <;>
              simp [h, Stays, countP_cons]
      · simp [Stays, hreg]

end Stays

/-- With `CK_MSG_KEEP` a message stays the caller's in exactly the keepable calls. -/
theorem sendMsg_stays_iff [DecidableEq Idx] (body : UserMsg Idx) (ifNotThere : IfNotThere)
    (type : DeliverType) : Stays (sendMsg cfg me s site true ⟨.own, body, ifNotThere⟩ type) ↔
      Keepable cfg me s site body.idx body.mgr type := by
  unfold sendMsg Keepable
  dsimp only
  cases site.inBounds body.idx with
  | false => simp [Stays]
  | true =>
    simp only [if_true, true_imp_iff]
    cases lookupID cfg s body.idx with
    | some id => exact stays_deliverMsg_iff body.idx type
    | none =>
      dsimp only
      split
      case isTrue hhome =>
        -- The caller's message itself waits for the identifier.
        simp only [hhome, false_and, iff_false]
        split <;> simp [Stays, Msg.setRecipient]
      case isFalse hhome =>
        rw [not_not] at hhome
        simp only [hhome, true_and, Msg.setRecipient]
        cases site.managers body.mgr with
        | none =>
          dsimp only
          split <;> simp [Stays]
        | some array =>
          simp only [copyIfKeep, if_true]
          split
          · simp [Stays, countP_cons]
          · rcases demandCreateElement_cases cfg site
              ⟨.copyOf .own, { body with elementId := 0 }, ifNotThere⟩ body.idx none with
              ⟨pe, h⟩ | ⟨text, h⟩ <;>
              simp [h, Stays, countP_cons]

/-- Two processors, every index at home on processor 1. -/
def homeAtOne : Config Nat := ⟨2, fun _ => 1, [0], none, 0, fun _ => by decide⟩

/-- Processor 0 sends to an index whose identifier it does not know yet: the caller's message is put
into `bufferedIndexMsgs`, and there is no copy. -/
theorem sendMsg_stores_own :
    let acts := sendMsg homeAtOne 0 initialMgr ⟨fun _ => true, fun _ => some true, false, true⟩ true
      ⟨.own, ⟨7, 0, 5, 0, 0, 0, 100⟩, .buffer⟩ .queue
    .store .bufferedIndexMsgs ⟨.own, ⟨7, 0, 5, 0, 0, 0, 100⟩, .buffer⟩ ∈ acts ∧
      acts.countP Action.copies = 0 ∧ ¬Stays acts := by
  decide

end CharmRuntime.Location.Keep
