import CharmRuntime.Lib.Run
import CharmRuntime.Lib.Tables
import CharmRuntime.Lib.Ascent

/-!
# Quiescence detection

The model of `qd.C`. Processor 0 asks all processors, down the spanning tree, for the numbers of
messages that they have created and processed (stage 1), and adds up the answers. When the sums
agree and are those of an earlier round, it asks once more whether anything was processed meanwhile
(stage 2), and if not, it sends the callbacks.

The program of the user is arbitrary: a processor that is busy sends messages, an idle one may begin
to process one. Messages of the detection are handled by idle processors only, in any order.
-/

set_option autoImplicit false

namespace CharmRuntime.Quiescence

open Lib Function

variable {Cb : Type}

/-! ## Messages and state -/

/-- `QdMsg`. The members of the union are separate fields. -/
structure QdMsg (Cb : Type) where
  phase : Nat
  created : Int
  processed : Int
  dirty : Bool
  cb : Cb

/-- `getCb`, with its assertion on the phase. -/
def QdMsg.getCb (msg : QdMsg Cb) : Option Cb := if msg.phase = 0 then some msg.cb else none

/-- `getCreated`. -/
def QdMsg.getCreated (msg : QdMsg Cb) : Option Int :=
  if msg.phase = 1 then some msg.created else none

/-- `getProcessed`. -/
def QdMsg.getProcessed (msg : QdMsg Cb) : Option Int :=
  if msg.phase = 1 then some msg.processed else none

/-- `getDirty`. -/
def QdMsg.getDirty (msg : QdMsg Cb) : Option Bool :=
  if msg.phase = 2 then some msg.dirty else none

/-- Where a message comes from, as its receiver sees it. The code does not look at this. -/
inductive Origin
  | start
  | parent
  | child (q : Nat)
  | self
  deriving DecidableEq

/-- A message on its way. -/
structure Wire (Cb : Type) where
  dest : Nat
  origin : Origin
  msg : QdMsg Cb

/-- `QdState`. The counts have 64 bits in the code, which fewer than `2 ^ 63` messages do not
exceed; here they are unbounded. `sampled` and `rounds` are not in the code: `mCreated` at the last
`bcastQD1`, as `oProcessed` is for `mProcessed`, and the number of calls of `bcastQD1`. -/
structure QdState (Cb : Type) where
  stage : Nat
  cDirty : Bool
  oProcessed : Int
  mCreated : Int
  mProcessed : Int
  cCreated : Int
  cProcessed : Int
  nReported : Nat
  callbacks : List Cb
  oldCount : Int
  sampled : Int
  rounds : Nat

/-- The constructor. -/
def QdState.init : QdState Cb := ⟨0, false, 0, 0, 0, 0, 0, 0, [], -1, 0, 0⟩

/-- `isDirty`. -/
def QdState.isDirty (state : QdState Cb) : Bool :=
  state.mProcessed > state.oProcessed || state.cDirty

/-- `reset`. -/
def QdState.reset (state : QdState Cb) : QdState Cb :=
  { state with nReported := 0, cCreated := 0, cProcessed := 0, cDirty := false }

/-- What a handler leaves: the state, the messages sent and the callbacks sent. -/
structure Outcome (Cb : Type) where
  state : QdState Cb
  sent : List (Wire Cb)
  called : List Cb

/-! ## Handlers -/

section Handlers

variable (t : SpanTree) (me : Nat) (state : QdState Cb) (msg : QdMsg Cb)

/-- `propagate`. -/
def propagate : List (Wire Cb) := (t.children me).map fun q => ⟨q, .parent, msg⟩

/-- `allReported`. -/
def allReported : Prop := state.nReported = (t.children me).length + 1

instance : Decidable (allReported t me state) := inferInstanceAs (Decidable (_ = _))

/-- `_bcastQD1`. -/
def bcastQD1 : Outcome Cb :=
  ⟨{ state.reset with
      oProcessed := state.mProcessed
      stage := 1
      sampled := state.mCreated
      rounds := state.rounds + 1 },
    propagate t me { msg with phase := 0 } ++ [⟨me, .self, { msg with
      phase := 1
      created := state.mCreated
      processed := state.mProcessed }⟩], []⟩

/-- `_bcastQD2`. -/
def bcastQD2 : Outcome Cb :=
  ⟨{ state.reset with stage := 2 }, propagate t me { msg with phase := 1 } ++
      [⟨me, .self, { msg with phase := 2, dirty := state.isDirty }⟩], []⟩

/-- `_handlePhase0`, with its assertion. -/
def handlePhase0 : Option (Outcome Cb) :=
  if me = 0 ∨ state.stage = 0 then
    (if me = 0 then
      msg.getCb.map fun cb => { state with callbacks := state.callbacks ++ [cb] }
    else some state).map fun state =>
      if state.stage = 0 then bcastQD1 t me state msg else ⟨state, [], []⟩
  else none

/-- What processor 0 does with the sums of a round. -/
def endRound : Outcome Cb :=
  if state.cCreated = state.cProcessed then
    if state.oldCount = state.cProcessed then bcastQD2 t me state msg
    else bcastQD1 t me { state with oldCount := state.cProcessed } msg
  else bcastQD1 t me state msg

/-- `_handlePhase1`, with its assertion and its abort. -/
def handlePhase1 : Option (Outcome Cb) :=
  match state.stage with
  | 0 => if me ≠ 0 then some (bcastQD2 t me state msg) else none
  | 1 =>
    msg.getCreated.bind fun created =>
      msg.getProcessed.map fun processed =>
        let state := { state with
          cCreated := state.cCreated + created
          cProcessed := state.cProcessed + processed
          nReported := state.nReported + 1 }
        if allReported t me state then
          if me = 0 then endRound t me state msg
          else
            ⟨{ state.reset with stage := 0 }, [⟨t.parent me, .child me, { msg with
              created := state.cCreated
              processed := state.cProcessed }⟩], []⟩
        else ⟨state, [], []⟩
  | _ => none

/-- `_handlePhase2`, with its assertion. The loop sends the callbacks in order. -/
def handlePhase2 : Option (Outcome Cb) :=
  if state.stage = 2 then
    msg.getDirty.map fun dirty =>
      let state := { state with
        cDirty := state.cDirty || dirty
        nReported := state.nReported + 1 }
      if allReported t me state then
        if me = 0 then
          if state.isDirty then bcastQD1 t me state msg
          else ⟨{ state.reset with stage := 0, callbacks := [] }, [], state.callbacks⟩
        else
          ⟨{ state.reset with stage := 0 },
            [⟨t.parent me, .child me, { msg with dirty := state.isDirty }⟩], []⟩
      else ⟨state, [], []⟩
  else none

/-- `_callWhenIdle`. -/
def callWhenIdle : Option (Outcome Cb) :=
  match msg.phase with
  | 0 => handlePhase0 t me state msg
  | 1 => handlePhase1 t me state msg
  | 2 => handlePhase2 t me state msg
  | _ => none

/-- The branch of `_handlePhase2` that sends the callbacks is reached. -/
def detects : Prop :=
  msg.phase = 2 ∧ state.stage = 2 ∧ me = 0 ∧ state.nReported = (t.children me).length ∧
    state.isDirty = false ∧ msg.dirty = false

end Handlers

/-! ## The system -/

/-- All processors, the messages of the user (the processors they are for), the messages of the
detection, and the callbacks sent. -/
structure System (Cb : Type) where
  pes : Nat → QdState Cb
  busy : Nat → Bool
  net : List Nat
  qd : List (Wire Cb)
  called : List Cb

/-- The start of the program: some processors run the user's code. -/
def initialSystem (busy : Nat → Bool) : System Cb := ⟨fun _ => .init, busy, [], [], []⟩

/-- `create`. -/
def QdState.create (state : QdState Cb) : QdState Cb :=
  { state with mCreated := state.mCreated + 1 }

/-- `process`. -/
def QdState.process (state : QdState Cb) : QdState Cb :=
  { state with mProcessed := state.mProcessed + 1 }

/-- A processor has handled a message; `qd` are those that are still on their way. A processor that
has sent callbacks is busy with them. -/
def System.put (w : System Cb) (pe : Nat) (qd : List (Wire Cb)) (o : Outcome Cb) : System Cb :=
  { w with
    pes := update w.pes pe o.state
    busy := if o.called = [] then w.busy else update w.busy pe true
    qd := qd ++ o.sent
    called := w.called ++ o.called }

/-- What happens: the user's code sends a message, begins with one or ends, `CkStartQD` is called,
or a message of the detection is handled. -/
inductive Event (Cb : Type)
  | send (pe dest : Nat)
  | process (pe : Nat)
  | finish (pe : Nat)
  | startQD (cb : Cb)
  | handle (wire : Wire Cb)

/-- The steps of the system. -/
inductive Step (t : SpanTree) : System Cb → Event Cb → System Cb → Prop
  | send {w : System Cb} {pe dest : Nat} (hpe : pe < t.size) (hdest : dest < t.size)
      (hbusy : w.busy pe = true) :
      Step t w (.send pe dest) { w with
        pes := update w.pes pe (w.pes pe).create
        net := w.net ++ [dest] }
  | process {w : System Cb} {pe : Nat} (hpe : pe < t.size) (hidle : w.busy pe = false)
      (hmem : pe ∈ w.net) :
      Step t w (.process pe) { w with
        pes := update w.pes pe (w.pes pe).process
        busy := update w.busy pe true
        net := w.net.erase pe }
  | finish {w : System Cb} {pe : Nat} :
      Step t w (.finish pe) { w with busy := update w.busy pe false }
  | startQD {w : System Cb} {cb : Cb} :
      Step t w (.startQD cb) { w with qd := w.qd ++ [⟨0, .start, ⟨0, 0, 0, false, cb⟩⟩] }
  | handle {w : System Cb} {before after : List (Wire Cb)} {wire : Wire Cb} {o : Outcome Cb}
      (hqd : w.qd = before ++ wire :: after) (hidle : w.busy wire.dest = false)
      (h : callWhenIdle t wire.dest (w.pes wire.dest) wire.msg = some o) :
      Step t w (.handle wire) (w.put wire.dest (before ++ after) o)

/-- No message of the user is in flight or being processed. -/
def System.Silent (t : SpanTree) (w : System Cb) : Prop :=
  w.net = [] ∧ ∀ p < t.size, w.busy p = false

end CharmRuntime.Quiescence
