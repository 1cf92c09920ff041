import CharmRuntime.Location.Pairs

/-!
# Messages are neither lost nor duplicated

Every function of the location manager moves messages between the buffers of its processor, the
network and the entry methods, and keeps their number (`Conserves`). So in every run each message
that was sent is in exactly one place (`inOnePlace_of_run`): in flight, in one of the four buffers
of one processor, or delivered.
-/

set_option autoImplicit false

namespace CharmRuntime.Location

open Lib List

variable {Idx : Type} {cfg : Config Idx} {me uid : Nat} {s : LocMgr Idx} {o : Outcome Idx}

/-! ## Copies of a message -/

/-- The number of copies in a list. -/
def copiesIn (msgs : List (UserMsg Idx)) (uid : Nat) : Nat := msgs.countP fun m => m.uid = uid

/-- The number of copies in the four buffers of a processor. -/
def LocMgr.copies (s : LocMgr Idx) (uid : Nat) : Nat :=
  copiesIn s.bufferedMsgs uid + copiesIn s.bufferedRemoteMsgs uid +
    copiesIn s.bufferedIndexMsgs uid +
    copiesIn s.bufferedShadowElemMsgs uid

/-- The call delivers the message. -/
def Call.brings (uid : Nat) : Call Idx → Bool
  | .deliver msg => msg.uid = uid
  | _ => false

/-- The number of copies in flight. -/
def inFlight (wires : List (Wire Idx)) (uid : Nat) : Nat :=
  wires.countP fun wire => wire.call.brings uid

/-- A function takes in `k` copies, and after it all copies are in the buffers, in flight or
delivered. -/
def Conserves (s : LocMgr Idx) (uid k : Nat) (o : Outcome Idx) : Prop :=
  o.mgr.copies uid + inFlight o.sent uid + copiesIn o.invoked uid = s.copies uid + k

/-- One copy of the message itself. -/
def UserMsg.copy (msg : UserMsg Idx) (uid : Nat) : Nat := if msg.uid = uid then 1 else 0

@[simp] theorem copiesIn_nil : copiesIn ([] : List (UserMsg Idx)) uid = 0 := rfl

@[simp] theorem copiesIn_append (a b : List (UserMsg Idx)) :
    copiesIn (a ++ b) uid = copiesIn a uid + copiesIn b uid := countP_append

@[simp] theorem copiesIn_single (msg : UserMsg Idx) : copiesIn [msg] uid = msg.copy uid := by
  simp [copiesIn, UserMsg.copy, countP_singleton]

/-- The messages with one value of a field, and those with others. -/
theorem copiesIn_filter {β : Type} [DecidableEq β] (uid : Nat) (msgs : List (UserMsg Idx))
    (field : UserMsg Idx → β) (b : β) :
    copiesIn (msgs.filter fun m => field m = b) uid + copiesIn
    (msgs.filter fun m => field m ≠ b) uid =
      copiesIn msgs uid := by
  induction msgs with
  | nil => rfl
  | cons msg msgs ih =>
    simp only [copiesIn] at ih ⊢
    by_cases h : field msg = b
    · rw [filter_cons_of_pos (by simpa using h), filter_cons_of_neg (by simpa using h),
        countP_cons, countP_cons]
      omega
    · rw [filter_cons_of_neg (by simpa using h), filter_cons_of_pos (by simpa using h),
        countP_cons, countP_cons]
      omega

@[simp] theorem inFlight_nil : inFlight ([] : List (Wire Idx)) uid = 0 := rfl

@[simp] theorem inFlight_append (a b : List (Wire Idx)) :
    inFlight (a ++ b) uid = inFlight a uid + inFlight b uid := countP_append

@[simp] theorem inFlight_cons (wire : Wire Idx) (wires : List (Wire Idx)) :
    inFlight (wire :: wires) uid = (if wire.call.brings uid then 1 else 0) +
      inFlight wires uid := by
  rw [inFlight, countP_cons, add_comm]
  rfl

@[simp] theorem brings_deliver (msg : UserMsg Idx) :
    (if Call.brings uid (.deliver msg) then 1 else 0) = msg.copy uid := by
  simp [Call.brings, UserMsg.copy]

theorem inFlight_map {msgs : List (UserMsg Idx)} {f : UserMsg Idx → Wire Idx}
    (h : ∀ m, (f m).call.brings uid = decide (m.uid = uid)) :
    inFlight (msgs.map f) uid = copiesIn msgs uid := by
  rw [inFlight, countP_map, copiesIn]
  congr 1
  funext m
  exact h m

theorem brings_route (here : Bool) (nowOn : Place) (msg : UserMsg Idx) :
    (route me here nowOn msg).call.brings uid = decide (msg.uid = uid) := by
  cases here <;> rfl

theorem inFlight_route (msgs : List (UserMsg Idx)) (here : Bool) (nowOn : Place) :
    inFlight (msgs.map (route me here nowOn)) uid = copiesIn msgs uid :=
  inFlight_map (brings_route here nowOn)

/-- Calls that deliver no message. -/
theorem AllCalls.inFlight_eq {wires : List (Wire Idx)}
    (h : AllCalls (fun call => call.brings uid = false) wires) : inFlight wires uid = 0 := by
  rw [inFlight, countP_eq_zero]
  intro wire hwire
  rw [h wire hwire]
  exact Bool.false_ne_true

theorem inFlight_ite {c : Prop} [Decidable c] {wire : Wire Idx} (h : wire.call.brings uid = false) :
    inFlight (if c then [] else [wire]) uid = 0 :=
  AllCalls.inFlight_eq (.ite h)

/-! ## Functions -/

theorem Delivered.conserves {msg : UserMsg Idx} {idx : Option Idx}
    (h : Delivered cfg me s msg idx o) : Conserves s uid (msg.copy uid) o := by
  have hhops : ∀ hops, ({ msg with hops := hops } : UserMsg Idx).copy uid = msg.copy uid :=
    fun _ => rfl
  cases h with
  | sent => simp [Conserves, hhops]
  | invoked =>
    rw [Conserves, AllCalls.inFlight_eq (.multiHop rfl)]
    simp
  | shadow | atHome =>
    simp [Conserves, LocMgr.copies]
    omega
  | guessed => simp [Conserves, LocMgr.copies, Location.guessed, hhops]
  | asked =>
    rw [Conserves, inFlight_ite rfl]
    simp [LocMgr.copies, Location.guessed]
    omega

theorem addedHere_conserves (mgr id : Nat) : Conserves s uid 0 (addedHere me s mgr id) := by
  have hfilter := copiesIn_filter uid s.bufferedShadowElemMsgs UserMsg.elementId id
  have hsent : inFlight ((s.bufferedShadowElemMsgs.filter fun m => m.elementId = id).map fun m =>
      (⟨me, .deliver m⟩ : Wire Idx)) uid =
        copiesIn (s.bufferedShadowElemMsgs.filter fun m => m.elementId = id) uid :=
    inFlight_map fun m => rfl
  simp only [Conserves, addedHere, LocMgr.copies, setElement, hsent, copiesIn_nil]
  omega

variable {sent : List (UserMsg Idx)} {idx : Idx} {mgr id : Nat}

theorem reclaim_conserves (h : reclaim cfg me s mgr id = some o) : Conserves s uid 0 o := by
  obtain ⟨record, -, rfl | rfl⟩ := reclaim_cases h
  · rfl
  · split <;> rfl

variable [DecidableEq Idx]

/-- `inform` sends on what it takes from the buffers. -/
theorem informed_conserves (cfg : Config Idx) (me uid : Nat) (s : LocMgr Idx) (idx : Idx) (id : Nat)
    (nowOn : Place) :
    (informed cfg s idx id nowOn).copies uid + inFlight (informWires me s idx id nowOn) uid =
      s.copies uid := by
  have hmsgs := copiesIn_filter uid s.bufferedMsgs UserMsg.elementId id
  have hindex := copiesIn_filter uid s.bufferedIndexMsgs UserMsg.idx idx
  have hreplies : inFlight ((s.bufferedLocationRequests.filter fun r => r.1 = idx ∧ r.2 ≠ me).map
      fun r => (⟨r.2, .updateLocationIdx idx id nowOn⟩ : Wire Idx)) uid = 0 :=
    AllCalls.inFlight_eq (.map fun _ _ => rfl)
  have hroute : inFlight ((s.bufferedIndexMsgs.filter fun m => m.idx = idx).map fun m =>
      route me (s.hash id).isSome nowOn { m with elementId := id }) uid =
        copiesIn (s.bufferedIndexMsgs.filter fun m => m.idx = idx) uid :=
    inFlight_map fun m => brings_route ..
  simp only [informed, informWires, LocMgr.copies, inFlight_append, inFlight_route,
    hreplies, hroute]
  omega

theorem addedNew_conserves (mgr : Nat) (idx : Idx) (moves : Nat) :
    Conserves s uid 0 (addedNew cfg me s mgr idx id moves) := by
  have h := informed_conserves cfg me uid (withRec s id idx moves) idx id ⟨me, moves⟩
  rw [Conserves, addedNew, inFlight_append, AllCalls.inFlight_eq (.home rfl)]
  exact h

theorem emigrate_conserves {toPe : Nat} (h : emigrate cfg me s id toPe = some o) :
    Conserves s uid 0 o := by
  obtain ⟨record, -, ⟨-, rfl⟩ | ⟨-, rfl⟩⟩ := emigrate_cases h
  · rfl
  · have h : _ = s.copies uid :=
      informed_conserves cfg me uid (removeRec s id) record.idx id ⟨toPe, record.moves + 1⟩
    rw [Conserves, inFlight_cons, inFlight_append, AllCalls.inFlight_eq (.home rfl)]
    simpa [Call.brings] using h

theorem insertElement_conserves (h : insertElement cfg me s mgr idx = some o) :
    Conserves s uid 0 o := by
  cases inserted h with
  | passed => rfl
  | @added s' _ _ hid _ hadd =>
    have hs : s'.copies uid = s.copies uid := by
      rcases hid with ⟨-, rfl⟩ | ⟨-, -, rfl⟩
      · rfl
      · rw [insertID_eq]
        rfl
    rw [Conserves, ← hs]
    cases hadd with
    | here => exact addedHere_conserves mgr _
    | new => exact addedNew_conserves mgr idx _

theorem sendMsg_conserves (msg : UserMsg Idx) (type : DeliverType) :
    Conserves s uid (msg.copy uid) (sendMsg cfg me s msg type) := by
  rw [sendMsg]
  split
  · exact (deliverMsg_delivered ..).conserves
  · have hcopy : ({ msg with elementId := 0 } : UserMsg Idx).copy uid = msg.copy uid := rfl
    dsimp only
    split
    · rw [Conserves, inFlight_ite rfl]
      simp [LocMgr.copies, hcopy]
      omega
    · simp [Conserves, LocMgr.copies, hcopy]
      omega

/-- Receiving a call takes in the message that it delivers. -/
theorem receive_conserves {P : Idx → Nat → Prop} (hP : PairRule cfg P) {call : Call Idx}
    (hcall : call.In P) (h : receive cfg me s call = some o) :
    Conserves s uid (if call.brings uid then 1 else 0) o := by
  cases received h with
  | deliver h =>
    rw [brings_deliver]
    exact h.conserves
  | @learnIdx idx id nowOn =>
    have hinform := informed_conserves cfg me uid s idx id nowOn
    have hremote := copiesIn_filter uid s.bufferedRemoteMsgs UserMsg.elementId id
    show Conserves s uid 0 _
    simp only [Conserves, learnedIdx, LocMgr.copies, inFlight_append, inFlight_route, copiesIn_nil]
    simp only [LocMgr.copies, informed] at hinform ⊢
    omega
  | @learn id nowOn =>
    have hmsgs := copiesIn_filter uid s.bufferedMsgs UserMsg.elementId id
    have hremote := copiesIn_filter uid s.bufferedRemoteMsgs UserMsg.elementId id
    show Conserves s uid 0 _
    simp only [Conserves, learned, LocMgr.copies, inFlight_append, inFlight_route, copiesIn_nil]
    omega
  | @immigrate idx id elements moves o h =>
    rw [immigrate_eq _ (hP.identifier _ _ hcall)] at h
    cases h
    exact informed_conserves cfg me uid (withRec s id idx moves) idx id ⟨me, moves⟩
  | insertElement h => exact insertElement_conserves h
  | ownIdx | answerIdx | waitIdx | own | answer | forget => rfl

/-! ## Runs -/

/-- The identifier may be paired with the index: a compressor leaves one choice. -/
def Identifies (cfg : Config Idx) (idx : Idx) (id : Nat) : Prop := cfg.identifier idx id = id

omit [DecidableEq Idx] in
theorem identifies_pairRule (cfg : Config Idx) : PairRule cfg (Identifies cfg) := by
  refine ⟨fun idx id h => h, fun code hc idx => ?_⟩
  rw [Identifies, Config.identifier, hc]

/-- The pairs in the tables and calls are possible ones. -/
structure PairsOk (cfg : Config Idx) (w : System Idx) : Prop where
  tables : ∀ p, TablesIn (Identifies cfg) (w.pes p)
  wires : AllCalls (Call.In (Identifies cfg)) w.net

omit [DecidableEq Idx] in
theorem pairsOk_initial : PairsOk cfg (initialSystem : System Idx) where
  tables := tablesIn_initial
  wires := .nil

/-- No copy of the message is anywhere. -/
def System.Nowhere (w : System Idx) (uid : Nat) : Prop :=
  inFlight w.net uid = 0 ∧ copiesIn w.invoked uid = 0 ∧ ∀ p, (w.pes p).copies uid = 0

/-- The message is in exactly one place: in flight, delivered, or in one of the buffers of one
processor. -/
def System.InOnePlace (w : System Idx) (uid : Nat) : Prop :=
  (inFlight w.net uid = 1 ∧ copiesIn w.invoked uid = 0 ∧ ∀ p, (w.pes p).copies uid = 0) ∨
    (inFlight w.net uid = 0 ∧ copiesIn w.invoked uid = 1 ∧ ∀ p, (w.pes p).copies uid = 0) ∨
    inFlight w.net uid = 0 ∧ copiesIn w.invoked uid = 0 ∧
      ∃ p, (w.pes p).copies uid = 1 ∧ ∀ q, q ≠ p → (w.pes q).copies uid = 0

/-- The invariant: what was sent is in one place, and there is nothing else. -/
structure Accounted (cfg : Config Idx) (w : System Idx) : Prop extends PairsOk cfg w where
  once : ∀ uid, uid < w.sent.length → w.InOnePlace uid
  nothing : ∀ uid, w.sent.length ≤ uid → w.Nowhere uid

variable {w w' : System Idx} {p k : Nat} {net : List (Wire Idx)} {e : Event Idx}

section Places

omit [DecidableEq Idx]

/-- The copies in flight, delivered, and in the buffers of one processor. -/
def System.around (w : System Idx) (p uid : Nat) : Nat :=
  inFlight w.net uid + copiesIn w.invoked uid + (w.pes p).copies uid

/-- The one place, as a function that runs on processor `p` sees it. -/
theorem inOnePlace_iff (p : Nat) : w.InOnePlace uid ↔
    (w.around p uid = 1 ∧ ∀ q, q ≠ p → (w.pes q).copies uid = 0) ∨ w.around p uid = 0 ∧
        ∃ q, q ≠ p ∧ (w.pes q).copies uid = 1 ∧ ∀ r, r ≠ q → r ≠ p → (w.pes r).copies uid = 0 := by
  constructor
  · rintro (⟨h1, h2, h3⟩ | ⟨h1, h2, h3⟩ | ⟨h1, h2, q, hq, hothers⟩)
    · exact .inl ⟨by rw [System.around, h1, h2, h3], fun q _ => h3 q⟩
    · exact .inl ⟨by rw [System.around, h1, h2, h3], fun q _ => h3 q⟩
    · by_cases hqp : q = p
      · subst hqp
        exact .inl ⟨by rw [System.around, h1, h2, hq], hothers⟩
      · exact .inr ⟨by rw [System.around, h1, h2, hothers p (Ne.symm hqp)], q, hqp, hq,
          fun r hr _ => hothers r hr⟩
  · rw [System.around]
    rintro (⟨hsum, hothers⟩ | ⟨hsum, q, hqp, hq, hothers⟩)
    · by_cases hp : (w.pes p).copies uid = 0
      · have hall : ∀ q, (w.pes q).copies uid = 0 := by
          intro q
          by_cases hq : q = p
          · rw [hq, hp]
          · exact hothers q hq
        by_cases hfly : inFlight w.net uid = 1
        · exact .inl ⟨hfly, by omega, hall⟩
        · exact .inr (.inl ⟨by omega, by omega, hall⟩)
      · exact .inr (.inr ⟨by omega, by omega, p, by omega, hothers⟩)
    · refine .inr (.inr ⟨by omega, by omega, q, hq, fun r hr => ?_⟩)
      by_cases hrp : r = p
      · rw [hrp]
        omega
      · exact hothers r hr hrp

theorem nowhere_iff (p : Nat) : w.Nowhere uid ↔ w.around p uid = 0 ∧ ∀ q, q ≠ p →
    (w.pes q).copies uid = 0 := by
  rw [System.around]
  refine ⟨fun ⟨h1, h2, h3⟩ => ⟨by rw [h1, h2, h3], fun q _ => h3 q⟩, fun ⟨hsum, hothers⟩ => ?_⟩
  refine ⟨by omega, by omega, fun q => ?_⟩
  by_cases hq : q = p
  · rw [hq]
    omega
  · exact hothers q hq

/-- The call that is received takes `j` copies from the network, and the function takes in `k`. -/
theorem around_put {j : Nat} (hnet : inFlight w.net uid = inFlight net uid + j)
    (ho : Conserves (w.pes p) uid k o) : (w.put p net o).around p uid + j = w.around p uid + k ∧
      ∀ q, q ≠ p → ((w.put p net o).pes q).copies uid = (w.pes q).copies uid := by
  refine ⟨?_, fun q hq => by rw [put_pes_of_ne hq]⟩
  rw [Conserves] at ho
  rw [System.around, put_pes_self, System.put, inFlight_append, copiesIn_append, System.around]
  omega

/-- A processor that runs a function moves its copies, and those of the call that it received. -/
theorem InOnePlace.put (h : w.InOnePlace uid) (hnet : inFlight w.net uid = inFlight net uid + k)
    (ho : Conserves (w.pes p) uid k o) : (w.put p net o).InOnePlace uid := by
  obtain ⟨hsum, hother⟩ := around_put hnet ho
  rw [inOnePlace_iff p] at h ⊢
  rcases h with ⟨h, hothers⟩ | ⟨h, q, hqp, hq, hothers⟩
  · exact .inl ⟨by omega, fun q hqp => (hother q hqp).trans (hothers q hqp)⟩
  · exact .inr ⟨by omega, q, hqp, (hother q hqp).trans hq,
      fun r hr hrp => (hother r hrp).trans (hothers r hr hrp)⟩

theorem Nowhere.put (h : w.Nowhere uid) (hnet : inFlight w.net uid = inFlight net uid + k)
    (ho : Conserves (w.pes p) uid k o) : (w.put p net o).Nowhere uid := by
  obtain ⟨hsum, hother⟩ := around_put hnet ho
  rw [nowhere_iff p] at h ⊢
  exact ⟨by omega, fun q hqp => (hother q hqp).trans (h.2 q hqp)⟩

/-- A message that is sent is then in one place. -/
theorem InOnePlace.start (h : w.Nowhere uid) (ho : Conserves (w.pes p) uid 1 o) :
    (w.put p w.net o).InOnePlace uid := by
  obtain ⟨hsum, hother⟩ := around_put (j := 0) rfl ho
  rw [nowhere_iff p] at h
  rw [inOnePlace_iff p]
  exact .inl ⟨by omega, fun q hqp => (hother q hqp).trans (h.2 q hqp)⟩

end Places

omit [DecidableEq Idx] in
theorem PairsOk.put (h : PairsOk cfg w) (hnet : net ⊆ w.net)
    (htables : TablesIn (Identifies cfg) o.mgr)
    (hwires : AllCalls (Call.In (Identifies cfg)) o.sent) :
    PairsOk cfg { w.put p net o with sent := sent } := by
  refine ⟨fun q => ?_, (h.wires.subset hnet).append hwires⟩
  by_cases hq : q = p
  · rw [hq, put_pes_self]
    exact htables
  · rw [put_pes_of_ne hq]
    exact h.tables q

theorem insertElement_pairs (hs : TablesIn (Identifies cfg) s)
    (ho : insertElement cfg me s mgr idx = some o) :
    TablesIn (Identifies cfg) o.mgr ∧ AllCalls (Call.In (Identifies cfg)) o.sent := by
  have hP := identifies_pairRule cfg
  cases inserted ho with
  | passed => exact ⟨hs, .single trivial⟩
  | @added s' id _ hid _ hadd =>
    obtain ⟨hs', hpair⟩ : TablesIn (Identifies cfg) s' ∧ Identifies cfg idx id := by
      rcases hid with ⟨hlook, rfl⟩ | ⟨hlook, -, rfl⟩
      · exact ⟨hs, hP.lookupID hs hlook⟩
      · have hpair : Identifies cfg idx id := by
          rw [Identifies, Config.identifier, compressor_of_lookupID hlook]
        have hbase : TablesIn (Identifies cfg) (withID me s idx) := { hs with }
        exact ⟨hbase.insertID hpair, hpair⟩
    have h : KeepsTo (Identifies cfg) s' o := by
      cases hadd with
      | here => exact addedHere_keepsTo hs' mgr id
      | new => exact addedNew_keepsTo hs' hP hpair mgr _
    exact ⟨h.tables, h.wires⟩

theorem PairsOk.step (h : PairsOk cfg w) (hstep : Step cfg w e w') : PairsOk cfg w' := by
  cases he : e.inserts with
  | some q =>
    obtain ⟨mgr, net, o, ho, hnet, rfl⟩ := hstep.inserts he
    obtain ⟨htables, hwires⟩ := insertElement_pairs (h.tables _) ho
    exact h.put hnet htables hwires
  | none =>
    obtain ⟨p, net, o, sent, hkeeps, hnet, rfl⟩ :=
      hstep.keepsTo (identifies_pairRule cfg) h.tables h.wires he
    exact h.put hnet hkeeps.tables hkeeps.wires

/-- A step is a function on one processor that keeps all messages; it may take one from the program
or from a call. -/
theorem step_conserves (h : PairsOk cfg w) (hstep : Step cfg w e w') :
    ∃ p net o sent, w' = { w.put p net o with sent := sent } ∧
      ((sent = w.sent ∧ ∀ uid, ∃ k, inFlight w.net uid = inFlight net uid + k ∧
          Conserves (w.pes p) uid k o) ∨ net = w.net ∧ sent.length = w.sent.length + 1 ∧
          ∀ uid, Conserves (w.pes p) uid (if w.sent.length = uid then 1 else 0) o) := by
  cases hstep with
  | send hpe hmgr =>
    refine ⟨_, w.net, _, _, rfl, .inr ⟨rfl, ?_, fun uid => sendMsg_conserves ..⟩⟩
    rw [length_append, length_singleton]
  | insert hpe hmgr ho =>
    exact ⟨_, w.net, _, w.sent, rfl, .inl ⟨rfl, fun uid => ⟨0, rfl, insertElement_conserves ho⟩⟩⟩
  | emigrate hpe hto ho =>
    exact ⟨_, w.net, _, w.sent, rfl, .inl ⟨rfl, fun uid => ⟨0, rfl, emigrate_conserves ho⟩⟩⟩
  | destroy hpe hmgr ho =>
    exact ⟨_, w.net, _, w.sent, rfl, .inl ⟨rfl, fun uid => ⟨0, rfl, reclaim_conserves ho⟩⟩⟩
  | @receive before after wire o hnet ho =>
    have hcall : wire.call.In (Identifies cfg) := h.wires wire (hnet ▸ mem_append_cons_self)
    refine ⟨wire.dest, before ++ after, o, w.sent, rfl,
      .inl ⟨rfl, fun uid => ⟨_, ?_, receive_conserves (identifies_pairRule cfg) hcall ho⟩⟩⟩
    rw [hnet, inFlight_append, inFlight_cons, inFlight_append]
    omega

theorem Accounted.step (h : Accounted cfg w) (hstep : Step cfg w e w') : Accounted cfg w' := by
  have hpairs := h.toPairsOk.step hstep
  obtain ⟨p, net, o, sent, rfl, ⟨rfl, hmoved⟩ | ⟨rfl, hlen, hsent⟩⟩ :=
    step_conserves h.toPairsOk hstep
  · refine { hpairs with once := fun uid huid => ?_, nothing := fun uid huid => ?_ }
    · obtain ⟨k, hnet, ho⟩ := hmoved uid
      exact InOnePlace.put (h.once uid huid) hnet ho
    · obtain ⟨k, hnet, ho⟩ := hmoved uid
      exact Nowhere.put (h.nothing uid huid) hnet ho
  · refine { hpairs with once := fun uid huid => ?_, nothing := fun uid huid => ?_ }
    · have ho := hsent uid
      dsimp only at huid
      by_cases hnew : w.sent.length = uid
      · rw [if_pos hnew] at ho
        exact InOnePlace.start (h.nothing uid (by omega)) ho
      · rw [if_neg hnew] at ho
        exact InOnePlace.put (h.once uid (by omega)) rfl ho
    · have ho := hsent uid
      dsimp only at huid
      rw [if_neg (by omega)] at ho
      exact Nowhere.put (h.nothing uid (by omega)) rfl ho

/-- In every run each message that was sent is in exactly one place. -/
theorem inOnePlace_of_run {es : List (Event Idx)} (hrun : Run (Step cfg) initialSystem es w)
    (huid : uid < w.sent.length) : w.InOnePlace uid := by
  have h : Accounted cfg w := by
    refine hrun.invariant ?_ fun _ _ _ h hstep => h.step hstep
    exact { pairsOk_initial with
      once := fun uid huid => absurd huid (Nat.not_lt_zero uid)
      nothing := fun uid _ => ⟨rfl, rfl, fun _ => rfl⟩ }
  exact h.once uid huid

end CharmRuntime.Location
