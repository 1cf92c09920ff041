import CharmRuntime.Location.Identifiers
import CharmRuntime.Location.Questions

/-!
# One element

The functions of the location manager seen from one element, with the index `x` and the identifier
`i`. A function that neither creates, moves nor destroys the element leaves its record alone, and
changes what a processor knows of its place only to something that it was told, or to the guess that
the element is at home (`Mild`). A step of the system is such a function unless it is about the
element itself (`step_mild`).
-/

set_option autoImplicit false

namespace CharmRuntime.Location

open Lib Function List Option

variable {Idx : Type} {cfg : Config Idx}

/-! ## What a function does

The places that the element may be said to be at satisfy `A`; `H` says that its home knows a place.
-/

/-- What a call says about the element. A migrating element is left to a field of its own. -/
def Call.Sound (cfg : Config Idx) (i : Nat) (A : Place → Prop) (H : Prop) : Call Idx → Prop
  | .deliver _ => True
  | .updateLocationIdx _ id nowOn => id = i → A nowOn
  | .updateLocation id nowOn => id = i → A nowOn
  | .requestLocationIdx _ _ => cfg.compressor = none
  | .requestLocation id _ => id = i → H
  | .immigrate _ id _ _ => id ≠ i
  | .insertElement _ _ => True
  | .reclaimRemote _ => True

/-- What processor `p` knows about the element. -/
structure Grounded (cfg : Config Idx) (x : Idx) (i p : Nat) (A : Place → Prop) (s : LocMgr Idx) :
    Prop where
  record : ∀ record, s.hash i = some record → A ⟨p, record.moves⟩
  entry : ∀ place, s.id2pe i = some place → A place
  lookup : ∀ idx, lookupID cfg s idx = some i → idx = x
  known : cfg.compressor = none → s.idx2id x = some i → s.id2pe i ≠ none

/-- A function that neither creates nor moves the element: the entry may change to a place that is
not older. -/
structure Mild (cfg : Config Idx) (x : Idx) (i : Nat) (A : Place → Prop) (H : Prop) (s : LocMgr Idx)
    (o : Outcome Idx) : Prop where
  hash : o.mgr.hash i = s.hash i
  entry : o.mgr.id2pe i = s.id2pe i ∨ ∃ place, o.mgr.id2pe i = some place ∧ A place ∧
    ∀ old, s.id2pe i = some old → old.moves ≤ place.moves
  idx2id : o.mgr.idx2id x = some i → s.idx2id x = some i ∨ o.mgr.id2pe i ≠ none
  named : s.idx2id x ≠ none → o.mgr.idx2id x ≠ none
  issued : ∀ id, (id, x) ∈ o.mgr.issued ↔ (id, x) ∈ s.issued
  wires : AllCalls (Call.Sound cfg i A H) o.sent

variable {wires : List (Wire Idx)} {type : DeliverType} {id p mgr : Nat}

section Mild

variable {x : Idx} {i p : Nat} {A : Place → Prop} {H : Prop} {s m : LocMgr Idx}

theorem Mild.keep {invoked : List (UserMsg Idx)} (hhash : m.hash = s.hash)
    (hidx : m.idx2id = s.idx2id) (hiss : m.issued = s.issued)
    (hentry : m.id2pe i = s.id2pe i ∨ ∃ place, m.id2pe i = some place ∧ A place ∧
      ∀ old, s.id2pe i = some old → old.moves ≤ place.moves)
    (hwires : AllCalls (Call.Sound cfg i A H) wires) : Mild cfg x i A H s ⟨m, wires, invoked⟩ where
  hash := congrFun hhash i
  entry := hentry
  idx2id h := .inl (congrFun hidx x ▸ h)
  named h := congrFun hidx x ▸ h
  issued _ := by rw [hiss]
  wires := hwires

variable {id : Nat} {nowOn : Place}

/-- Writing a place for some identifier: if it is the one of the element, the place is not older. -/
theorem entry_of_update {f : Nat → Option Place} (hA : id = i → A nowOn)
    (hnewer : id = i → ∀ old, f i = some old → old.moves ≤ nowOn.moves) :
    update f id (some nowOn) i = f i ∨ ∃ place, update f id (some nowOn) i = some place ∧ A place ∧
        ∀ old, f i = some old → old.moves ≤ place.moves := by
  by_cases hid : id = i
  · exact .inr ⟨nowOn, by rw [hid, update_self], hA hid, hnewer hid⟩
  · exact .inl (update_of_ne (Ne.symm hid) ..)

variable {o : Outcome Idx} {msg : UserMsg Idx}

theorem Delivered.mild {idx : Option Idx} (h : Delivered cfg p s msg idx o)
    (g : Grounded cfg x i p A s)
    (hguess : msg.elementId = i → s.hash i = none → s.id2pe i = none → unknownHome cfg msg idx ≠ p →
      A ⟨unknownHome cfg msg idx, 0⟩ ∧ H) : Mild cfg x i A H s o := by
  have hfree : ∀ id, s.id2pe id = none → id = i → ∀ old, s.id2pe i = some old → old.moves ≤ 0 := by
    rintro id hnone rfl old hold
    rw [hold] at hnone
    cases hnone
  cases h with
  | sent => exact .keep rfl rfl rfl (.inl rfl) (.single trivial)
  | invoked hrec =>
    exact .keep rfl rfl rfl (.inl rfl) (.multiHop fun hid => g.record _ (hid ▸ hrec))
  | shadow | atHome => exact .keep rfl rfl rfl (.inl rfl) .nil
  | guessed hhash hnone hhome =>
    have hA := fun hid => (hguess hid (hid ▸ hhash) (hid ▸ hnone) hhome).1
    exact .keep rfl rfl rfl (entry_of_update hA (hfree _ hnone)) (.single trivial)
  | asked hhash hnone hhome =>
    have hA := fun hid => hguess hid (hid ▸ hhash) (hid ▸ hnone) hhome
    exact .keep rfl rfl rfl (entry_of_update (fun hid => (hA hid).1) (hfree _ hnone))
      (.ite fun hid => (hA hid).2)

theorem addedHere_mild (mgr id : Nat) : Mild cfg x i A H s (addedHere p s mgr id) :=
  .keep rfl rfl rfl (.inl rfl) (.map fun _ _ => trivial)

theorem reclaim_mild (hid : id ≠ i) (h : reclaim cfg p s mgr id = some o) :
    Mild cfg x i A H s o := by
  obtain ⟨record, -, rfl | rfl⟩ := reclaim_cases h
  · exact .keep rfl rfl rfl (.inl rfl) .nil
  · refine ⟨update_of_ne (Ne.symm hid) .., .inl rfl, .inl, fun h => h, fun _ => Iff.rfl, ?_⟩
    split
    · exact .single trivial
    · exact .nil

variable [DecidableEq Idx]

theorem sendMsg_mild (g : Grounded cfg x i p A s)
    (hguess : msg.idx = x → lookupID cfg s x = some i → s.hash i = none → s.id2pe i = none →
      cfg.home x ≠ p → A ⟨cfg.home x, 0⟩ ∧ H) : Mild cfg x i A H s (sendMsg cfg p s msg type) := by
  rw [sendMsg]
  split
  · next id hid =>
    refine (deliverMsg_delivered ..).mild g fun hi hhash hplace hhome => ?_
    dsimp only at hi
    rw [hi] at hid
    have hx : msg.idx = x := g.lookup msg.idx hid
    rw [hx] at hhome ⊢
    exact hguess hx (by rw [← hx, hid]) hhash hplace hhome
  · next hnone =>
    have hc : cfg.compressor = none := compressor_of_lookupID hnone
    dsimp only
    split
    · exact .keep rfl rfl rfl (.inl rfl) (.ite hc)
    · exact .keep rfl rfl rfl (.inl rfl) .nil

variable {idx : Idx}

theorem insertID_idx2id_of_ne (hidx : idx ≠ x) (id : Nat) :
    (insertID cfg s idx id).idx2id x = s.idx2id x := by
  rw [insertID]
  cases cfg.compressor with
  | some code => rfl
  | none => exact update_of_ne (Ne.symm hidx) ..

theorem insertID_named (h : s.idx2id x ≠ none) : (insertID cfg s idx id).idx2id x ≠ none := by
  rw [insertID]
  cases cfg.compressor with
  | some code => exact h
  | none => exact update_ne_none h

/-- An index that has the identifier after another one was inserted had it before. -/
theorem idx2id_of_insertID (hid : id ≠ i)
    (h : (insertID cfg s idx id).idx2id x = some i) : s.idx2id x = some i := by
  rw [insertID] at h
  cases hc : cfg.compressor with
  | some code =>
    rw [hc] at h
    exact h
  | none =>
    rw [hc] at h
    rcases update_some_cases h with ⟨-, heq⟩ | ⟨-, h⟩
    · exact absurd heq.symm hid
    · exact h

theorem informWires_sound (hA : id = i → A nowOn) :
    AllCalls (Call.Sound cfg i A H) (informWires p s idx id nowOn) :=
  .inform (fun _ => trivial) hA

omit [DecidableEq Idx] in
theorem homeWires_sound (hident : cfg.identifier idx id = id)
    (hA : id = i → A nowOn) : AllCalls (Call.Sound cfg i A H) (homeWires cfg p idx id nowOn) :=
  .home (by rwa [hident])

/-- `inform` by a function that does not touch the record of the element. -/
theorem informed_mild (b : LocMgr Idx) (nowOn : Place) (hA : id = i → A nowOn)
    (hnewer : id = i → ∀ old, s.id2pe i = some old → old.moves ≤ nowOn.moves)
    (hb : b.idx2id = s.idx2id) (hhash : o.mgr.hash i = s.hash i)
    (hidx : o.mgr.idx2id = (insertID cfg b idx id).idx2id)
    (hentry : o.mgr.id2pe = update s.id2pe id (some nowOn)) (hiss : o.mgr.issued = s.issued)
    (hwires : AllCalls (Call.Sound cfg i A H) o.sent) : Mild cfg x i A H s o where
  hash := hhash
  entry := by
    rw [hentry]
    exact entry_of_update hA hnewer
  idx2id h := by
    by_cases hid : id = i
    · refine .inr ?_
      rw [hentry, hid, update_self]
      exact some_ne_none _
    · refine .inl ?_
      rw [hidx] at h
      exact hb ▸ idx2id_of_insertID hid h
  named h := by
    rw [hidx]
    exact insertID_named (hb ▸ h)
  issued _ := by rw [hiss]
  wires := hwires

/-- Functions on other elements. -/
theorem emigrate_mild {toPe : Nat} {record : LocRec Idx} (hrec : s.hash id = some record)
    (hident : cfg.identifier record.idx id = id) (hother : id ≠ i ∨ toPe = p)
    (h : emigrate cfg p s id toPe = some o) : Mild cfg x i A H s o := by
  obtain ⟨record', hrecord', ⟨-, rfl⟩ | ⟨hto, rfl⟩⟩ := emigrate_cases h
  · exact .keep rfl rfl rfl (.inl rfl) .nil
  · rw [hrec] at hrecord'
    cases hrecord'
    have hid : id ≠ i := hother.resolve_right hto
    refine informed_mild (s := s) (removeRec s id) ⟨toPe, record.moves + 1⟩ hid.elim hid.elim rfl
      (update_of_ne (Ne.symm hid) ..) rfl rfl rfl ?_
    exact .cons hid (.append (informWires_sound hid.elim)
      (homeWires_sound hident hid.elim))

theorem addedNew_mild (hident : cfg.identifier idx id = id) (hid : id ≠ i)
    (mgr moves : Nat) : Mild cfg x i A H s (addedNew cfg p s mgr idx id moves) :=
  informed_mild (s := s) (withRec s id idx moves) ⟨p, moves⟩ hid.elim hid.elim rfl
    (update_of_ne (Ne.symm hid) ..) rfl rfl rfl
    (.append (informWires_sound hid.elim) (homeWires_sound hident hid.elim))

end Mild

/-! ## What a step does -/

variable {x : Idx} {i : Nat} {A : Place → Prop} {H : Prop} {L : IdLayout} {call : Call Idx}
  {w : System Idx}
  {e : Event Idx}

/-- The call is the migration of the element. -/
def Call.carries (i : Nat) : Call Idx → Bool
  | .immigrate _ id _ _ => id = i
  | _ => false

theorem carries_immigrate (idx : Idx) (elements : List Nat) (moves : Nat) :
    Call.carries i (.immigrate idx i elements moves) = true := decide_eq_true rfl

/-- The migrations of the element that are under way. -/
def System.flights (w : System Idx) (i : Nat) : List (Wire Idx) :=
  w.net.filter fun wire => wire.call.carries i

theorem Call.Sound.not_carries (h : call.Sound cfg i A H) : call.carries i = false := by
  cases call with
  | immigrate _ id _ _ => exact decide_eq_false h
  | _ => rfl

theorem AllCalls.filter_carries (h : AllCalls (Call.Sound cfg i A H) wires) :
    wires.filter (fun wire => wire.call.carries i) = [] := by
  rw [filter_eq_nil_iff]
  intro wire hwire
  rw [(h wire hwire).not_carries]
  exact Bool.false_ne_true

/-- The processor on which an event has a message for the index to deliver. -/
def Event.delivers (x : Idx) (e : Event Idx) (p : Nat) : Prop :=
  (∃ mgr totalsize type, e = .send p mgr x totalsize type) ∨
    ∃ msg, msg.idx = x ∧ e = .receive ⟨p, .deliver msg⟩

/-- The event makes a new record for the index. -/
def Founds (cfg : Config Idx) (w : System Idx) (e : Event Idx) (x : Idx) : Prop :=
  ∃ p, e.inserts = some (p, x) ∧ NotRemote cfg p (w.pes p) x ∧
    ∀ id, lookupID cfg (w.pes p) x = some id → (w.pes p).hash id = none

theorem founds_of_issues (h : IssuesFor cfg w e x) : Founds cfg w e x := by
  obtain ⟨p, he, hlook⟩ := h
  refine ⟨p, he, fun place hplace => ?_, fun id hid => ?_⟩
  · rw [hlook] at hplace
    cases hplace
  · rw [hlook] at hid
    cases hid

variable (cfg x i A H w e) in
/-- The conditions under which an event is not about the element itself, and tells nothing wrong. -/
structure Aside : Prop where
  grounded : ∀ p, Grounded cfg x i p A (w.pes p)
  pair : ∀ idx, Pair cfg w idx i → idx = x
  home : ∀ code, cfg.compressor = some code → homePeId cfg i = cfg.home x
  guess : ∀ p, e.delivers x p → (w.pes p).hash i = none → (w.pes p).id2pe i = none →
    homePeId cfg i ≠ p → H
  atHome : H → A ⟨homePeId cfg i, 0⟩
  call : ∀ wire, e = .receive wire → wire.call.Sound cfg i A H
  reclaim : ∀ p idx, e = .receive ⟨p, .reclaimRemote idx⟩ → idx ≠ x
  newer : ∀ p nowOn old, (e = .receive ⟨p, .updateLocationIdx x i nowOn⟩ ∨
    e = .receive ⟨p, .updateLocation i nowOn⟩) → (w.pes p).id2pe i = some old →
      old.moves ≤ nowOn.moves
  insert : ¬ Founds cfg w e x
  emigrate : ∀ p id toPe, e = .emigrate p id toPe → id ≠ i ∨ toPe = p
  destroy : ∀ p mgr id, e = .destroy p mgr id → id ≠ i

variable {idx : Idx}

/-- The next identifier has no record. -/
theorem IdsOk.newID_absent (h : IdsOk L cfg w)
    (hroom : RoomForID L cfg w e) (he : e.inserts = some (p, idx))
    (hlook : lookupID cfg (w.pes p) idx = none) (q : Nat) :
    (w.pes q).hash (newID p (w.pes p)) = none := by
  obtain ⟨hcnt, hbits⟩ := hroom p idx he hlook
  by_contra hne
  obtain ⟨record, hrec⟩ := ne_none_iff_exists'.1 hne
  have hpair := (h.tables q).hash _ record hrec
  rw [Pair, compressor_of_lookupID hlook] at hpair
  exact h.newID_fresh hcnt hbits _ hpair

variable [DecidableEq Idx] {w w' : System Idx} {e : Event Idx} {o : Outcome Idx} {R : Idx → Prop}

/-- A call that is received, and the questions that are asked and answered. -/
theorem IdsOk.receive_asks {before after : List (Wire Idx)} (h : IdsOk L cfg w)
    (hroom : RoomForID L cfg w (.receive ⟨p, call⟩)) (hinq : Inquired cfg R w)
    (hnet : w.net = before ++ ⟨p, call⟩ :: after) (ho : receive cfg p (w.pes p) call = some o) :
    Asks cfg R p (w.pes p) o ∧ Exchange cfg w (w.put p (before ++ after) o) p o := by
  have hmem : ⟨p, call⟩ ∈ w.net := hnet ▸ mem_append_cons_self
  obtain ⟨hasks, hans⟩ :=
    Location.receive_asks (pairRule cfg w) (h.wires _ hmem) (hinq.addressed _ hmem)
    (by rintro mgr idx rfl hlook; exact h.newID_absent hroom rfl hlook p) ho
  exact ⟨hasks, .of_receive hnet hans⟩

/-- Every step keeps what waits asked for. -/
theorem inquired_of_step (h : IdsOk L cfg w) (hroom : RoomForID L cfg w e) (hinq : Inquired cfg R w)
    (hR : ∀ p mgr id record, e = .destroy p mgr id → (w.pes p).hash id = some record → R record.idx)
    (hstep : Step cfg w e w') : Inquired cfg R w' := by
  cases hstep with
  | send hpe hmgr => exact hinq.step (.of_put rfl) (sendMsg_asks ..)
  | insert hpe hmgr ho =>
    refine hinq.step (.of_put rfl) (insertElement_asks (fun hlook => ?_) ho)
    exact h.newID_absent hroom rfl hlook _
  | emigrate hpe hto ho => exact hinq.step (.of_put rfl) (emigrate_asks ho)
  | destroy hpe hmgr ho =>
    exact hinq.step (.of_put rfl) (reclaim_asks (fun record hrec => hR _ _ _ record rfl hrec) ho)
  | receive hnet ho =>
    obtain ⟨hasks, hex⟩ := h.receive_asks hroom hinq hnet ho
    exact hinq.step hex hasks

/-- A function that first gives out an identifier for another index. -/
theorem Mild.rebase {s : LocMgr Idx} (hidx : idx ≠ x)
    (h : Mild cfg x i A H (insertID cfg (withID p s idx) idx id) o) : Mild cfg x i A H s o := by
  have hs : insertID cfg (withID p s idx) idx id = { withID p s idx with
      idx2id := (insertID cfg (withID p s idx) idx id).idx2id } := insertID_eq ..
  have hhash : (insertID cfg (withID p s idx) idx id).hash = s.hash := by rw [hs]; rfl
  have hentry : (insertID cfg (withID p s idx) idx id).id2pe = s.id2pe := by rw [hs]; rfl
  refine ⟨h.hash.trans (congrFun hhash i), hentry ▸ h.entry, fun hidx' => ?_, fun hidx' => ?_,
    fun id' => ?_, h.wires⟩
  · refine (h.idx2id hidx').imp_left fun hsame => ?_
    rwa [insertID_idx2id_of_ne hidx] at hsame
  · exact h.named (insertID_named hidx')
  · rw [h.issued, insertID_issued, withID, mem_append, mem_singleton, Prod.mk.injEq]
    exact ⟨fun h => h.resolve_right fun h => hidx h.2.symm, .inl⟩

theorem insertElement_mild (h : IdsOk L cfg w) (ha : Aside cfg x i A H w e)
    (hroom : RoomForID L cfg w e) (he : e.inserts = some (p, idx))
    (ho : insertElement cfg p (w.pes p) mgr idx = some o)
    (hiss : cfg.compressor = none → Issued w x i) : Mild cfg x i A H (w.pes p) o := by
  rcases inserted ho with _ | @⟨s', id, _, hid, hlocal, hadd⟩
  · exact .keep rfl rfl rfl (.inl rfl) (.single trivial)
  by_cases hidx : idx = x
  · -- an element of another array joins the record
    have hfounds := fun hnone => ha.insert ⟨p, hidx ▸ he, hidx ▸ hlocal, hnone⟩
    rcases hid with ⟨hlook, rfl⟩ | ⟨hlook, -, -⟩
    · cases hadd with
      | here => exact addedHere_mild mgr _
      | new hnone =>
        refine absurd (fun id' hid' => ?_) hfounds
        rw [← hidx, hlook] at hid'
        cases hid'
        exact hnone
    · refine absurd (fun id' hid' => ?_) hfounds
      rw [← hidx, hlook] at hid'
      cases hid'
  · have hmild : ∀ id, id ≠ i → cfg.identifier idx id = id → ∀ s', Added cfg p s' mgr idx id o →
        Mild cfg x i A H s' o := by
      intro id hid hident s' hadd
      cases hadd with
      | here => exact addedHere_mild mgr id
      | new => exact addedNew_mild hident hid mgr _
    rcases hid with ⟨hlook, rfl⟩ | ⟨hlook, hnew, rfl⟩
    · have hpair : Pair cfg w idx id := (pairRule cfg w).lookupID (h.tables p) hlook
      have hid : id ≠ i := fun hid => hidx (ha.pair idx (hid ▸ hpair))
      exact hmild id hid ((pairRule cfg w).identifier idx id hpair) _ hadd
    · have hc : cfg.compressor = none := compressor_of_lookupID hlook
      obtain ⟨hcnt, hbits⟩ := hroom p idx he hlook
      have hid : id ≠ i := by
        rw [hnew]
        exact fun hid => h.newID_fresh hcnt hbits x (by rw [hid]; exact hiss hc)
      exact (hmild id hid (by rw [Config.identifier, hc]) _ hadd).rebase hidx

omit [DecidableEq Idx] in
/-- The guess of a processor that has a message for the element. -/
theorem Aside.guess_home (ha : Aside cfg x i A H w e) (he : e.delivers x p)
    (hhash : (w.pes p).hash i = none) (hplace : (w.pes p).id2pe i = none)
    (hhome : homePeId cfg i ≠ p) : A ⟨homePeId cfg i, 0⟩ ∧ H :=
  have hH := ha.guess p he hhash hplace hhome
  ⟨ha.atHome hH, hH⟩

theorem send_mild (ha : Aside cfg x i A H w e) {totalsize : Nat}
    (he : e = .send p mgr idx totalsize type) :
    Mild cfg x i A H (w.pes p) (sendMsg cfg p (w.pes p) (w.message p mgr idx totalsize) type) := by
  refine sendMsg_mild (ha.grounded p) fun hidx hlook hhash hplace hhome => ?_
  cases hc : cfg.compressor with
  | none =>
    -- an index that has an identifier has an entry
    refine absurd hplace ((ha.grounded p).known hc ?_)
    rwa [lookupID, hc] at hlook
  | some code =>
    rw [← ha.home code hc] at hhome ⊢
    exact ha.guess_home (.inl ⟨mgr, totalsize, type, hidx ▸ he⟩) hhash hplace hhome

variable (h : IdsOk L cfg w) (ha : Aside cfg x i A H w e) (hroom : RoomForID L cfg w e)
  (hiss : cfg.compressor = none → Issued w x i)

include h ha hroom hiss

/-- Receiving a call that is not the migration of the element. -/
theorem receive_mild {wire : Wire Idx} (he : e = .receive wire)
    (hwire : wire ∈ w.net) (ho : receive cfg wire.dest (w.pes wire.dest) wire.call = some o) :
    Mild cfg x i A H (w.pes wire.dest) o := by
  obtain ⟨p, call⟩ := wire
  have hin : call.In (Pair cfg w) := h.wires _ hwire
  have hsound : call.Sound cfg i A H := ha.call _ he
  have g := ha.grounded p
  have hr : Received cfg p (w.pes p) call o := received ho
  cases hr with
  | @deliver msg o h =>
    refine h.mild g fun hi hhash hplace hhome => ?_
    have hx : msg.idx = x := ha.pair _ (hi ▸ hin)
    have hhome' : unknownHome cfg msg none = homePeId cfg i := by rw [← hi]; rfl
    rw [hhome'] at hhome ⊢
    exact ha.guess_home (.inr ⟨msg, hx, he⟩) hhash hplace hhome
  | @learnIdx idx id nowOn =>
    refine informed_mild (w.pes p) nowOn hsound (fun hi old hold => ?_) rfl rfl rfl rfl rfl
      (.append (informWires_sound hsound) (.route fun _ => trivial))
    refine ha.newer p nowOn old (.inl ?_) hold
    rw [he, ha.pair idx (hi ▸ hin), hi]
  | @learn id nowOn =>
    refine .keep rfl rfl rfl (entry_of_update hsound fun hi old hold => ?_)
      (.append (.route fun _ => trivial) (.route fun _ => trivial))
    refine ha.newer p nowOn old (.inr ?_) hold
    rw [he, hi]
  | ownIdx | waitIdx | own => exact .keep rfl rfl rfl (.inl rfl) .nil
  | @answerIdx idx peToTell id hlook =>
    refine .keep rfl rfl rfl (.inl rfl) (.single fun hi => ?_)
    rw [hi] at hlook
    -- an index that has an identifier has an entry
    have hplace : (w.pes p).id2pe i ≠ none := by
      refine g.known hsound ?_
      rw [← g.lookup idx hlook]
      rwa [lookupID, show cfg.compressor = none from hsound] at hlook
    obtain ⟨place, hplace⟩ := ne_none_iff_exists'.1 hplace
    rw [lastKnownIdx, hlook, bind_some, hplace]
    exact g.entry place hplace
  | @answer id peToTell =>
    refine .keep rfl rfl rfl (.inl rfl) (.single fun hi => ?_)
    rw [lastKnown, hi]
    cases hplace : (w.pes p).id2pe i with
    | some place => exact g.entry place hplace
    | none => exact ha.atHome (hsound hi)
  | @immigrate idx id elements moves o h =>
    rw [immigrate_eq _ ((pairRule cfg w).identifier idx id hin)] at h
    cases h
    exact informed_mild (withRec (w.pes p) id idx moves) ⟨p, moves⟩ (fun h => absurd h hsound)
      (fun h => absurd h hsound) rfl (update_of_ne (Ne.symm hsound) ..) rfl rfl rfl
      (informWires_sound fun h => absurd h hsound)
  | insertElement h' =>
    refine insertElement_mild h ha hroom ?_ h' hiss
    rw [he]
    rfl
  | @forget idx id hlook =>
    have hidx := ha.reclaim p idx he
    have hid : id ≠ i := fun h => hidx (g.lookup idx (h ▸ hlook))
    refine ⟨rfl, .inl (update_of_ne (Ne.symm hid) ..), fun h => .inl (update_none_cases h).2,
      fun h => ?_, fun _ => Iff.rfl, .nil⟩
    show update (w.pes p).idx2id idx none x ≠ none
    rwa [update_of_ne (Ne.symm hidx)]

/-- A step that is not about the element itself is a mild function on one processor. -/
theorem step_mild (hstep : Step cfg w e w') :
    ∃ p net o sent, w' = { w.put p net o with sent := sent } ∧ net ⊆ w.net ∧
      net.filter (fun wire => wire.call.carries i) = w.flights i ∧
          Mild cfg x i A H (w.pes p) o := by
  have hnet : w.net ⊆ w.net := Subset.refl _
  cases hstep with
  | @send pe mgr idx totalsize type hpe hmgr =>
    exact ⟨pe, w.net, _, _, rfl, hnet, rfl, send_mild ha rfl⟩
  | insert hpe hmgr ho =>
    exact ⟨_, w.net, _, w.sent, rfl, hnet, rfl, insertElement_mild h ha hroom rfl ho hiss⟩
  | @emigrate pe id toPe o hpe hto ho =>
    refine ⟨pe, w.net, o, w.sent, rfl, hnet, rfl, ?_⟩
    obtain ⟨record, hrec, -⟩ := emigrate_cases ho
    refine emigrate_mild hrec ?_ ?_ ho
    · exact (pairRule cfg w).identifier _ _ ((h.tables pe).hash id record hrec)
    · exact ha.emigrate pe id toPe rfl
  | @destroy pe mgr id o hpe hmgr ho =>
    exact ⟨pe, w.net, o, w.sent, rfl, hnet, rfl, reclaim_mild (ha.destroy pe mgr id rfl) ho⟩
  | @receive before after wire o hnet' ho =>
    refine ⟨wire.dest, before ++ after, o, w.sent, rfl, mem_of_mem_rest hnet', ?_,
      receive_mild h ha hroom hiss rfl (hnet' ▸ mem_append_cons_self) ho⟩
    rw [System.flights, hnet', filter_append, filter_append, filter_cons,
      (ha.call wire rfl).not_carries, if_neg Bool.false_ne_true]

end CharmRuntime.Location
