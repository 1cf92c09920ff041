import CharmRuntime.Location.Pairs

/-!
# Questions for a location

A processor that has a message for an index without an identifier asks the home of the index, unless
it has asked before, and the home answers when it knows one. Every function keeps to that (`Asks`),
and receiving a call does what the call asks for (`Answered`). So a question is on its way, waits at
the home or is answered until nothing waits for the answer (`Exchange.asked`).
-/

set_option autoImplicit false

namespace CharmRuntime.Location

open Lib List Function

variable {Idx : Type} {cfg : Config Idx} {R : Idx → Prop} {p mgr : Nat} {s : LocMgr Idx}
  {o : Outcome Idx}

/-! ## What a function asks -/

/-- Questions go to another processor, and those for an index to its home. Deletions are reported
only of indices in `R`. -/
def Wire.Addressed (cfg : Config Idx) (R : Idx → Prop) (wire : Wire Idx) : Prop :=
  match wire.call with
  | .requestLocationIdx idx peToTell => wire.dest = cfg.home idx ∧ peToTell ≠ wire.dest
  | .requestLocation _ peToTell => peToTell ≠ wire.dest
  | .reclaimRemote idx => R idx
  | _ => True

variable (cfg R p s o) in
/-- Whom a function of processor `p` asks and answers. -/
structure Asks : Prop where
  index : ∀ m ∈ o.mgr.bufferedIndexMsgs, (∃ m' ∈ s.bufferedIndexMsgs, m'.idx = m.idx) ∨
    cfg.home m.idx = p ∨ ⟨cfg.home m.idx, .requestLocationIdx m.idx p⟩ ∈ o.sent
  requests : ∀ r ∈ s.bufferedLocationRequests, r ∈ o.mgr.bufferedLocationRequests ∨ r.2 = p ∨
    ∃ id nowOn, ⟨r.2, .updateLocationIdx r.1 id nowOn⟩ ∈ o.sent
  pending : (∀ r ∈ s.bufferedLocationRequests, lookupID cfg s r.1 = none) →
    ∀ r ∈ o.mgr.bufferedLocationRequests, lookupID cfg o.mgr r.1 = none
  wires : ∀ wire ∈ o.sent, wire.Addressed cfg R

theorem Asks.of_eq (hindex : o.mgr.bufferedIndexMsgs = s.bufferedIndexMsgs)
    (hrequests : o.mgr.bufferedLocationRequests = s.bufferedLocationRequests)
    (hidx : o.mgr.idx2id = s.idx2id) (hwires : ∀ wire ∈ o.sent, wire.Addressed cfg R) :
    Asks cfg R p s o where
  index m hm := .inl ⟨m, hindex ▸ hm, rfl⟩
  requests _ hr := .inl (hrequests ▸ hr)
  pending h r hr := by
    have hnone := h r (hrequests ▸ hr)
    rw [lookupID] at hnone ⊢
    rwa [hidx]
  wires := hwires

/-- The call tells something, and asks nothing. -/
def Call.Tells : Call Idx → Prop
  | .requestLocationIdx _ _ | .requestLocation _ _ | .reclaimRemote _ => False
  | _ => True

theorem AllCalls.addressed {wires : List (Wire Idx)} (h : AllCalls Call.Tells wires) :
    ∀ wire ∈ wires, wire.Addressed cfg R := by
  intro ⟨dest, call⟩ hwire
  have htells := h _ hwire
  cases call with
  | requestLocationIdx | requestLocation | reclaimRemote => exact htells.elim
  | _ => exact trivial

theorem Delivered.asks {msg : UserMsg Idx} {idx : Option Idx} (h : Delivered cfg p s msg idx o) :
    Asks cfg R p s o := by
  cases h with
  | sent | guessed => exact .of_eq rfl rfl rfl (AllCalls.addressed (.single trivial))
  | invoked => exact .of_eq rfl rfl rfl (AllCalls.addressed (.multiHop trivial))
  | shadow | atHome => exact .of_eq rfl rfl rfl (forall_mem_nil _)
  | asked _ _ hhome =>
    refine .of_eq rfl rfl rfl ?_
    split
    · exact forall_mem_nil _
    · exact forall_mem_singleton.2 (Ne.symm hhome)

theorem addedHere_asks (mgr id : Nat) : Asks cfg R p s (addedHere p s mgr id) :=
  .of_eq rfl rfl rfl (AllCalls.addressed (.map fun _ _ => trivial))

theorem reclaim_asks {id : Nat} (hR : ∀ record, s.hash id = some record → R record.idx)
    (h : reclaim cfg p s mgr id = some o) : Asks cfg R p s o := by
  obtain ⟨record, hrec, rfl | rfl⟩ := reclaim_cases h
  · exact .of_eq rfl rfl rfl (forall_mem_nil _)
  · refine .of_eq rfl rfl rfl ?_
    split
    · exact forall_mem_singleton.2 (hR record hrec)
    · exact forall_mem_nil _

variable [DecidableEq Idx]

theorem sendMsg_asks (msg : UserMsg Idx) (type : DeliverType) :
    Asks cfg R p s (sendMsg cfg p s msg type) := by
  rw [sendMsg]
  split
  · exact (deliverMsg_delivered ..).asks
  · by_cases hhome : cfg.home msg.idx = p
    · rw [if_neg (not_not.2 hhome)]
      exact ⟨Lib.forall_mem_concat (fun m hm => .inl ⟨m, hm, rfl⟩) (.inr (.inl hhome)),
        fun r hr => .inl hr, fun h => h, forall_mem_nil _⟩
    · rw [if_pos hhome]
      refine ⟨fun m hm => ?_, fun r hr => .inl hr, fun h => h, ?_⟩
      · rcases mem_append.1 hm with hm | hm
        · exact .inl ⟨m, hm, rfl⟩
        · rw [mem_singleton.1 hm]
          -- the home is asked unless another message waits for the answer
          by_cases hany : s.bufferedIndexMsgs.any fun m => m.idx = msg.idx
          · obtain ⟨m', hm', hidx⟩ := any_eq_true.1 hany
            exact .inl ⟨m', hm', of_decide_eq_true hidx⟩
          · rw [if_neg hany]
            exact .inr (.inr (mem_singleton.2 rfl))
      · split
        · exact forall_mem_nil _
        · exact forall_mem_singleton.2 ⟨rfl, Ne.symm hhome⟩

/-! ### Learning a place -/

theorem lookupID_informed_of_ne {idx idx' : Idx} (hne : idx' ≠ idx) (id : Nat) (nowOn : Place) :
    lookupID cfg (informed cfg s idx id nowOn) idx' = lookupID cfg s idx' := by
  rw [lookupID, lookupID]
  cases hc : cfg.compressor with
  | some code => rfl
  | none =>
    show (insertID cfg s idx id).idx2id idx' = s.idx2id idx'
    rw [insertID, hc]
    exact update_of_ne hne ..

theorem lookupID_informed_self (s : LocMgr Idx) (idx : Idx) (id : Nat) (nowOn : Place) :
    lookupID cfg (informed cfg s idx id nowOn) idx = some (cfg.identifier idx id) :=
  lookupID_of_inserted (s := s) rfl

/-- The calls of a function that tells of a place. -/
theorem tells_inform {nowOn : Place} (idx : Idx) (id : Nat) :
    AllCalls Call.Tells (informWires p s idx id nowOn) :=
  .inform (fun _ => trivial) trivial

variable {idx : Idx} {id : Nat} {call : Call Idx} {w : System Idx}

/-- A function that tells of a place: the base `b` is the state in which it calls `inform`. -/
theorem asks_informed (b : LocMgr Idx) (nowOn : Place)
    (hindex : o.mgr.bufferedIndexMsgs = (informed cfg b idx id nowOn).bufferedIndexMsgs)
    (hrequests : o.mgr.bufferedLocationRequests =
      (informed cfg b idx id nowOn).bufferedLocationRequests)
    (hidx : o.mgr.idx2id = (informed cfg b idx id nowOn).idx2id)
    (hbindex : b.bufferedIndexMsgs = s.bufferedIndexMsgs)
    (hbrequests : b.bufferedLocationRequests = s.bufferedLocationRequests)
    (hbidx : ∀ idx', idx' ≠ idx → lookupID cfg b idx' = lookupID cfg s idx')
    (hsent : ∀ wire ∈ informWires p b idx id nowOn, wire ∈ o.sent)
    (hwires : ∀ wire ∈ o.sent, wire.Addressed cfg R) : Asks cfg R p s o where
  index m hm := by
    rw [hindex] at hm
    have hm : m ∈ b.bufferedIndexMsgs := (mem_filter.1 hm).1
    exact .inl ⟨m, hbindex ▸ hm, rfl⟩
  requests r hr := by
    rw [hrequests]
    rw [← hbrequests] at hr
    by_cases hr1 : r.1 = idx
    · by_cases hr2 : r.2 = p
      · exact .inr (.inl hr2)
      · refine .inr (.inr ⟨id, nowOn, hsent _ (mem_append_left _ (mem_map.2 ⟨r, ?_, ?_⟩))⟩)
        · exact mem_filter.2 ⟨hr, by simp [hr1, hr2]⟩
        · rw [hr1]
    · exact .inl (mem_filter.2 ⟨hr, by simpa using hr1⟩)
  pending h r hr := by
    rw [hrequests] at hr
    obtain ⟨hr, hne⟩ : r ∈ b.bufferedLocationRequests ∧ r.1 ≠ idx := by
      simpa using mem_filter.1 hr
    have hsame : lookupID cfg o.mgr r.1 = lookupID cfg (informed cfg b idx id nowOn) r.1 := by
      rw [lookupID, lookupID, hidx]
    rw [hsame, lookupID_informed_of_ne hne, hbidx _ hne]
    exact h r (hbrequests ▸ hr)
  wires := hwires

theorem emigrate_asks {toPe : Nat} (h : emigrate cfg p s id toPe = some o) : Asks cfg R p s o := by
  obtain ⟨record, -, ⟨-, rfl⟩ | ⟨-, rfl⟩⟩ := emigrate_cases h
  · exact .of_eq rfl rfl rfl (forall_mem_nil _)
  · refine asks_informed (removeRec s id) ⟨toPe, record.moves + 1⟩ rfl rfl rfl rfl rfl
      (fun _ _ => rfl)
      (fun wire hwire => mem_cons_of_mem _ (mem_append_left _ hwire)) ?_
    exact AllCalls.addressed (.cons trivial (.append (tells_inform _ _) (.home trivial)))

theorem immigrate_asks (hident : cfg.identifier idx id = id)
    {elements : List Nat} {moves : Nat} (h : immigrate cfg p s idx id elements moves = some o) :
    Asks cfg R p s o := by
  rw [immigrate_eq _ hident] at h
  cases h
  exact asks_informed (withRec s id idx moves) ⟨p, moves⟩ rfl rfl rfl rfl rfl (fun _ _ => rfl)
    (fun wire hwire => hwire) (tells_inform _ _).addressed

/-- Giving out an identifier changes the table for its index only. -/
theorem Identified.frame {s' : LocMgr Idx} (h : Identified cfg p s idx s' id) :
    s'.bufferedIndexMsgs = s.bufferedIndexMsgs ∧
      s'.bufferedLocationRequests = s.bufferedLocationRequests ∧
      s'.bufferedRemoteMsgs = s.bufferedRemoteMsgs ∧ s'.id2pe = s.id2pe ∧ s'.hash = s.hash ∧
      ∀ idx', idx' ≠ idx → lookupID cfg s' idx' = lookupID cfg s idx' := by
  rcases h with ⟨-, rfl⟩ | ⟨hlook, -, hs⟩
  · exact ⟨rfl, rfl, rfl, rfl, rfl, fun _ _ => rfl⟩
  · have hs' : s' = { withID p s idx with idx2id := s'.idx2id } := by
      rw [hs]
      exact insertID_eq ..
    refine ⟨by rw [hs']; rfl, by rw [hs']; rfl, by rw [hs']; rfl, by rw [hs']; rfl, by
      rw [hs']; rfl, fun idx' hne => ?_⟩
    rw [hs, lookupID, lookupID, insertID, compressor_of_lookupID hlook]
    exact update_of_ne hne ..

theorem insertElement_asks (hfresh : lookupID cfg s idx = none → s.hash (newID p s) = none)
    (h : insertElement cfg p s mgr idx = some o) : Asks cfg R p s o := by
  cases inserted h with
  | passed => exact .of_eq rfl rfl rfl (forall_mem_singleton.2 trivial)
  | @added s' id _ hid _ hadd =>
    obtain ⟨hindex, hrequests, -, -, hhash, hother⟩ := hid.frame
    cases hadd with
    | here hrec =>
      -- a record that is here belongs to an index that has its identifier
      rcases hid with ⟨-, rfl⟩ | ⟨hlook, hnew, -⟩
      · exact addedHere_asks mgr id
      · rw [hhash, hnew, hfresh hlook] at hrec
        cases hrec
    | @new moves =>
      exact asks_informed (withRec s' id idx moves) ⟨p, moves⟩ rfl rfl rfl hindex hrequests hother
        (fun wire hwire => mem_append_left _ hwire)
        (AllCalls.append (tells_inform _ _) (.home trivial)).addressed

/-! ## What a call asks for -/

/-- What has been done when a call has been received. -/
def Answered (cfg : Config Idx) (o : Outcome Idx) : Call Idx → Prop
  | .requestLocationIdx idx peToTell => (idx, peToTell) ∈ o.mgr.bufferedLocationRequests ∨
      ∃ id nowOn, ⟨peToTell, .updateLocationIdx idx id nowOn⟩ ∈ o.sent
  | .updateLocationIdx idx id _ => (∀ m ∈ o.mgr.bufferedIndexMsgs, m.idx ≠ idx) ∧
      lookupID cfg o.mgr idx = some id ∧ o.mgr.id2pe id ≠ none
  | .requestLocation id peToTell => ∃ nowOn, ⟨peToTell, .updateLocation id nowOn⟩ ∈ o.sent
  | .updateLocation id _ => ∀ m ∈ o.mgr.bufferedRemoteMsgs, m.elementId ≠ id
  | _ => True

theorem receive_asks {P : Idx → Nat → Prop} (hP : PairRule cfg P) (hin : call.In P)
    (haddressed : Wire.Addressed cfg R ⟨p, call⟩)
    (hfresh : ∀ mgr idx, call = .insertElement mgr idx → lookupID cfg s idx = none →
      s.hash (newID p s) = none)
    (h : receive cfg p s call = some o) : Asks cfg R p s o ∧ Answered cfg o call := by
  cases received h with
  | deliver h => exact ⟨h.asks, trivial⟩
  | @learnIdx idx id nowOn =>
    refine ⟨?_, fun m hm => by simpa using (mem_filter.1 hm).2, ?_, ?_⟩
    · exact asks_informed s nowOn rfl rfl rfl rfl rfl (fun _ _ => rfl)
        (fun wire hwire => mem_append_left _ hwire)
        (AllCalls.append (tells_inform idx id) (.route fun _ => trivial)).addressed
    · exact (lookupID_informed_self s idx id nowOn).trans (congrArg some (hP.identifier idx id hin))
    · exact update_self_ne_none
  | learn =>
    refine ⟨.of_eq rfl rfl rfl ?_, fun m hm => by simpa using (mem_filter.1 hm).2⟩
    exact AllCalls.addressed (.append (.route fun _ => trivial) (.route fun _ => trivial))
  | ownIdx => exact absurd rfl haddressed.2
  | answerIdx =>
    exact ⟨.of_eq rfl rfl rfl (AllCalls.addressed (.single trivial)),
      .inr ⟨_, _, mem_singleton.2 rfl⟩⟩
  | waitIdx hlook =>
    exact ⟨⟨fun m hm => .inl ⟨m, hm, rfl⟩, fun r hr => .inl (mem_append_left _ hr),
      fun h => Lib.forall_mem_concat h hlook, forall_mem_nil _⟩,
        .inl (mem_append_right _ (mem_singleton.2 rfl))⟩
  | own => exact absurd rfl haddressed
  | answer => exact ⟨.of_eq rfl rfl rfl (AllCalls.addressed (.single trivial)), _,
      mem_singleton.2 rfl⟩
  | immigrate h => exact ⟨immigrate_asks (hP.identifier _ _ hin) h, trivial⟩
  | insertElement h => exact ⟨insertElement_asks (hfresh _ _ rfl) h, trivial⟩
  | @forget idx id hlook =>
    refine ⟨⟨fun m hm => .inl ⟨m, hm, rfl⟩, fun r hr => .inl hr, fun h r hr => ?_,
      forall_mem_nil _⟩, trivial⟩
    have hnone := h r hr
    have hc := compressor_of_lookupID hnone
    rw [lookupID, hc] at hnone ⊢
    dsimp only
    by_cases hidx : r.1 = idx
    · rw [hidx, update_self]
    · rwa [update_of_ne hidx]

omit [DecidableEq Idx]

/-- A step on processor `p`: it has run a function, and the call that it has received is
answered. -/
structure Exchange (cfg : Config Idx) (w w' : System Idx) (p : Nat) (o : Outcome Idx) : Prop where
  mgr : w'.pes p = o.mgr
  others : ∀ q, q ≠ p → w'.pes q = w.pes q
  net : ∀ wire ∈ w'.net, wire ∈ w.net ∨ wire ∈ o.sent
  sent : ∀ wire ∈ o.sent, wire ∈ w'.net
  answered : ∀ wire ∈ w.net, wire ∈ w'.net ∨ wire.dest = p ∧ Answered cfg o wire.call

/-- A step that receives no call. -/
theorem Exchange.of_put {w' : System Idx} {sent : List (UserMsg Idx)}
    (hw' : w' = { w.put p w.net o with sent := sent }) : Exchange cfg w w' p o := by
  subst hw'
  exact ⟨update_self .., fun _ hq => update_of_ne hq .., fun _ => mem_append.1,
    fun _ => mem_append_right _, fun _ hwire => .inl (mem_append_left _ hwire)⟩

/-- A step that receives a call. -/
theorem Exchange.of_receive {before after : List (Wire Idx)}
    (hnet : w.net = before ++ ⟨p, call⟩ :: after) (hans : Answered cfg o call) :
    Exchange cfg w (w.put p (before ++ after) o) p o := by
  refine ⟨update_self .., fun _ hq => update_of_ne hq .., fun wire hwire => ?_,
    fun _ => mem_append_right _, fun wire hwire => ?_⟩
  · exact (mem_append.1 hwire).imp_left fun h => mem_of_mem_rest hnet h
  · rw [hnet] at hwire
    rcases mem_append.1 hwire with hwire | hwire
    · exact .inl (mem_append_left _ (mem_append_left _ hwire))
    · rcases mem_cons.1 hwire with rfl | hwire
      · exact .inr ⟨rfl, hans⟩
      · exact .inl (mem_append_left _ (mem_append_right _ hwire))

/-- Processor `q` has asked the home of the index for its identifier. -/
def Asked (cfg : Config Idx) (w : System Idx) (idx : Idx) (q : Nat) : Prop :=
  ⟨cfg.home idx, .requestLocationIdx idx q⟩ ∈ w.net ∨
    (idx, q) ∈ (w.pes (cfg.home idx)).bufferedLocationRequests ∨
    ∃ id nowOn, ⟨q, .updateLocationIdx idx id nowOn⟩ ∈ w.net

variable (cfg R w) in
/-- What waits for an identifier has been asked for, and no question waits that could be
answered. -/
structure Inquired : Prop where
  addressed : ∀ wire ∈ w.net, wire.Addressed cfg R
  asked : ∀ p, ∀ m ∈ (w.pes p).bufferedIndexMsgs, cfg.home m.idx = p ∨ Asked cfg w m.idx p
  pending : ∀ p, ∀ r ∈ (w.pes p).bufferedLocationRequests, lookupID cfg (w.pes p) r.1 = none

variable {w w' : System Idx}

theorem inquired_initial : Inquired cfg R (initialSystem : System Idx) :=
  ⟨nofun, nofun, nofun⟩

/-- A question stays asked until what waits for it is gone. -/
theorem Exchange.asked (h : Exchange cfg w w' p o) (ha : Asks cfg R p (w.pes p) o) {q : Nat}
    (hhome : cfg.home idx ≠ q) (hasked : Asked cfg w idx q) :
    Asked cfg w' idx q ∨ q = p ∧ ∀ m ∈ o.mgr.bufferedIndexMsgs, m.idx ≠ idx := by
  rcases hasked with hwire | hstored | ⟨id, nowOn, hwire⟩
  · rcases h.answered _ hwire with hwire | ⟨hto, hstored | ⟨id, nowOn, hreply⟩⟩
    · exact .inl (.inl hwire)
    · refine .inl (.inr (.inl ?_))
      change cfg.home idx = p at hto
      rwa [hto, h.mgr]
    · exact .inl (.inr (.inr ⟨id, nowOn, h.sent _ hreply⟩))
  · by_cases hp : cfg.home idx = p
    · rw [hp] at hstored
      rcases ha.requests _ hstored with hkept | hself | ⟨id, nowOn, hreply⟩
      · refine .inl (.inr (.inl ?_))
        rwa [hp, h.mgr]
      · exact absurd (hp.trans hself.symm) hhome
      · exact .inl (.inr (.inr ⟨id, nowOn, h.sent _ hreply⟩))
    · refine .inl (.inr (.inl ?_))
      rwa [h.others _ hp]
  · rcases h.answered _ hwire with hwire | ⟨hto, hmsgs, -⟩
    · exact .inl (.inr (.inr ⟨id, nowOn, hwire⟩))
    · exact .inr ⟨hto, hmsgs⟩

theorem Inquired.step (hw : Inquired cfg R w) (h : Exchange cfg w w' p o)
    (ha : Asks cfg R p (w.pes p) o) : Inquired cfg R w' := by
  refine ⟨fun wire hwire => (h.net wire hwire).elim (hw.addressed wire) (ha.wires wire),
    fun q m hm => ?_, fun q => ?_⟩
  · by_cases hhome : cfg.home m.idx = q
    · exact .inl hhome
    refine .inr ?_
    -- a message of the same index was there before, or the question has just been sent
    have hbefore : (∃ m' ∈ (w.pes q).bufferedIndexMsgs, m'.idx = m.idx) ∨ Asked cfg w' m.idx q := by
      by_cases hq : q = p
      · rw [hq] at hm hhome ⊢
        rw [h.mgr] at hm
        rcases ha.index m hm with hold | hself | hsent
        · exact .inl hold
        · exact absurd hself hhome
        · exact .inr (.inl (h.sent _ hsent))
      · rw [h.others q hq] at hm
        exact .inl ⟨m, hm, rfl⟩
    rcases hbefore with ⟨m', hm', hidx⟩ | hasked
    · have hasked := (hw.asked q m' hm').resolve_left (hidx ▸ hhome)
      rw [hidx] at hasked
      refine (h.asked ha hhome hasked).resolve_right fun ⟨hq, hgone⟩ => ?_
      rw [hq, h.mgr] at hm
      exact hgone m hm rfl
    · exact hasked
  · by_cases hq : q = p
    · rw [hq, h.mgr]
      exact ha.pending (hw.pending p)
    · rw [h.others q hq]
      exact hw.pending q

/-- When nothing but messages is in flight, no processor but the home has messages that wait for the
identifier of an index that the home knows. -/
theorem Inquired.index_empty (h : Inquired cfg R w)
    (hnet : ∀ wire ∈ w.net, ∃ msg, wire.call = .deliver msg)
    {m : UserMsg Idx} (hm : m ∈ (w.pes p).bufferedIndexMsgs)
    (hlook : lookupID cfg (w.pes (cfg.home m.idx)) m.idx ≠ none) : cfg.home m.idx = p := by
  rcases h.asked p m hm with hhome | hwire | hstored | ⟨id, nowOn, hwire⟩
  · exact hhome
  · obtain ⟨msg, hmsg⟩ := hnet _ hwire
    cases hmsg
  · exact absurd (h.pending _ _ hstored) hlook
  · obtain ⟨msg, hmsg⟩ := hnet _ hwire
    cases hmsg

end CharmRuntime.Location
