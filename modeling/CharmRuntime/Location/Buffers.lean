import CharmRuntime.Location.Questions

/-!
# What the buffers of a processor hold

Each buffer holds messages for what its processor does not know: an index without an identifier, an
identifier without a place, an element that is not at its location (`Buffered`). Every function but
the deletions keeps that, if the location of a message that waits for an element stays where it is,
and it forgets nothing (`Tidy`).
-/

set_option autoImplicit false

namespace CharmRuntime.Location

open Lib Function List Option

variable {Idx : Type} {cfg : Config Idx} {p id' : Nat} {s : LocMgr Idx} {f : Nat → Option Place}
  {place : Place}

/-! ## Buffers -/

/-- The invariant of the tables and buffers of processor `p`, but for what is about the index and
the identifier in `Skip`. -/
structure BufferedBut (cfg : Config Idx) (p : Nat) (skip : Idx → Prop) (skipId : Nat → Prop)
    (s : LocMgr Idx) : Prop where
  index : ∀ m ∈ s.bufferedIndexMsgs, skip m.idx ∨ lookupID cfg s m.idx = none
  msgs : ∀ m ∈ s.bufferedMsgs,
    homePeId cfg m.elementId = p ∧ (skipId m.elementId ∨ s.id2pe m.elementId = none)
  shadow : ∀ m ∈ s.bufferedShadowElemMsgs,
    s.hash m.elementId ≠ none ∧ s.elements m.mgr m.elementId = false
  elements : ∀ mgr id, s.elements mgr id = true → s.hash id ≠ none
  known : cfg.compressor = none → ∀ idx id, s.idx2id idx = some id → skip idx ∨ s.id2pe id ≠ none
  issued : ∀ id idx, (id, idx) ∈ s.issued → skipId id ∨ s.id2pe id ≠ none

/-- The invariant of the tables and buffers of processor `p`. -/
def Buffered (cfg : Config Idx) (p : Nat) (s : LocMgr Idx) : Prop :=
  BufferedBut cfg p (fun _ => False) (fun _ => False) s

theorem Buffered.but (h : Buffered cfg p s) (skip : Idx → Prop) (skipId : Nat → Prop) :
    BufferedBut cfg p skip skipId s where
  index m hm := .inr ((h.index m hm).resolve_left id)
  msgs m hm := ⟨(h.msgs m hm).1, .inr ((h.msgs m hm).2.resolve_left id)⟩
  shadow := h.shadow
  elements := h.elements
  known hc idx id' hid := .inr ((h.known hc idx id' hid).resolve_left id)
  issued id' idx hid := .inr ((h.issued id' idx hid).resolve_left id)

theorem buffered_initial : Buffered cfg p (initialMgr : LocMgr Idx) where
  index _ h := nomatch h
  msgs _ h := nomatch h
  shadow _ h := nomatch h
  elements _ _ h := nomatch h
  known _ _ _ h := nomatch h
  issued _ _ h := nomatch h

variable {id : Nat} {s' : LocMgr Idx}

theorem BufferedBut.withRec {skip : Idx → Prop} {skipId : Nat → Prop}
    (h : BufferedBut cfg p skip skipId s) (id : Nat) (idx : Idx) (moves : Nat) :
    BufferedBut cfg p skip skipId (withRec s id idx moves) := by
  have hhash : ∀ id', s.hash id' ≠ none → update s.hash id (some ⟨idx, moves⟩) id' ≠ none :=
    fun id' => update_ne_none
  exact { h with
    shadow := fun m hm => ⟨hhash _ (h.shadow m hm).1, (h.shadow m hm).2⟩
    elements := fun mgr id' helem => hhash _ (h.elements mgr id' helem) }

theorem Buffered.removeRec (h : Buffered cfg p s)
    (hshadow : ∀ m ∈ s.bufferedShadowElemMsgs, m.elementId ≠ id) :
    Buffered cfg p (removeRec s id) := by
  have helem : ∀ mgr id', (Location.removeRec s id).elements mgr id' = true →
      id' ≠ id ∧ s.elements mgr id' = true := by
    intro mgr id' htrue
    change update (s.elements mgr) id false id' = true at htrue
    by_cases hid : id' = id
    · rw [hid, update_self] at htrue
      cases htrue
    · rw [update_of_ne hid] at htrue
      exact ⟨hid, htrue⟩
  have hhash : ∀ id', id' ≠ id → (Location.removeRec s id).hash id' = s.hash id' :=
    fun id' hid => update_of_ne hid ..
  refine { h with
    shadow := fun m hm => ⟨?_, ?_⟩
    elements := fun mgr id' htrue => ?_ }
  · rw [hhash _ (hshadow m hm)]
    exact (h.shadow m hm).1
  · by_contra hne
    obtain ⟨-, htrue⟩ := helem _ _ (eq_true_of_ne_false hne)
    rw [(h.shadow m hm).2] at htrue
    cases htrue
  · obtain ⟨hid, htrue⟩ := helem mgr id' htrue
    rw [hhash id' hid]
    exact h.elements mgr id' htrue

/-- New elements of a location that is here, when no message waits for one of them. -/
theorem Buffered.withElement (h : Buffered cfg p s) (hs : s' = { s with elements := s'.elements })
    (hnew : ∀ mgr id', s'.elements mgr id' = true → s.elements mgr id' = true ∨ id' = id)
    (hhash : s.hash id ≠ none) (hshadow : ∀ m ∈ s.bufferedShadowElemMsgs, m.elementId ≠ id) :
    Buffered cfg p s' := by
  have hkeep : Buffered cfg p { s with elements := s'.elements } := by
    refine { h with
      shadow := fun m hm => ⟨(h.shadow m hm).1, ?_⟩
      elements := fun mgr id' htrue => ?_ }
    · by_contra hne
      rcases hnew _ _ (eq_true_of_ne_false hne) with htrue | hid
      · rw [(h.shadow m hm).2] at htrue
        cases htrue
      · exact hshadow m hm hid
    · rcases hnew mgr id' htrue with htrue | rfl
      · exact h.elements mgr id' htrue
      · exact hhash
  rw [hs]
  exact hkeep

/-! ## Functions -/

/-- What a function does to the tables and buffers of processor `p`. -/
structure Tidy (cfg : Config Idx) (p : Nat) (s : LocMgr Idx) (o : Outcome Idx) : Prop where
  buffered : Buffered cfg p o.mgr
  remote : ∀ m ∈ o.mgr.bufferedRemoteMsgs,
    (∃ m' ∈ s.bufferedRemoteMsgs, m'.elementId = m.elementId) ∨
      ∃ q, ⟨q, .requestLocation m.elementId p⟩ ∈ o.sent
  lookup : ∀ idx, lookupID cfg s idx ≠ none → lookupID cfg o.mgr idx ≠ none
  id2pe : ∀ id, s.id2pe id ≠ none → o.mgr.id2pe id ≠ none

theorem Tidy.same (h : Buffered cfg p s) {wires : List (Wire Idx)} {invoked : List (UserMsg Idx)} :
    Tidy cfg p s ⟨s, wires, invoked⟩ :=
  ⟨h, fun m hm => .inl ⟨m, hm, rfl⟩, fun _ h => h, fun _ h => h⟩

variable {o : Outcome Idx} {mgr : Nat}

/-- A message more in a buffer that this processor empties itself. -/
theorem Tidy.add (ho : Buffered cfg p o.mgr)
    (hremote : ∀ m ∈ o.mgr.bufferedRemoteMsgs, m ∈ s.bufferedRemoteMsgs)
    (hidx : o.mgr.idx2id = s.idx2id) (hplaces : ∀ id, s.id2pe id ≠ none → o.mgr.id2pe id ≠ none) :
    Tidy cfg p s o where
  buffered := ho
  remote m hm := .inl ⟨m, hremote m hm, rfl⟩
  lookup idx h := by
    rw [lookupID] at h ⊢
    rwa [hidx]
  id2pe := hplaces

/-- Writing a place for an identifier that no message waits for. -/
theorem Buffered.placed (h : Buffered cfg p s) (hid : ∀ m ∈ s.bufferedMsgs, m.elementId ≠ id)
    (place : Place) : Buffered cfg p { s with id2pe := update s.id2pe id (some place) } := by
  refine { h with msgs := fun m hm => ⟨(h.msgs m hm).1, .inr ?_⟩, known := fun hc idx id' hid => ?_,
                  issued := fun id' idx hid => ?_ }
  · dsimp only
    rw [update_of_ne (hid m hm)]
    exact (h.msgs m hm).2.resolve_left False.elim
  · exact .inr (update_ne_none ((h.known hc idx id' hid).resolve_left False.elim))
  · exact .inr (update_ne_none ((h.issued id' idx hid).resolve_left False.elim))

/-- The guess of a processor that is not the home. -/
theorem Buffered.guessed (h : Buffered cfg p s) (hhome : homePeId cfg id ≠ p) (home : Nat) :
    Buffered cfg p (guessed s id home) := by
  refine h.placed (fun m hm => ?_) ⟨home, 0⟩
  rintro rfl
  exact hhome (h.msgs m hm).1

theorem Delivered.tidy {msg : UserMsg Idx} {idx : Option Idx} (hd : Delivered cfg p s msg idx o)
    (h : Buffered cfg p s) (hhome : s.id2pe msg.elementId = none →
      unknownHome cfg msg idx = homePeId cfg msg.elementId) : Tidy cfg p s o := by
  cases hd with
  | sent | invoked => exact .same h
  | shadow hhash helem =>
    exact .add { h with shadow := Lib.forall_mem_concat h.shadow ⟨hhash, helem⟩ } (fun _ hm => hm)
      rfl fun _ h => h
  | atHome hnone hme =>
    exact .add { h with msgs := Lib.forall_mem_concat h.msgs ⟨hhome hnone ▸ hme, .inr hnone⟩ }
      (fun _ hm => hm) rfl
      fun _ h => h
  | guessed _ hnone hme =>
    exact .add (h.guessed (hhome hnone ▸ hme) _) (fun _ hm => hm) rfl fun _ h => update_ne_none h
  | asked _ hnone hme =>
    have hguess := h.guessed (hhome hnone ▸ hme) (unknownHome cfg msg idx)
    refine ⟨{ hguess with }, fun m hm => ?_, fun _ h => h, fun _ h => update_ne_none h⟩
    rcases mem_append.1 hm with hm | hm
    · exact .inl ⟨m, hm, rfl⟩
    · rw [mem_singleton.1 hm]
      -- the location is asked for unless another message waits for it
      by_cases hany : s.bufferedRemoteMsgs.any fun m => m.elementId = msg.elementId
      · obtain ⟨m', hm', hid⟩ := any_eq_true.1 hany
        exact .inl ⟨m', hm', of_decide_eq_true hid⟩
      · rw [if_neg hany]
        exact .inr ⟨_, mem_singleton.2 rfl⟩

theorem learned_tidy (h : Buffered cfg p s) (nowOn : Place) :
    Tidy cfg p s (learned p s id nowOn) := by
  refine .add ?_ (fun m hm => (mem_filter.1 hm).1) rfl fun _ h => update_ne_none h
  have hfew : Buffered cfg p { s with
      bufferedMsgs := s.bufferedMsgs.filter fun m => m.elementId ≠ id } :=
    { h with msgs := fun m hm => h.msgs m (mem_filter.1 hm).1 }
  exact { hfew.placed (fun m hm => of_decide_eq_true (mem_filter.1 hm).2) nowOn with }

theorem setElement_true {mgr' : Nat}
    (h : (setElement s mgr id true).elements mgr' id' = true) :
    s.elements mgr' id' = true ∨ id' = id := by
  change update s.elements mgr (update (s.elements mgr) id true) mgr' id' = true at h
  by_cases hid : id' = id
  · exact .inr hid
  · refine .inl ?_
    by_cases hmgr : mgr' = mgr
    · rwa [hmgr, update_self, update_of_ne hid, ← hmgr] at h
    · rwa [update_of_ne hmgr] at h

theorem addedHere_tidy (h : Buffered cfg p s) (hhash : s.hash id ≠ none) (mgr : Nat) :
    Tidy cfg p s (addedHere p s mgr id) := by
  have hfilter : ∀ {m}, m ∈ (s.bufferedShadowElemMsgs.filter fun m => m.elementId ≠ id) →
      m ∈ s.bufferedShadowElemMsgs ∧ m.elementId ≠ id := by
    intro m hm
    simpa using mem_filter.1 hm
  refine .add ?_ (fun _ hm => hm) rfl fun _ h => h
  have hbase : Buffered cfg p { s with
      bufferedShadowElemMsgs := s.bufferedShadowElemMsgs.filter fun m => m.elementId ≠ id } :=
    { h with shadow := fun m hm => h.shadow m (hfilter hm).1 }
  exact hbase.withElement rfl (fun mgr' id' htrue => setElement_true htrue) hhash
    fun m hm => (hfilter hm).2

variable [DecidableEq Idx]

theorem sendMsg_tidy (h : Buffered cfg p s) (msg : UserMsg Idx) (type : DeliverType) :
    Tidy cfg p s (sendMsg cfg p s msg type) := by
  rw [sendMsg]
  cases hlook : lookupID cfg s msg.idx with
  | some id =>
    refine (deliverMsg_delivered ..).tidy h fun hnone => ?_
    rw [lookupID] at hlook
    cases hc : cfg.compressor with
    | some code =>
      rw [hc] at hlook
      cases hlook
      exact (homePeId_compress hc msg.idx).symm
    | none =>
      rw [hc] at hlook
      exact absurd hnone ((h.known hc msg.idx id hlook).resolve_left False.elim)
  | none =>
    have hbuf : Buffered cfg p { s with
        bufferedIndexMsgs := s.bufferedIndexMsgs ++ [{ msg with elementId := 0 }] } :=
      { h with index := Lib.forall_mem_concat h.index (.inr hlook) }
    dsimp only
    split
    · exact .add hbuf (fun _ hm => hm) rfl fun _ h => h
    · exact .add hbuf (fun _ hm => hm) rfl fun _ h => h

/-! ## Learning a place -/

variable {idx : Idx}

/-- `inform` empties the buffers of what is then known. -/
theorem BufferedBut.informed
    (h : BufferedBut cfg p (fun i => i = idx) (fun i => i = id) s) (nowOn : Place) :
    Buffered cfg p (informed cfg s idx id nowOn) where
  index m hm := by
    obtain ⟨hm, hne⟩ : m ∈ s.bufferedIndexMsgs ∧ m.idx ≠ idx := by simpa using mem_filter.1 hm
    rw [lookupID_informed_of_ne hne]
    exact .inr ((h.index m hm).resolve_left hne)
  msgs m hm := by
    obtain ⟨hm, hne⟩ : m ∈ s.bufferedMsgs ∧ m.elementId ≠ id := by simpa using mem_filter.1 hm
    refine ⟨(h.msgs m hm).1, .inr ?_⟩
    show update s.id2pe id (some nowOn) m.elementId = none
    rw [update_of_ne hne]
    exact (h.msgs m hm).2.resolve_left hne
  shadow := h.shadow
  elements := h.elements
  known hc idx' id' hid := by
    refine .inr ?_
    change (insertID cfg s idx id).idx2id idx' = some id' at hid
    rw [insertID, hc] at hid
    rcases update_some_cases hid with ⟨-, rfl⟩ | ⟨hne, hid⟩
    · exact update_self_ne_none
    · exact update_ne_none ((h.known hc idx' id' hid).resolve_left hne)
  issued id' idx' hid := by
    refine .inr ?_
    rcases h.issued id' idx' hid with rfl | hne
    · exact update_self_ne_none
    · exact update_ne_none hne

/-- A function that tells of a place: the base `b` is the state in which it calls `inform`. -/
theorem tidy_informed (b : LocMgr Idx) (nowOn : Place) (hbuf : Buffered cfg p o.mgr)
    (hremote : ∀ m ∈ o.mgr.bufferedRemoteMsgs, m ∈ s.bufferedRemoteMsgs)
    (hidx : o.mgr.idx2id = (informed cfg b idx id nowOn).idx2id)
    (hplaces : o.mgr.id2pe = update s.id2pe id (some nowOn))
    (hbidx : ∀ idx', idx' ≠ idx → lookupID cfg b idx' = lookupID cfg s idx') : Tidy cfg p s o where
  buffered := hbuf
  remote m hm := .inl ⟨m, hremote m hm, rfl⟩
  lookup idx' hne := by
    have hsame : lookupID cfg o.mgr idx' = lookupID cfg (informed cfg b idx id nowOn) idx' := by
      rw [lookupID, lookupID, hidx]
    rw [hsame]
    by_cases hidx' : idx' = idx
    · rw [hidx', lookupID_informed_self]
      exact some_ne_none _
    · rwa [lookupID_informed_of_ne hidx', hbidx idx' hidx']
  id2pe id' hne := by
    rw [hplaces]
    exact update_ne_none hne

variable (h : Buffered cfg p s)

include h

theorem learnedIdx_tidy (nowOn : Place) : Tidy cfg p s (learnedIdx cfg p s idx id nowOn) := by
  have hbuf := (h.but (fun i => i = idx) fun i => i = id).informed nowOn
  exact tidy_informed s nowOn { hbuf with } (fun m hm => (mem_filter.1 hm).1) rfl rfl
    fun _ _ => rfl

theorem emigrate_tidy {toPe : Nat}
    (hshadow : toPe ≠ p → ∀ m ∈ s.bufferedShadowElemMsgs, m.elementId ≠ id)
    (ho : emigrate cfg p s id toPe = some o) : Tidy cfg p s o := by
  obtain ⟨record, -, ⟨-, rfl⟩ | ⟨hto, rfl⟩⟩ := emigrate_cases ho
  · exact .same h
  · have hbuf := ((h.removeRec (hshadow hto)).but (fun i => i = record.idx)
      fun i => i = id).informed ⟨toPe, record.moves + 1⟩
    exact tidy_informed (removeRec s id) ⟨toPe, record.moves + 1⟩ hbuf (fun m hm => hm) rfl rfl
      fun _ _ => rfl

theorem immigrate_tidy
    (hident : cfg.identifier idx id = id) (hnone : s.hash id = none) {elements : List Nat}
    {moves : Nat} (ho : immigrate cfg p s idx id elements moves = some o) : Tidy cfg p s o := by
  rw [immigrate_eq _ hident] at ho
  cases ho
  have hbuf := ((h.but (fun i => i = idx) fun i => i = id).withRec id idx moves).informed ⟨p, moves⟩
  refine tidy_informed (withRec s id idx moves) ⟨p, moves⟩ ?_ (fun m hm => hm) rfl rfl fun _ _ =>
    rfl
  have hhash : (informed cfg (withRec s id idx moves) idx id ⟨p, moves⟩).hash id ≠ none :=
    update_self_ne_none
  refine hbuf.withElement rfl (fun mgr id' htrue => ?_) hhash fun m hm hid => ?_
  · change (if mgr ∈ elements then update (s.elements mgr) id true else s.elements mgr) id' = true
      at htrue
    by_cases hid : id' = id
    · exact .inr hid
    · refine .inl ?_
      split at htrue
      · rwa [update_of_ne hid] at htrue
      · exact htrue
  · -- no message waits at a location that is not here
    exact (h.shadow m hm).1 (hid ▸ hnone)

omit h in
theorem addedNew_tidy {b : LocMgr Idx}
    (hb : BufferedBut cfg p (fun i => i = idx) (fun i => i = id) b)
    (hid : Identified cfg p s idx b id) (hnone : b.hash id = none) (mgr moves : Nat) :
    Tidy cfg p s (addedNew cfg p b mgr idx id moves) := by
  obtain ⟨-, -, hremote, hplaces, -, hother⟩ := hid.frame
  have hbuf := (hb.withRec id idx moves).informed ⟨p, moves⟩
  refine tidy_informed (withRec b id idx moves) ⟨p, moves⟩ ?_ (fun m hm => hremote ▸ hm) rfl
    (by rw [← hplaces]; rfl) hother
  refine hbuf.withElement rfl (fun mgr' id' htrue => setElement_true htrue) ?_ fun m hm hid => ?_
  · exact update_self_ne_none
  · exact (hb.shadow m hm).1 (hid ▸ hnone)

/-- The state in which a new index has its identifier, before `inform` empties the buffers. -/
theorem Identified.bufferedBut
    (hid : Identified cfg p s idx s' id) :
    BufferedBut cfg p (fun i => i = idx) (fun i => i = id) s' := by
  rcases hid with ⟨-, rfl⟩ | ⟨hlook, hnew, hs'⟩
  · exact h.but _ _
  · have hc : cfg.compressor = none := compressor_of_lookupID hlook
    obtain ⟨-, -, -, -, -, hother⟩ := Identified.frame (.inr ⟨hlook, hnew, hs'⟩)
    have hfields : s' = { withID p s idx with idx2id := s'.idx2id } := by
      rw [hs']
      exact insertID_eq ..
    have hindex : ∀ m ∈ s.bufferedIndexMsgs, m.idx = idx ∨ lookupID cfg s' m.idx = none := by
      intro m hm
      by_cases hm' : m.idx = idx
      · exact .inl hm'
      · exact .inr ((hother _ hm').trans ((h.index m hm).resolve_left False.elim))
    have hknown : ∀ idx' id', s'.idx2id idx' = some id' → idx' = idx ∨ s.id2pe id' ≠ none := by
      intro idx' id' hid'
      rw [hs', insertID, hc] at hid'
      rcases update_some_cases hid' with ⟨hidx, -⟩ | ⟨-, hid'⟩
      · exact .inl hidx
      · exact .inr ((h.known hc idx' id' hid').resolve_left False.elim)
    have hiss : ∀ id' idx', (id', idx') ∈ s'.issued → id' = id ∨ s.id2pe id' ≠ none := by
      intro id' idx' hid'
      rw [hs', insertID_issued, withID] at hid'
      rcases mem_append.1 hid' with hid' | hid'
      · exact .inr ((h.issued id' idx' hid').resolve_left False.elim)
      · exact .inl ((Prod.mk.inj (mem_singleton.1 hid')).1.trans hnew.symm)
    rw [hfields] at hindex hknown hiss ⊢
    exact ⟨hindex, fun m hm => ⟨(h.msgs m hm).1, .inr ((h.msgs m hm).2.resolve_left False.elim)⟩,
      h.shadow, h.elements, fun _ => hknown, hiss⟩

theorem insertElement_tidy (hfresh : lookupID cfg s idx = none → s.hash (newID p s) = none)
    (ho : insertElement cfg p s mgr idx = some o) : Tidy cfg p s o := by
  cases inserted ho with
  | passed => exact .same h
  | added hid _ hadd =>
    cases hadd with
    | here hrec =>
      rcases hid with ⟨-, rfl⟩ | ⟨hlook, hnew, hs'⟩
      · exact addedHere_tidy h (by rw [hrec]; exact some_ne_none _) mgr
      · obtain ⟨-, -, -, -, hhash, -⟩ := Identified.frame (.inr ⟨hlook, hnew, hs'⟩)
        rw [hhash, hnew, hfresh hlook] at hrec
        cases hrec
    | new hnone => exact addedNew_tidy (hid.bufferedBut h) hid hnone mgr _

end CharmRuntime.Location
