import CharmRuntime.Location.Hosts
import CharmRuntime.Location.Messages

/-!
# No message is stranded

A message waits in a buffer until its processor learns of an identifier, a place or an element. In
runs without deletions, in which a record for an index is made only when the index is not alive and
no location leaves a processor while messages wait there for an element of another array, all that
is asked for is answered, and a home hears of every index that is created. So when nothing is in
flight no buffer holds a message for an element that exists (`messages_delivered`). When a location
does leave, the messages stay behind, and nobody looks for them (`messages_stranded`).
-/

set_option autoImplicit false

namespace CharmRuntime.Location

open Lib Function List Option

variable {Idx : Type} {cfg : Config Idx} {L : IdLayout} {w w' : System Idx} {p : Nat}
  {o : Outcome Idx}

/-! ## What a careful step does -/

/-- The conditions on a step: identifiers are given out while there is room, nothing is destroyed, a
record for an index is made only when the index is not alive, and a location does not leave a
processor while messages wait there for an element of another array. -/
structure Careful (L : IdLayout) (cfg : Config Idx) (w : System Idx) (e : Event Idx) : Prop where
  room : RoomForID L cfg w e
  kept : ∀ p mgr id, e ≠ .destroy p mgr id
  once : ∀ x, Founds cfg w e x → ∀ id, ¬ w.Live x id
  siblings : ∀ p id toPe, e = .emigrate p id toPe → toPe ≠ p →
    ∀ m ∈ (w.pes p).bufferedShadowElemMsgs, m.elementId ≠ id

variable (cfg w w' p o) in
/-- What a careful step does on its processor. -/
structure Effect : Prop extends Exchange cfg w w' p o where
  asks : Asks cfg (fun _ => False) p (w.pes p) o
  tidy : Tidy cfg p (w.pes p) o
  moved : ∀ id, Moved w w' p id
  founded : (o.mgr.issued = (w.pes p).issued ∧ ∀ id, o.mgr.hash id ≠ none → w.Hosted id) ∨
    ∃ x id, Founded cfg p (w.pes p) x id o ∧ ∀ id, ¬ w.Live x id

/-- A function that leaves the records alone. -/
theorem Quiet.effect {net : List (Wire Idx)} {sent : List (UserMsg Idx)} (h : Quiet (w.pes p) o)
    (hex : Exchange cfg w { w.put p net o with sent := sent } p o)
    (hasks : Asks cfg (fun _ => False) p (w.pes p) o) (htidy : Tidy cfg p (w.pes p) o)
    (hfl : ∀ id, net.filter (fun wire => wire.call.carries id) = w.flights id) :
    Effect cfg w { w.put p net o with sent := sent } p o :=
  { hex with
    asks := hasks
    tidy := htidy
    moved := fun id => h.moved (hfl id)
    founded := .inl ⟨h.issued, fun _ hid => .inl ⟨p, h.hash ▸ hid⟩⟩ }

/-- What the effect of a step depends on. -/
structure Settled (L : IdLayout) (cfg : Config Idx) (w : System Idx) : Prop
    extends IdsOk L cfg w, Inquired cfg (fun _ => False) w where
  buffered : ∀ p, Buffered cfg p (w.pes p)
  hosts : ∀ id, SingleHost w id

section Steps

variable [DecidableEq Idx] {e : Event Idx} {net : List (Wire Idx)} {id : Nat}

variable (h : Settled L cfg w)

include h

theorem insertElement_effect (hcare : Careful L cfg w e) {mgr : Nat} {x : Idx}
    (he : e.inserts = some (p, x)) (hex : Exchange cfg w (w.put p net o) p o)
    (hfl : ∀ id, net.filter (fun wire => wire.call.carries id) = w.flights id)
    (ho : insertElement cfg p (w.pes p) mgr x = some o) : Effect cfg w (w.put p net o) p o := by
  have hfresh : lookupID cfg (w.pes p) x = none → (w.pes p).hash (newID p (w.pes p)) = none :=
    fun hlook => h.newID_absent hcare.room he hlook p
  have hasks : Asks cfg (fun _ => False) p (w.pes p) o := insertElement_asks hfresh ho
  have htidy := insertElement_tidy (h.buffered p) hfresh ho
  rcases insertElement_founded hfresh ho with hquiet | ⟨id, hf⟩
  · exact hquiet.effect hex hasks htidy hfl
  have hdead : ∀ id, ¬ w.Live x id := hcare.once x ⟨p, he, hf.notRemote, hf.absent⟩
  have hnew : ¬ w.Hosted id := by
    intro hhost
    rcases hf.identified with ⟨hlook, -⟩ | ⟨hlook, hid, -⟩
    · exact hdead id (h.live_of_hosted ((pairRule cfg w).lookupID (h.tables p) hlook) hhost)
    · obtain ⟨hcnt, hbits⟩ := hcare.room p x he hlook
      obtain ⟨idx, hlive⟩ := exists_live_of_hosted (hid ▸ hhost)
      have hpair := h.pair_of_live hlive
      rw [Pair, compressor_of_lookupID hlook] at hpair
      exact h.newID_fresh hcnt hbits idx hpair
  obtain ⟨moves, hhash⟩ := hf.hash
  refine { hex with
    asks := hasks, tidy := htidy, moved := fun id' => ?_, founded := .inr ⟨x, id, hf, hdead⟩ }
  have hsame : System.flights { w.put p net o with sent := w.sent } id' = w.flights id' := by
    rw [flights_put_eq, hfl, hf.wires.not_carried, append_nil]
  by_cases hid : id' = id
  · refine .founded ?_ (hid ▸ hnew) hsame
    rw [put_pes_self, hhash, hid, update_self]
    exact some_ne_none _
  · refine .stays ?_ hsame
    rw [put_pes_self, hhash, update_of_ne hid]

theorem emigrate_effect {toPe : Nat}
    (hshadow : toPe ≠ p → ∀ m ∈ (w.pes p).bufferedShadowElemMsgs, m.elementId ≠ id)
    (hex : Exchange cfg w (w.put p w.net o) p o)
    (ho : emigrate cfg p (w.pes p) id toPe = some o) : Effect cfg w (w.put p w.net o) p o := by
  have hasks : Asks cfg (fun _ => False) p (w.pes p) o := emigrate_asks ho
  have htidy := emigrate_tidy (h.buffered p) hshadow ho
  obtain ⟨record, hrec, hiss, ⟨-, hquiet⟩ | ⟨-, hhash, elements, moves, wires, hsent, hidle⟩⟩ :=
    emigrate_record ho
  · exact hquiet.effect hex hasks htidy fun _ => rfl
  refine { hex with
    asks := hasks
    tidy := htidy
    moved := fun id' => ?_
    founded := .inl ⟨hiss, fun id' hid' => .inl ⟨p, fun hnone => hid' ?_⟩⟩ }
  · have hself : ((w.put p w.net o).pes p).hash id' = update (w.pes p).hash id none id' := by
      rw [put_pes_self, hhash]
    have hfl := flights_put_eq w p w.net o w.sent id'
    rw [hsent, filter_cons, hidle.not_carried] at hfl
    by_cases hid : id' = id
    · rw [hid, if_pos (carries_immigrate ..)] at hfl
      rw [hid, update_self] at hself
      rw [hid]
      exact .leaves (by rw [hrec]; exact some_ne_none _) hself _ hfl
    · rw [if_neg fun hcarr => hid (of_decide_eq_true hcarr).symm, append_nil] at hfl
      rw [update_of_ne hid] at hself
      exact .stays hself hfl
  · rw [hhash]
    by_cases hid : id' = id
    · rw [hid, update_self]
    · rw [update_of_ne hid, hnone]

theorem immigrate_effect {before after : List (Wire Idx)} {idx : Idx}
    {elements : List Nat} {moves : Nat}
    (hnet : w.net = before ++ ⟨p, .immigrate idx id elements moves⟩ :: after)
    (hex : Exchange cfg w (w.put p (before ++ after) o) p o)
    (ho : immigrate cfg p (w.pes p) idx id elements moves = some o) :
    Effect cfg w (w.put p (before ++ after) o) p o := by
  have hmem : ⟨p, .immigrate idx id elements moves⟩ ∈ w.net := by
    rw [hnet]
    simp
  have hident := (pairRule cfg w).identifier idx id (h.wires _ hmem)
  obtain ⟨hhash, hiss, hidle⟩ := immigrate_record hident ho
  -- the record of a location that migrates is nowhere else
  have hflight : w.flights id ≠ [] :=
    ne_nil_of_mem (mem_filter.2 ⟨hmem, carries_immigrate ..⟩)
  have htidy := immigrate_tidy (h.buffered p) hident ((h.hosts id).travels hflight p) ho
  refine { hex with
    asks := immigrate_asks hident ho
    tidy := htidy
    moved := fun id' => ?_
    founded := .inl ⟨hiss, fun id' hid' => ?_⟩ }
  · have hself : ((w.put p (before ++ after) o).pes p).hash id' =
        update (w.pes p).hash id (some ⟨idx, moves⟩) id' := by
      rw [put_pes_self, hhash]
    have hfl := flights_put_eq w p (before ++ after) o w.sent id'
    rw [hidle.not_carried, append_nil, filter_append] at hfl
    have hold : w.flights id' = (before ++ ⟨p, .immigrate idx id elements moves⟩ :: after).filter
        fun wire => wire.call.carries id' := by
      rw [← hnet]
      rfl
    rw [filter_append, filter_cons] at hold
    by_cases hid : id' = id
    · rw [hid, if_pos (carries_immigrate ..)] at hold
      rw [hid] at hfl
      rw [hid, update_self] at hself
      rw [hid]
      exact .arrives (hself ▸ some_ne_none _) _ _ _ hold hfl
    · rw [if_neg fun hcarr => hid (of_decide_eq_true hcarr).symm] at hold
      rw [update_of_ne hid] at hself
      exact .stays hself (hfl.trans hold.symm)
  · by_cases hid : id' = id
    · rw [hid]
      exact .inr hflight
    · rw [hhash, update_of_ne hid] at hid'
      exact .inl ⟨p, hid'⟩

/-- Receiving a call that is neither a migration nor an insertion. -/
theorem receive_tidy {call : Call Idx} (hwire : ⟨p, call⟩ ∈ w.net)
    (himm : ∀ idx id elements moves, call ≠ .immigrate idx id elements moves)
    (hins : ∀ mgr idx, call ≠ .insertElement mgr idx)
    (ho : receive cfg p (w.pes p) call = some o) : Tidy cfg p (w.pes p) o := by
  have hbuf := h.buffered p
  cases received ho with
  | deliver hd => exact hd.tidy hbuf fun _ => rfl
  | learnIdx => exact learnedIdx_tidy hbuf ..
  | learn => exact learned_tidy hbuf ..
  | ownIdx | answerIdx | own | answer => exact .same hbuf
  | waitIdx => exact .add { hbuf with } (fun _ hm => hm) rfl fun _ h => h
  | immigrate => exact absurd rfl (himm _ _ _ _)
  | insertElement => exact absurd rfl (hins _ _)
  | forget => exact (h.addressed _ hwire).elim

/-- Every careful step has such an effect. -/
theorem effect_of_step (hcare : Careful L cfg w e) (hstep : Step cfg w e w') :
    ∃ p o, Effect cfg w w' p o := by
  cases hstep with
  | @send pe mgr idx totalsize type hpe hmgr =>
    exact ⟨pe, _, (sendMsg_quiet _ type).effect (.of_put rfl) (sendMsg_asks _ type)
      (sendMsg_tidy (h.buffered pe) _ type) fun _ => rfl⟩
  | insert hpe hmgr ho =>
    exact ⟨_, _, insertElement_effect h hcare rfl (.of_put rfl) (fun _ => rfl) ho⟩
  | emigrate hpe hto ho =>
    exact ⟨_, _, emigrate_effect h (hcare.siblings _ _ _ rfl) (.of_put rfl) ho⟩
  | destroy => exact absurd rfl (hcare.kept _ _ _)
  | @receive before after wire o hnet ho =>
    obtain ⟨pe, call⟩ := wire
    refine ⟨pe, o, ?_⟩
    obtain ⟨hasks, hex⟩ := h.toIdsOk.receive_asks hcare.room h.toInquired hnet ho
    have hfl : Call.Idle call → ∀ id,
        (before ++ after).filter (fun wire => wire.call.carries id) = w.flights id := by
      intro hidle id
      rw [System.flights, hnet, filter_append, filter_append, filter_cons,
        if_neg (by rw [hidle id]; exact Bool.false_ne_true)]
    by_cases himm : ∀ idx id elements moves, call ≠ .immigrate idx id elements moves
    · have hidle : Call.Idle call := by
        cases call with
        | immigrate => exact absurd rfl (himm _ _ _ _)
        | _ => exact fun _ => rfl
      by_cases hins : ∀ mgr idx, call ≠ .insertElement mgr idx
      · exact (receive_quiet himm hins ho).effect hex hasks
          (receive_tidy h (hnet ▸ mem_append_cons_self) himm hins ho) (hfl hidle)
      · simp only [not_forall, not_not] at hins
        obtain ⟨mgr, idx, rfl⟩ := hins
        exact insertElement_effect h hcare rfl hex (hfl hidle) ho
    · simp only [not_forall, not_not] at himm
      obtain ⟨idx, id, elements, moves, rfl⟩ := himm
      exact immigrate_effect h hnet hex ho

end Steps

/-! ## Questions and answers -/

/-- Processor `q` has asked for the place of the identifier. -/
def AskedId (w : System Idx) (id q : Nat) : Prop :=
  (∃ r, ⟨r, .requestLocation id q⟩ ∈ w.net) ∨ ∃ nowOn, ⟨q, .updateLocation id nowOn⟩ ∈ w.net

/-- The processor has a place for the index. -/
def Finds (cfg : Config Idx) (s : LocMgr Idx) (idx : Idx) : Prop :=
  ∃ id, lookupID cfg s idx = some id ∧ s.id2pe id ≠ none

/-- The home of the index has a place for it, or will hear of one. -/
def HomeTold (cfg : Config Idx) (w : System Idx) (idx : Idx) : Prop :=
  (∃ id nowOn, ⟨cfg.home idx, .updateLocationIdx idx id nowOn⟩ ∈ w.net) ∨
    Finds cfg (w.pes (cfg.home idx)) idx

/-- A question stays asked until what waits for it is gone. -/
theorem Effect.askedId (h : Effect cfg w w' p o) {id q : Nat} (hasked : AskedId w id q) :
    AskedId w' id q ∨ q = p ∧ ∀ m ∈ o.mgr.bufferedRemoteMsgs, m.elementId ≠ id := by
  rcases hasked with ⟨r, hwire⟩ | ⟨nowOn, hwire⟩
  · rcases h.answered _ hwire with hwire | ⟨-, nowOn, hreply⟩
    · exact .inl (.inl ⟨r, hwire⟩)
    · exact .inl (.inr ⟨nowOn, h.sent _ hreply⟩)
  · rcases h.answered _ hwire with hwire | ⟨hto, hmsgs⟩
    · exact .inl (.inr ⟨nowOn, hwire⟩)
    · exact .inr ⟨hto, hmsgs⟩

variable {idx : Idx}

theorem Tidy.finds {s : LocMgr Idx} (h : Tidy cfg p s o) (hfinds : Finds cfg s idx) :
    Finds cfg o.mgr idx := by
  obtain ⟨id, hlook, hplace⟩ := hfinds
  have hne := h.lookup idx (by rw [hlook]; exact some_ne_none _)
  obtain ⟨id', hid'⟩ := ne_none_iff_exists'.1 hne
  refine ⟨id', hid', ?_⟩
  cases hc : cfg.compressor with
  | some code =>
    rw [lookupID, hc] at hlook hid'
    rw [← some.inj (hlook.symm.trans hid')]
    exact h.id2pe id hplace
  | none =>
    rw [lookupID, hc] at hid'
    exact (h.buffered.known hc idx id' hid').resolve_left False.elim

theorem Effect.homeTold (h : Effect cfg w w' p o) (htold : HomeTold cfg w idx) :
    HomeTold cfg w' idx := by
  rcases htold with ⟨id, nowOn, hwire⟩ | hfinds
  · rcases h.answered _ hwire with hwire | ⟨hto, -, hlook, hplace⟩
    · exact .inl ⟨id, nowOn, hwire⟩
    · refine .inr ⟨id, ?_⟩
      change cfg.home idx = p at hto
      rw [hto, h.mgr]
      exact ⟨hlook, hplace⟩
  · refine .inr ?_
    by_cases hp : cfg.home idx = p
    · rw [hp] at hfinds ⊢
      rw [h.mgr]
      exact h.tidy.finds hfinds
    · rwa [h.others _ hp]

/-! ## The invariant -/

/-- What waits has been asked for, and every index that is alive has one identifier, of which its
home hears. -/
structure Orderly (L : IdLayout) (cfg : Config Idx) (w : System Idx) : Prop
    extends Settled L cfg w where
  remote : ∀ p, ∀ m ∈ (w.pes p).bufferedRemoteMsgs, AskedId w m.elementId p
  told : ∀ idx id, w.Live idx id → HomeTold cfg w idx
  alive : ∀ idx id, Issued w idx id → w.Hosted id
  once : ∀ idx id id', Issued w idx id → Issued w idx id' → id = id'

theorem orderly_initial : Orderly L cfg (initialSystem : System Idx) where
  toIdsOk := idsOk_initial
  buffered _ := buffered_initial
  toInquired := inquired_initial
  hosts _ := singleHost_initial
  remote _ _ h := nomatch h
  told _ id h := absurd h (not_live_initial id)
  alive _ _ := fun ⟨_, h⟩ => nomatch h
  once _ _ _ := fun ⟨_, h⟩ => nomatch h

variable {id : Nat}

section Effect

variable (h : Effect cfg w w' p o)

include h

theorem Effect.settled (hw : Settled L cfg w) (hids : IdsOk L cfg w') : Settled L cfg w' where
  toIdsOk := hids
  toInquired := hw.toInquired.step h.toExchange h.asks
  buffered q := by
    by_cases hq : q = p
    · rw [hq, h.mgr]
      exact h.tidy.buffered
    · rw [h.others q hq]
      exact hw.buffered q
  hosts id := (hw.hosts id).moved (h.moved id) h.others

theorem Effect.remote_all (hw : Orderly L cfg w) (q : Nat) :
    ∀ m ∈ (w'.pes q).bufferedRemoteMsgs, AskedId w' m.elementId q := by
  intro m hm
  have hbefore : (∃ m' ∈ (w.pes q).bufferedRemoteMsgs, m'.elementId = m.elementId) ∨
      AskedId w' m.elementId q := by
    by_cases hq : q = p
    · rw [hq] at hm ⊢
      rw [h.mgr] at hm
      rcases h.tidy.remote m hm with hold | ⟨r, hsent⟩
      · exact .inl hold
      · exact .inr (.inl ⟨r, h.sent _ hsent⟩)
    · rw [h.others q hq] at hm
      exact .inl ⟨m, hm, rfl⟩
  rcases hbefore with ⟨m', hm', hid⟩ | hasked
  · have hasked := hw.remote q m' hm'
    rw [hid] at hasked
    refine (h.askedId hasked).resolve_right fun ⟨hq, hgone⟩ => ?_
    rw [hq, h.mgr] at hm
    exact hgone m hm rfl
  · exact hasked

/-- What was given out stays so. -/
theorem Effect.issued_mono (hiss : Issued w idx id) : Issued w' idx id := by
  obtain ⟨q, hq⟩ := hiss
  refine ⟨q, ?_⟩
  by_cases hqp : q = p
  · rw [hqp] at hq ⊢
    rw [h.mgr]
    rcases h.founded with ⟨hsame, -⟩ | ⟨x, id', hf, -⟩
    · rwa [hsame]
    · rcases hf.identified with ⟨-, hsame⟩ | ⟨-, -, hsame⟩
      · rwa [hsame]
      · rw [hsame]
        exact mem_append_left _ hq
  · rwa [h.others q hqp]

/-- An identifier is given out with the record that is made, for an index that was not alive. -/
theorem Effect.issued_cases (hiss : Issued w' idx id) :
    Issued w idx id ∨ o.mgr.hash id ≠ none ∧ id = newID p (w.pes p) ∧ cfg.compressor = none ∧
      ∀ id, ¬ w.Live idx id := by
  obtain ⟨q, hq⟩ := hiss
  by_cases hqp : q = p
  · rw [hqp, h.mgr] at hq
    rcases h.founded with ⟨hsame, -⟩ | ⟨x, id', hf, hdead⟩
    · exact .inl ⟨p, hsame ▸ hq⟩
    · rcases hf.identified with ⟨-, hsame⟩ | ⟨hlook, hnew, hsame⟩
      · exact .inl ⟨p, hsame ▸ hq⟩
      · rw [hsame] at hq
        rcases mem_append.1 hq with hq | hq
        · exact .inl ⟨p, hq⟩
        · obtain ⟨hid, rfl⟩ := Prod.mk.inj (mem_singleton.1 hq)
          obtain ⟨moves, hhash⟩ := hf.hash
          refine .inr ⟨?_, hid.trans hnew, compressor_of_lookupID hlook, hdead⟩
          rw [hid, hhash, update_self]
          exact some_ne_none _
  · rw [h.others q hqp] at hq
    exact .inl ⟨q, hq⟩

variable (hw : Orderly L cfg w) (hids : IdsOk L cfg w')

include hw hids

theorem Effect.told (hlive : w'.Live idx id) :
    HomeTold cfg w' idx := by
  have hpair := hids.pair_of_live hlive
  rcases (h.moved id).hosted_before h.others (hosted_of_live hlive) with hhost | ⟨hhere, hnew⟩
  · obtain ⟨idx', hlive'⟩ := exists_live_of_hosted hhost
    have hpair' : Pair cfg w' idx' id := (hw.pair_of_live hlive').mono h.issued_mono
    rw [← hids.pair_unique hpair' hpair]
    exact h.homeTold (hw.told idx' id hlive')
  · rw [h.mgr] at hhere
    rcases h.founded with ⟨-, hhosted⟩ | ⟨x, id', hf, -⟩
    · exact absurd (hhosted id hhere) hnew
    obtain ⟨moves, hhash⟩ := hf.hash
    have hid : id = id' := by
      by_contra hne
      rw [hhash, update_of_ne hne] at hhere
      exact hnew (.inl ⟨p, hhere⟩)
    rw [← hid] at hf hhash
    have hrec : (w'.pes p).hash id = some ⟨x, moves⟩ := by rw [h.mgr, hhash, update_self]
    have hx : x = idx := hids.pair_unique ((hids.tables p).hash id _ hrec) hpair
    rw [hx] at hf
    rcases hf.told with hhome | ⟨nowOn, hwire⟩
    · refine .inr ⟨id, ?_⟩
      rw [hhome, h.mgr, hf.known.1, (pairRule cfg w').identifier idx id hpair]
      exact ⟨rfl, hf.known.2⟩
    · exact .inl ⟨_, nowOn, h.sent _ hwire⟩

theorem Effect.orderly : Orderly L cfg w' := by
  have hunissued : cfg.compressor = none → ∀ idx, (∀ id, ¬ w.Live idx id) → ∀ id,
      ¬ Issued w idx id := by
    intro hc idx hdead id hiss
    refine hdead id (hw.live_of_hosted ?_ (hw.alive idx id hiss))
    rwa [Pair, hc]
  refine { h.settled hw.toSettled hids with
    remote := h.remote_all hw
    told := fun idx id => h.told hw hids
    alive := fun idx id hiss => ?_
    once := fun idx id id' hid hid' => ?_ }
  · rcases h.issued_cases hiss with hiss | ⟨hhere, -⟩
    · exact (h.moved id).hosted_after h.others (hw.alive idx id hiss)
    · refine .inl ⟨p, ?_⟩
      rwa [h.mgr]
  · rcases h.issued_cases hid with hid | ⟨-, hnew, hc, hdead⟩ <;>
      rcases h.issued_cases hid' with hid' | ⟨-, hnew', hc', hdead'⟩
    · exact hw.once idx id id' hid hid'
    · exact absurd hid (hunissued hc' idx hdead' id)
    · exact absurd hid' (hunissued hc idx hdead id')
    · exact hnew.trans hnew'.symm

end Effect

/-! ## When nothing is in flight -/

/-- The array has an element with the index. -/
def System.Exists (w : System Idx) (mgr : Nat) (idx : Idx) : Prop :=
  ∃ p id record, (w.pes p).hash id = some record ∧ record.idx = idx ∧
    (w.pes p).elements mgr id = true

variable {m : UserMsg Idx}

section Quiet

variable (h : Orderly L cfg w) (hnet : w.net = [])

include h hnet

/-- When nothing is in flight the home of an index that is alive has a place for it. -/
theorem Orderly.finds (hlive : w.Live idx id) : Finds cfg (w.pes (cfg.home idx)) idx := by
  refine (h.told idx id hlive).resolve_left fun ⟨id', nowOn, hwire⟩ => ?_
  rw [hnet] at hwire
  cases hwire

theorem Orderly.index_delivered (hm : m ∈ (w.pes p).bufferedIndexMsgs) : ¬ w.Live m.idx id := by
  intro hlive
  obtain ⟨id', hlook, -⟩ := h.finds hnet hlive
  have hhome : cfg.home m.idx = p := by
    refine h.index_empty (fun wire hwire => ?_) hm (by rw [hlook]; exact some_ne_none _)
    rw [hnet] at hwire
    cases hwire
  have hnone := ((h.buffered p).index m hm).resolve_left False.elim
  rw [← hhome, hlook] at hnone
  cases hnone

theorem Orderly.msgs_delivered (hm : m ∈ (w.pes p).bufferedMsgs) : ¬ w.Live m.idx id := by
  intro hlive
  obtain ⟨hhome, hnone⟩ := (h.buffered p).msgs m hm
  have hnone := hnone.resolve_left False.elim
  have hpair := (h.tables p).bufferedMsgs m hm
  rw [Pair] at hpair
  cases hc : cfg.compressor with
  | some code =>
    rw [hc] at hpair
    obtain ⟨id', hlook, hplace⟩ := h.finds hnet hlive
    rw [lookupID, hc] at hlook
    cases hlook
    rw [hpair, homePeId_compress hc] at hhome
    rw [hhome, ← hpair, hnone] at hplace
    exact hplace rfl
  | none =>
    -- the home of the identifier is the processor that gave it out
    rw [hc] at hpair
    obtain ⟨q, hq⟩ := hpair
    rw [h.home_eq hc hq] at hhome
    rw [hhome] at hq
    exact ((h.buffered p).issued _ _ hq).resolve_left False.elim hnone

theorem Orderly.remote_delivered (hm : m ∈ (w.pes p).bufferedRemoteMsgs) : False := by
  rcases h.remote p m hm with ⟨r, hwire⟩ | ⟨nowOn, hwire⟩
  · rw [hnet] at hwire
    cases hwire
  · rw [hnet] at hwire
    cases hwire

end Quiet

theorem Orderly.shadow_delivered (h : Orderly L cfg w)
    (hm : m ∈ (w.pes p).bufferedShadowElemMsgs) : ¬ w.Exists m.mgr m.idx := by
  rintro ⟨q, id, record, hrec, hidx, helem⟩
  obtain ⟨hhere, hnot⟩ := (h.buffered p).shadow m hm
  have hpair : Pair cfg w m.idx id := hidx ▸ (h.tables q).hash id record hrec
  have hid : m.elementId = id :=
    ((h.tables p).bufferedShadowElemMsgs m hm).id_unique (fun _ => h.once m.idx _ id) hpair
  have hpq : p = q := (h.hosts id).one p q (hid ▸ hhere) (by rw [hrec]; exact some_ne_none _)
  rw [hpq, hid, helem] at hnot
  cases hnot

/-- A message is in one of the four buffers of the processor. -/
def LocMgr.Buffers (s : LocMgr Idx) (m : UserMsg Idx) : Prop :=
  m ∈ s.bufferedMsgs ∨ m ∈ s.bufferedRemoteMsgs ∨ m ∈ s.bufferedIndexMsgs ∨
    m ∈ s.bufferedShadowElemMsgs

/-! ## Runs -/

variable [DecidableEq Idx]

theorem orderly_of_run {es : List (Event Idx)}
    (hrun : Run (fun w e w' => Step cfg w e w' ∧ Careful L cfg w e) initialSystem es w) :
    Orderly L cfg w := by
  refine hrun.invariant orderly_initial fun w e w' h ⟨hstep, hcare⟩ => ?_
  obtain ⟨p, o, heffect⟩ := effect_of_step h.toSettled hcare hstep
  exact heffect.orderly h (h.toIdsOk.step hcare.room hstep)

/-- In every run of careful steps each message that was sent is in exactly one place, and when
nothing is in flight no buffer holds a message for an element that exists. -/
theorem messages_delivered (L : IdLayout) (cfg : Config Idx) {es : List (Event Idx)}
    {w : System Idx}
    (hrun : Run (fun w e w' => Step cfg w e w' ∧ Careful L cfg w e) initialSystem es w) :
    (∀ uid, uid < w.sent.length → w.InOnePlace uid) ∧
      (w.net = [] → ∀ p m, (w.pes p).Buffers m → ¬ w.Exists m.mgr m.idx) := by
  refine ⟨fun uid huid => inOnePlace_of_run (hrun.mono fun _ _ _ h => h.1) huid,
    fun hnet p m hm hexists => ?_⟩
  have h : Orderly L cfg w := orderly_of_run hrun
  have hlive : ∃ id, w.Live m.idx id := by
    obtain ⟨q, id, record, hrec, hidx, -⟩ := hexists
    exact ⟨id, .inl ⟨q, record, hrec, hidx⟩⟩
  obtain ⟨id, hlive⟩ := hlive
  rcases hm with hm | hm | hm | hm
  · exact h.msgs_delivered hnet hm hlive
  · exact h.remote_delivered hnet hm
  · exact h.index_delivered hnet hm hlive
  · exact h.shadow_delivered hm hexists

/-- Two processors, and two bound arrays whose indices are numbers and have their home on processor
0. -/
def boundArrays : Config Nat := { twoPes with managers := [0, 1] }

/-- The event creates and destroys nothing, and no message waits for a sibling of what leaves. -/
def Event.calm (w : System Idx) : Event Idx → Bool
  | .send .. => true
  | .emigrate p id _ => (w.pes p).bufferedShadowElemMsgs.all (·.elementId ≠ id)
  | .receive wire => (Event.receive wire).inserts.isNone
  | _ => false

omit [DecidableEq Idx] in
theorem careful_of_calm {e : Event Idx} (h : e.calm w = true) : Careful L cfg w e := by
  have hins : e.inserts = none := by
    cases e with
    | receive wire => exact isNone_iff_eq_none.1 h
    | insert => cases h
    | _ => rfl
  refine ⟨fun pe idx he => ?_, ?_, fun x hx => ?_, ?_⟩
  · rw [hins] at he
    cases he
  · rintro p mgr id rfl
    cases h
  · obtain ⟨p, he, -⟩ := hx
    rw [hins] at he
    cases he
  · rintro p id toPe rfl - m hm
    exact of_decide_eq_true (all_eq_true.1 h m hm)

theorem messages_delivered_forwarded :
    ∃ w, Run (fun w e w' => Step boundArrays w e w' ∧ Careful defaultLayout boundArrays w e)
        initialSystem (forwardedSend ++ [.receive forwardedCall]) w ∧
      w.net = [] ∧ w.sent.length = 1 ∧ w.invoked.length = 1 ∧
      (∀ uid, uid < w.sent.length → w.InOnePlace uid) ∧
      (w.net = [] → ∀ p m, (w.pes p).Buffers m → ¬ w.Exists m.mgr m.idx) := by
  have hexec : ((initialSystem.exec boundArrays (.insert 1 0 5)).bind fun w =>
      execChecked (fun w e => e.calm w = true) boundArrays w
        (forwardedSend ++ [Event.receive forwardedCall]).tail).any (fun w =>
      w.net = [] ∧ w.sent.length = 1 ∧ w.invoked.length = 1) = true := by
    decide +kernel
  obtain ⟨w, hw, hnet, hsent, hinvoked⟩ := Run.exists_of_any hexec
  obtain ⟨w1, hinsert, hw⟩ := bind_eq_some_iff.1 hw
  have hcreate : Careful defaultLayout boundArrays initialSystem (.insert 1 0 5) := by
    refine ⟨?_, nofun, fun _ _ => not_live_initial, nofun⟩
    rintro pe idx ⟨⟩ -
    decide
  have hrun : Run (fun w e w' => Step boundArrays w e w' ∧ Careful defaultLayout boundArrays w e)
      initialSystem (forwardedSend ++ [.receive forwardedCall]) w :=
    Run.cons ⟨step_of_exec hinsert, hcreate⟩
      ((run_of_execChecked hw).mono fun _ _ _ h => ⟨h.1, careful_of_calm h.2⟩)
  exact ⟨w, hrun, hnet, hsent, hinvoked, messages_delivered defaultLayout boundArrays hrun⟩

/-- Processor 0 creates an element of one array and sends a message to the element of the other
array with the same index. The location moves to processor 1, where that element is then created. -/
def siblingLater : List (Event Nat) :=
  [.insert 0 0 5, .send 0 1 5 0 .inline, .emigrate 0 1 1, .receive ⟨1, .immigrate 5 1 [0] 2⟩,
    .insert 1 1 5]

/-- The message is for the element that processor 1 now has, and stays on processor 0. -/
theorem messages_stranded : ∃ w m, Run (Step boundArrays) initialSystem siblingLater w ∧
    w.net = [] ∧
      m ∈ (w.pes 0).bufferedShadowElemMsgs ∧ w.Exists m.mgr m.idx := by
  have hexec : ((initialSystem : System Nat).execAll boundArrays siblingLater).any (fun w =>
      w.net = [] ∧ (⟨0, 1, 5, 1, 0, 0, 0⟩ : UserMsg Nat) ∈ (w.pes 0).bufferedShadowElemMsgs ∧
        (w.pes 1).hash 1 = some ⟨5, 2⟩ ∧ (w.pes 1).elements 1 1 = true) = true := by
    decide +kernel
  obtain ⟨w, hw, hnet, hmem, hrec, helem⟩ := Run.exists_of_any hexec
  exact ⟨w, _, run_of_execAll hw, hnet, hmem, 1, 1, _, hrec, rfl, helem⟩

end CharmRuntime.Location
