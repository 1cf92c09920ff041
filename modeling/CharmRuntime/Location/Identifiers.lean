import CharmRuntime.Location.ObjId
import CharmRuntime.Location.Pairs

/-!
# Identifiers of array elements

Without an index compressor a processor makes an identifier from its own number and a counter. The
number is shifted by 24 bits, and nothing checks that the counter stays below `2 ^ 24`. As long as
it does, and the number of the processor leaves room in the element part of an object identifier,
different live indices have different identifiers, the processor can be read from an identifier, and
`ck::ObjID` accepts it (`identifiers_unique`). After that the identifiers of a processor are those
of the next one (`identifiers_collide`).
-/

set_option autoImplicit false

namespace CharmRuntime.Location

open Lib Function List

variable {Idx : Type} {cfg : Config Idx}

/-! ## The identifiers that were given out -/

variable {L : IdLayout}

/-- Some processor gave out the identifier for the index. -/
def Issued (w : System Idx) (idx : Idx) (id : Nat) : Prop := ∃ p, (id, idx) ∈ (w.pes p).issued

/-- The identifier is the one of the index: it was given out for it, or the compressor computes
it. -/
def Pair (cfg : Config Idx) (w : System Idx) (idx : Idx) (id : Nat) : Prop :=
  match cfg.compressor with
  | some code => id = code.compress idx
  | none => Issued w idx id

theorem pairRule (cfg : Config Idx) (w : System Idx) : PairRule cfg (Pair cfg w) := by
  constructor
  · intro idx id h
    rw [Config.identifier]
    rw [Pair] at h
    cases hc : cfg.compressor with
    | some code =>
      rw [hc] at h
      exact h.symm
    | none => rfl
  · intro code hc idx
    rw [Pair, hc]

variable {idx : Idx} {id : Nat}

variable {w w' : System Idx} {idx' : Idx}

theorem Pair.mono (h : Issued w idx id → Issued w' idx id) (hpair : Pair cfg w idx id) :
    Pair cfg w' idx id := by
  rw [Pair] at hpair ⊢
  cases hc : cfg.compressor with
  | some code =>
    rw [hc] at hpair
    exact hpair
  | none =>
    rw [hc] at hpair
    exact h hpair

theorem Pair.id_unique {id' : Nat}
    (h : cfg.compressor = none → Issued w idx id → Issued w idx id' → id = id')
    (hid : Pair cfg w idx id) (hid' : Pair cfg w idx id') : id = id' := by
  rw [Pair] at hid hid'
  cases hc : cfg.compressor with
  | some code =>
    rw [hc] at hid hid'
    exact hid.trans hid'.symm
  | none =>
    rw [hc] at hid hid'
    exact h hc hid hid'

/-- The invariant: every processor numbers its identifiers below the next multiple of `2 ^ 24`, and
the tables and the calls in flight have only pairs that were given out. -/
structure IdsOk (L : IdLayout) (cfg : Config Idx) (w : System Idx) : Prop where
  idCounter_le : ∀ p, (w.pes p).idCounter ≤ 2 ^ 24
  numbered : ∀ p id idx, (id, idx) ∈ (w.pes p).issued →
    ∃ k, k < (w.pes p).idCounter ∧ id = p * 2 ^ 24 + k ∧ (p + 1) * 2 ^ 24 ≤ 2 ^ L.elementBits
  single : ∀ p id idx idx', (id, idx) ∈ (w.pes p).issued →
    (id, idx') ∈ (w.pes p).issued → idx = idx'
  tables : ∀ p, TablesIn (Pair cfg w) (w.pes p)
  wires : AllCalls (Call.In (Pair cfg w)) w.net

/-- If the event has to give out an identifier, the counter is below `2 ^ 24`, and identifiers with
this processor number fit in an object identifier. -/
def RoomForID (L : IdLayout) (cfg : Config Idx) (w : System Idx) (e : Event Idx) : Prop :=
  ∀ pe idx, e.inserts = some (pe, idx) → lookupID cfg (w.pes pe) idx = none →
    (w.pes pe).idCounter < 2 ^ 24 ∧ (pe + 1) * 2 ^ 24 ≤ 2 ^ L.elementBits

instance (L : IdLayout) (cfg : Config Idx) (w : System Idx) (e : Event Idx) :
    Decidable (RoomForID L cfg w e) :=
  decidable_of_iff (∀ q ∈ e.inserts, lookupID cfg (w.pes q.1) q.2 = none →
      (w.pes q.1).idCounter < 2 ^ 24 ∧ (q.1 + 1) * 2 ^ 24 ≤ 2 ^ L.elementBits)
    ⟨fun h pe idx => h (pe, idx), fun h q => h q.1 q.2⟩

theorem idsOk_initial : IdsOk L cfg (initialSystem : System Idx) where
  idCounter_le _ := by
    show 1 ≤ 2 ^ 24
    decide
  numbered _ _ _ h := nomatch h
  single _ _ _ _ h := nomatch h
  tables := tablesIn_initial
  wires := .nil

variable {p : Nat} {o : Outcome Idx} {net : List (Wire Idx)} {s : LocMgr Idx}

section

variable (h : IdsOk L cfg w)

include h

/-- A processor that has run a function within the pairs that were given out. -/
theorem IdsOk.put
    (hnet : net ⊆ w.net) (ho : KeepsTo (Pair cfg w) (w.pes p) o) : IdsOk L cfg (w.put p net o) := by
  have hpes : ∀ q, ((w.put p net o).pes q).issued = (w.pes q).issued ∧
      ((w.put p net o).pes q).idCounter = (w.pes q).idCounter := by
    intro q
    by_cases hq : q = p
    · rw [hq, put_pes_self]
      exact ⟨ho.issued, ho.idCounter⟩
    · rw [put_pes_of_ne hq]
      exact ⟨rfl, rfl⟩
  have hpair : ∀ idx id, Pair cfg w idx id → Pair cfg (w.put p net o) idx id :=
    fun idx id => Pair.mono fun ⟨q, hq⟩ => ⟨q, by rwa [(hpes q).1]⟩
  refine ⟨fun q => ?_, fun q id idx hid => ?_, fun q id idx idx' hid hid' => ?_, fun q => ?_, ?_⟩
  · rw [(hpes q).2]
    exact h.idCounter_le q
  · rw [(hpes q).1] at hid
    rw [(hpes q).2]
    exact h.numbered q id idx hid
  · rw [(hpes q).1] at hid hid'
    exact h.single q id idx idx' hid hid'
  · by_cases hq : q = p
    · rw [hq, put_pes_self]
      exact ho.tables.mono hpair
    · rw [put_pes_of_ne hq]
      exact (h.tables q).mono hpair
  · exact ((h.wires.subset hnet).append ho.wires).mono fun call hcall => hcall.mono hpair

/-- An identifier that was given out shows the processor that made it. -/
theorem IdsOk.div_eq (hid : (id, idx) ∈ (w.pes p).issued) : id / 2 ^ 24 = p := by
  obtain ⟨k, hk, hid, -⟩ := h.numbered p id idx hid
  have := h.idCounter_le p
  omega

theorem IdsOk.home_eq (hc : cfg.compressor = none) (hid : (id, idx) ∈ (w.pes p).issued) :
    homePeId cfg id = p := by
  rw [homePeId, hc]
  rw [Nat.shiftRight_eq_div_pow, h.div_eq hid]

theorem IdsOk.lt_elementBits (hid : (id, idx) ∈ (w.pes p).issued) : id < 2 ^ L.elementBits := by
  obtain ⟨k, hk, hid, hroom⟩ := h.numbered p id idx hid
  have := h.idCounter_le p
  omega

/-- An identifier is given out for one index only. -/
theorem IdsOk.issued_unique (hid : Issued w idx id) (hid' : Issued w idx' id) : idx = idx' := by
  obtain ⟨p, hp⟩ := hid
  obtain ⟨q, hq⟩ := hid'
  have hpq : p = q := (h.div_eq hp).symm.trans (h.div_eq hq)
  rw [hpq] at hp
  exact h.single q id idx idx' hp hq

omit h in
theorem newID_eq (hcnt : s.idCounter < 2 ^ 24)
    (hroom : (p + 1) * 2 ^ 24 ≤ 2 ^ L.elementBits) : newID p s = p * 2 ^ 24 + s.idCounter := by
  have hbits : 2 ^ L.elementBits ≤ 2 ^ 61 := by
    apply Nat.pow_le_pow_right (by decide)
    have := L.elementBits_add
    omega
  rw [newID, Nat.shiftLeft_eq, Nat.mod_eq_of_lt (by omega), add_comm]

/-- The next identifier of a processor was not given out before. -/
theorem IdsOk.newID_fresh
    (hcnt : (w.pes p).idCounter < 2 ^ 24) (hroom : (p + 1) * 2 ^ 24 ≤ 2 ^ L.elementBits)
    (idx : Idx) : ¬ Issued w idx (newID p (w.pes p)) := by
  rintro ⟨q, hq⟩
  have hnew : newID p (w.pes p) = p * 2 ^ 24 + (w.pes p).idCounter := newID_eq hcnt hroom
  have hdiv := h.div_eq hq
  obtain ⟨k, hk, hid, -⟩ := h.numbered q _ idx hq
  have hqp : q = p := by omega
  rw [hqp] at hk hid
  omega

theorem IdsOk.pair_unique (hid : Pair cfg w idx id) (hid' : Pair cfg w idx' id) : idx = idx' := by
  rw [Pair] at hid hid'
  cases hc : cfg.compressor with
  | some code =>
    rw [hc] at hid hid'
    rw [← code.decompress_compress idx, ← code.decompress_compress idx', ← hid, ← hid']
  | none =>
    rw [hc] at hid hid'
    exact h.issued_unique hid hid'

end

/-- The index is alive and has the identifier: there is a record, or it is migrating. -/
def System.Live (w : System Idx) (idx : Idx) (id : Nat) : Prop :=
  (∃ p record, (w.pes p).hash id = some record ∧ record.idx = idx) ∨
    ∃ pe elements moves, ⟨pe, .immigrate idx id elements moves⟩ ∈ w.net

theorem IdsOk.pair_of_live (h : IdsOk L cfg w) (hlive : w.Live idx id) : Pair cfg w idx id := by
  rcases hlive with ⟨p, record, hrec, rfl⟩ | ⟨pe, elements, moves, hwire⟩
  · exact (h.tables p).hash id record hrec
  · exact h.wires _ hwire

theorem not_live_initial (id : Nat) : ¬ (initialSystem : System Idx).Live idx id := by
  rintro (⟨p, record, hrec, -⟩ | ⟨_, _, _, hwire⟩)
  · exact nomatch hrec
  · exact nomatch hwire

/-- The element that a message is for is on the processor. -/
def LocMgr.Hosts (s : LocMgr Idx) (m : UserMsg Idx) : Prop :=
  ∃ record, s.hash m.elementId = some record ∧ record.idx = m.idx ∧
    s.elements m.mgr m.elementId = true

theorem deliverMsg_invoked {msg m : UserMsg Idx} {i : Option Idx} {type : DeliverType}
    (hm : m ∈ (deliverMsg cfg p s msg i type).invoked) :
    m = msg ∧ ∃ record, s.hash msg.elementId = some record ∧
    s.elements msg.mgr msg.elementId = true := by
  rw [deliverMsg] at hm
  cases i <;> grind [deliverUnknown]

variable [DecidableEq Idx] {mgr : Nat} {e : Event Idx} {x : Idx}

/-- The system after a processor has given out an identifier. -/
def System.issue (cfg : Config Idx) (w : System Idx) (p : Nat) (idx : Idx) : System Idx :=
  { w with
    pes := update w.pes p (insertID cfg (withID p (w.pes p) idx) idx (newID p (w.pes p))) }

theorem issue_pes_self :
    (w.issue cfg p idx).pes p = insertID cfg (withID p (w.pes p) idx) idx (newID p (w.pes p)) :=
  update_self ..

theorem mem_issue {i : Idx} : (id, i) ∈ ((w.issue cfg p idx).pes p).issued ↔
      (id, i) ∈ (w.pes p).issued ∨ id = newID p (w.pes p) ∧ i = idx := by
  rw [issue_pes_self, insertID_issued, withID, mem_append, mem_singleton, Prod.mk.injEq]

theorem issue_pes_of_ne {q : Nat} (h : q ≠ p) :
    (w.issue cfg p idx).pes q = w.pes q := update_of_ne h ..

theorem issued_issue (h : Issued w idx' id) : Issued (w.issue cfg p idx) idx' id := by
  obtain ⟨q, hq⟩ := h
  refine ⟨q, ?_⟩
  by_cases hqp : q = p
  · rw [hqp] at hq ⊢
    exact mem_issue.2 (.inl hq)
  · rwa [issue_pes_of_ne hqp]

/-- A processor gives out an identifier, when there is room. -/
theorem IdsOk.issue (hc : cfg.compressor = none) (h : IdsOk L cfg w)
    (hcnt : (w.pes p).idCounter < 2 ^ 24) (hroom : (p + 1) * 2 ^ 24 ≤ 2 ^ L.elementBits) :
    IdsOk L cfg (w.issue cfg p idx) := by
  have hnew : newID p (w.pes p) = p * 2 ^ 24 + (w.pes p).idCounter := newID_eq hcnt hroom
  have hcount : ((w.issue cfg p idx).pes p).idCounter = (w.pes p).idCounter + 1 := by
    rw [issue_pes_self, insertID_idCounter]
    exact Nat.mod_eq_of_lt (by omega)
  -- the counter makes the new identifier differ from all earlier ones
  have hfresh : ∀ idx', (newID p (w.pes p), idx') ∉ (w.pes p).issued :=
    fun idx' hid => h.newID_fresh hcnt hroom idx' ⟨p, hid⟩
  have hpairs : ∀ i j, Pair cfg w i j → Pair cfg (w.issue cfg p idx) i j :=
    fun i j => Pair.mono issued_issue
  refine ⟨fun q => ?_, fun q id i hid => ?_, fun q id i i' hid hid' => ?_, fun q => ?_,
    h.wires.mono fun call hcall => hcall.mono hpairs⟩
  · by_cases hq : q = p
    · rw [hq, hcount]
      omega
    · rw [issue_pes_of_ne hq]
      exact h.idCounter_le q
  · by_cases hq : q = p
    · rw [hq] at hid
      rw [hq, hcount]
      rcases mem_issue.1 hid with hid | ⟨hid, -⟩
      · obtain ⟨k, hk, hk', -⟩ := h.numbered p id i hid
        exact ⟨k, by omega, hk', hroom⟩
      · exact ⟨_, by omega, hid.trans hnew, hroom⟩
    · rw [issue_pes_of_ne hq] at hid ⊢
      exact h.numbered q id i hid
  · by_cases hq : q = p
    · rw [hq] at hid hid'
      rcases mem_issue.1 hid with hid | ⟨hid, hi⟩ <;>
        rcases mem_issue.1 hid' with hid' | ⟨hid', hi'⟩
      · exact h.single p id i i' hid hid'
      · exact absurd hid (hid' ▸ hfresh i)
      · exact absurd hid' (hid ▸ hfresh i')
      · exact hi.trans hi'.symm
    · rw [issue_pes_of_ne hq] at hid hid'
      exact h.single q id i i' hid hid'
  · by_cases hq : q = p
    · have hpair : Pair cfg (w.issue cfg p idx) idx (newID p (w.pes p)) := by
        rw [Pair, hc]
        exact ⟨p, mem_issue.2 (.inr ⟨rfl, rfl⟩)⟩
      have hbase : TablesIn (Pair cfg (w.issue cfg p idx)) (withID p (w.pes p) idx) :=
        { (h.tables p).mono hpairs with }
      rw [hq, issue_pes_self]
      exact hbase.insertID hpair
    · rw [issue_pes_of_ne hq]
      exact (h.tables q).mono hpairs

/-! ## Runs -/

/-- An insertion, from a call or from the program. -/
theorem IdsOk.insertElement (h : IdsOk L cfg w)
    (hnet : net ⊆ w.net) (hroom : lookupID cfg (w.pes p) idx = none →
      (w.pes p).idCounter < 2 ^ 24 ∧ (p + 1) * 2 ^ 24 ≤ 2 ^ L.elementBits)
    (ho : insertElement cfg p (w.pes p) mgr idx = some o) : IdsOk L cfg (w.put p net o) := by
  cases inserted ho with
  | passed => exact h.put hnet ⟨h.tables p, .single trivial, rfl, rfl⟩
  | @added s' id _ hid _ hadd =>
    -- the state in which the index has an identifier
    have hkeeps : ∀ {w' : System Idx}, IdsOk L cfg w' → s' = w'.pes p → Pair cfg w' idx id →
        KeepsTo (Pair cfg w') (w'.pes p) o := by
      intro w' h' hs' hpair
      rw [← hs']
      have htables : TablesIn (Pair cfg w') s' := by
        rw [hs']
        exact h'.tables p
      cases hadd with
      | here => exact addedHere_keepsTo htables mgr id
      | new => exact addedNew_keepsTo htables (pairRule cfg w') hpair mgr _
    rcases hid with ⟨hlook, hs'⟩ | ⟨hlook, hid, hs'⟩
    · exact h.put hnet (hkeeps h hs' ((pairRule cfg w).lookupID (h.tables p) hlook))
    · have hc : cfg.compressor = none := compressor_of_lookupID hlook
      have h' : IdsOk L cfg (w.issue cfg p idx) := h.issue hc (hroom hlook).1 (hroom hlook).2
      have hput : w.put p net o = (w.issue cfg p idx).put p net o := by
        simp [System.put, System.issue]
      have hpair : Pair cfg (w.issue cfg p idx) idx id := by
        rw [Pair, hc]
        exact ⟨p, mem_issue.2 (.inr ⟨hid, rfl⟩)⟩
      rw [hput]
      refine h'.put hnet (hkeeps h' ?_ hpair)
      rw [hs', hid, issue_pes_self]

/-- Every step for which there is room keeps the invariant. -/
theorem IdsOk.step (h : IdsOk L cfg w) (hroom : RoomForID L cfg w e) (hstep : Step cfg w e w') :
    IdsOk L cfg w' := by
  cases he : e.inserts with
  | some q =>
    obtain ⟨mgr, net, o, ho, hnet, rfl⟩ := hstep.inserts he
    exact h.insertElement hnet (fun hlook => hroom _ _ he hlook) ho
  | none =>
    obtain ⟨p, net, o, sent, hkeeps, hnet, rfl⟩ :=
      hstep.keepsTo (pairRule cfg w) h.tables h.wires he
    obtain ⟨h1, h2, h3, h4, h5⟩ := h.put hnet hkeeps
    exact ⟨h1, h2, h3, h4, h5⟩

/-- Only an insertion gives out an identifier, for the index that is inserted if it has none. -/
theorem insertElement_issued
    (ho : insertElement cfg p s mgr idx = some o) (hid : (id, x) ∈ o.mgr.issued) :
    (id, x) ∈ s.issued ∨ x = idx ∧ lookupID cfg s idx = none := by
  cases inserted ho with
  | passed => exact .inl hid
  | @added s' _ _ hident _ hadd =>
    have hid' : (id, x) ∈ s'.issued := by
      cases hadd <;> exact hid
    rcases hident with ⟨-, rfl⟩ | ⟨hlook, -, rfl⟩
    · exact .inl hid'
    · rw [insertID_issued, withID] at hid'
      rcases mem_append.1 hid' with hid' | hid'
      · exact .inl hid'
      · exact .inr ⟨(Prod.mk.inj (mem_singleton.1 hid')).2, hlook⟩

variable (cfg w e x) in
/-- The event inserts the index on a processor that has no identifier for it. -/
def IssuesFor : Prop :=
  ∃ q, e.inserts = some (q, x) ∧ lookupID cfg (w.pes q) x = none

theorem IdsOk.issued_step (h : IdsOk L cfg w) (hstep : Step cfg w e w')
    (hid : (id, x) ∈ (w'.pes p).issued) : (id, x) ∈ (w.pes p).issued ∨ IssuesFor cfg w e x := by
  -- a processor that has run a function
  have hput : ∀ {q} (net) {o : Outcome Idx}, (id, x) ∈ ((w.put q net o).pes p).issued →
      ((id, x) ∈ o.mgr.issued → (id, x) ∈ (w.pes q).issued ∨ IssuesFor cfg w e x) →
      (id, x) ∈ (w.pes p).issued ∨ IssuesFor cfg w e x := by
    intro q net o hmem ho
    by_cases hq : p = q
    · rw [hq, put_pes_self] at hmem
      rw [hq]
      exact ho hmem
    · rw [put_pes_of_ne hq] at hmem
      exact .inl hmem
  cases he : e.inserts with
  | some q =>
    obtain ⟨mgr, net, o, ho, -, rfl⟩ := hstep.inserts he
    refine hput net hid fun hmem => ?_
    rcases insertElement_issued ho hmem with hmem | ⟨rfl, hlook⟩
    · exact .inl hmem
    · exact .inr ⟨_, he, hlook⟩
  | none =>
    obtain ⟨q, net, o, sent, hkeeps, -, rfl⟩ := hstep.keepsTo (pairRule cfg w) h.tables h.wires he
    exact hput net hid fun hmem => .inl (hkeeps.issued ▸ hmem)

/-- In every run in which identifiers are given out only while there is room, two live indices have
different identifiers, the home of an identifier is the processor that made it, and `ck::ObjID`
accepts every identifier with every collection, and returns both. -/
theorem identifiers_unique (L : IdLayout) (cfg : Config Idx) (hc : cfg.compressor = none)
    {es : List (Event Idx)}
    (hrun : Run (fun w e w' => Step cfg w e w' ∧ RoomForID L cfg w e) initialSystem es w) :
    (∀ idx idx' id, w.Live idx id → w.Live idx' id → idx = idx') ∧
      (∀ p id idx, (id, idx) ∈ (w.pes p).issued → homePeId cfg id = p) ∧
      ∀ idx id, (∃ p, lookupID cfg (w.pes p) idx = some id) ∨ w.Live idx id →
        ∀ gid, gid < 2 ^ L.collectionBits → L.Accepts gid id := by
  have h : IdsOk L cfg w :=
    hrun.invariant idsOk_initial fun _ _ _ h hstep => h.step hstep.2 hstep.1
  have hissued : ∀ idx id, Pair cfg w idx id → Issued w idx id := by
    intro idx id hpair
    rwa [Pair, hc] at hpair
  refine ⟨fun idx idx' id hlive hlive' => ?_, fun p id idx hid => ?_,
    fun idx id hused gid hgid => ?_⟩
  · exact h.issued_unique (hissued _ _ (h.pair_of_live hlive)) (hissued _ _ (h.pair_of_live hlive'))
  · exact h.home_eq hc hid
  · have hpair : Pair cfg w idx id := by
      rcases hused with ⟨p, hp⟩ | hlive
      · exact (pairRule cfg w).lookupID (h.tables p) hp
      · exact h.pair_of_live hlive
    obtain ⟨p, hp⟩ := hissued idx id hpair
    exact (L.accepts_iff hgid id).2 (h.lt_elementBits hp)

/-- Two processors, and one array whose indices are numbers and have their home on processor 0. -/
def twoPes : Config Nat := ⟨2, fun _ => 0, [0], none, 0, fun _ => by decide⟩

theorem identifiers_unique_two_elements :
    ∃ w, Run (fun w e w' => Step twoPes w e w' ∧ RoomForID defaultLayout twoPes w e) initialSystem
        [.insert 1 0 5, .insert 0 0 6] w ∧ w.Live 5 (2 ^ 24 + 1) ∧ w.Live 6 1 ∧
      (∀ idx idx' id, w.Live idx id → w.Live idx' id → idx = idx') ∧
      (∀ p id idx, (id, idx) ∈ (w.pes p).issued → homePeId twoPes id = p) ∧
      ∀ idx id, (∃ p, lookupID twoPes (w.pes p) idx = some id) ∨ w.Live idx id →
        ∀ gid, gid < 2 ^ defaultLayout.collectionBits → defaultLayout.Accepts gid id := by
  have hexec : (execChecked (RoomForID defaultLayout twoPes) twoPes initialSystem
      [.insert 1 0 5, .insert 0 0 6]).any (fun w => (w.pes 1).hash (2 ^ 24 + 1) = some ⟨5, 1⟩ ∧
        (w.pes 0).hash 1 = some ⟨6, 1⟩) = true := by
    decide +kernel
  obtain ⟨w, hw, hfive, hsix⟩ := Run.exists_of_any hexec
  have hrun := run_of_execChecked hw
  exact ⟨w, hrun, .inl ⟨1, _, hfive, rfl⟩, .inl ⟨0, _, hsix, rfl⟩,
    identifiers_unique defaultLayout twoPes rfl hrun⟩

theorem insertElement_invoked (h : insertElement cfg p s mgr idx = some o) : o.invoked = [] := by
  cases inserted h with
  | passed => rfl
  | added _ _ hadd => cases hadd <;> rfl

/-- The processor of an event. -/
def Event.pe : Event Idx → Nat
  | .send pe .. | .insert pe .. | .emigrate pe .. | .destroy pe .. => pe
  | .receive wire => wire.dest

/-- In such runs, whatever is created, moved or destroyed, a processor invokes entry methods only
for messages whose element it has. -/
theorem invoked_at_addressee {es : List (Event Idx)}
    (hrun : Run (fun w e w' => Step cfg w e w' ∧ RoomForID L cfg w e) initialSystem es w)
    (hstep : Step cfg w e w') :
    ∃ ms, w'.invoked = w.invoked ++ ms ∧ ∀ m ∈ ms, (w.pes e.pe).Hosts m := by
  have h : IdsOk L cfg w :=
    hrun.invariant idsOk_initial fun _ _ _ h hstep => h.step hstep.2 hstep.1
  have hdeliver : ∀ {p msg i type}, Pair cfg w msg.idx msg.elementId →
      ∀ m ∈ (deliverMsg cfg p (w.pes p) msg i type).invoked, (w.pes p).Hosts m := by
    intro p msg i type hpair m hm
    obtain ⟨rfl, record, hrec, helem⟩ := deliverMsg_invoked hm
    exact ⟨record, hrec, h.pair_unique ((h.tables p).hash _ _ hrec) hpair, helem⟩
  cases hstep with
  | @send pe =>
    refine ⟨_, rfl, ?_⟩
    rw [sendMsg]
    split
    · next hid => exact hdeliver ((pairRule cfg w).lookupID (h.tables pe) hid)
    · dsimp only
      split <;> simp
  | insert _ _ ho => exact ⟨_, rfl, by simp [insertElement_invoked ho]⟩
  | emigrate _ _ ho =>
    obtain ⟨_, -, ⟨-, rfl⟩ | ⟨-, rfl⟩⟩ := emigrate_cases ho <;> exact ⟨_, rfl, by simp⟩
  | destroy _ _ ho => obtain ⟨_, -, rfl | rfl⟩ := reclaim_cases ho <;> exact ⟨_, rfl, by simp⟩
  | @receive before after wire o hnet ho =>
    have hcall := h.wires wire (hnet ▸ mem_append_cons_self)
    refine ⟨_, rfl, ?_⟩
    rw [Event.pe]
    generalize wire.call = call at hcall ho
    cases call with
    | deliver msg =>
      cases ho
      exact hdeliver hcall
    | immigrate idx id =>
      rw [receive, immigrate_eq _ ((pairRule cfg w).identifier _ _ hcall)] at ho
      cases ho
      simp
    | insertElement => simp [insertElement_invoked ho]
    | _ => cases received ho <;> simp [learned, learnedIdx]

/-- Processor 0 sends a message to an element of processor 1, which moves to processor 0 before the
message comes. Processor 1 forwards it. -/
def forwardedSend : List (Event Nat) :=
  [.insert 1 0 5, .receive ⟨0, .updateLocationIdx 5 (2 ^ 24 + 1) ⟨1, 1⟩⟩, .send 0 0 5 0 .inline,
    .emigrate 1 (2 ^ 24 + 1) 0, .receive ⟨1, .deliver ⟨0, 0, 5, 2 ^ 24 + 1, 0, 1, 0⟩⟩,
    .receive ⟨0, .immigrate 5 (2 ^ 24 + 1) [0] 2⟩]

/-- The call with which the message comes to processor 0. -/
def forwardedCall : Wire Nat := ⟨0, .deliver ⟨0, 0, 5, 2 ^ 24 + 1, 0, 2, 0⟩⟩

theorem invoked_at_addressee_forwarded : ∃ w w',
    Run (fun w e w' => Step twoPes w e w' ∧ RoomForID defaultLayout twoPes w e) initialSystem
      forwardedSend w ∧
    Step twoPes w (.receive forwardedCall) w' ∧ w.invoked = [] ∧ w'.invoked.length = 1 ∧
    ∃ ms, w'.invoked = w.invoked ++ ms ∧ ∀ m ∈ ms, (w.pes 0).Hosts m := by
  have hexec : (execChecked (RoomForID defaultLayout twoPes) twoPes initialSystem
      forwardedSend).any (fun w => w.invoked = [] ∧
        (w.exec twoPes (.receive forwardedCall)).any (fun w' => w'.invoked.length = 1) = true) =
      true := by
    decide +kernel
  obtain ⟨w, hw, hnone, hlast⟩ := Run.exists_of_any hexec
  obtain ⟨w', hw', hone⟩ := Run.exists_of_any hlast
  have hrun := run_of_execChecked hw
  have hstep := step_of_exec hw'
  exact ⟨w, w', hrun, hstep, hnone, hone, invoked_at_addressee hrun hstep⟩

/-- Processor 0 has inserted the indices below `k`, with the identifiers from 1 on. -/
structure Filled (k : Nat) (w : System Nat) : Prop where
  idCounter : (w.pes 0).idCounter = k + 1
  idx2id : ∀ idx, k ≤ idx → (w.pes 0).idx2id idx = none
  last : k ≠ 0 → (w.pes 0).hash k = some ⟨k - 1, 1⟩
  blank : ∀ id, k < id → (w.pes 0).hash id = none ∧ (w.pes 0).id2pe id = none ∧
    ∀ mgr, (w.pes 0).elements mgr id = false
  other : w.pes 1 = initialMgr

theorem filled_zero : Filled 0 initialSystem :=
  ⟨rfl, fun _ _ => rfl, fun h => absurd rfl h, fun _ _ => ⟨rfl, rfl, fun _ => rfl⟩, rfl⟩

/-- The counter has 64 bits, so the next insertion is like the ones before. -/
theorem filled_succ {k : Nat} {w : System Nat} (h : Filled k w) (hk : k < 2 ^ 32) :
    ∃ w', Step twoPes w (.insert 0 0 k) w' ∧ Filled (k + 1) w' := by
  have hnew : newID 0 (w.pes 0) = k + 1 := by
    rw [newID, h.idCounter]
    omega
  obtain ⟨hhash, hplace, helem⟩ := h.blank (k + 1) k.lt_add_one
  have hins : insertElement twoPes 0 (w.pes 0) 0 k = some _ :=
    insertElement_new (h.idx2id k le_rfl) (hnew ▸ hhash) (hnew ▸ hplace) (hnew ▸ helem 0)
  rw [hnew] at hins
  refine ⟨_, .insert (by decide) (by decide) hins, ?_⟩
  have hcnt : ((w.pes 0).idCounter + 1) % 2 ^ 64 = k + 1 + 1 := by
    rw [h.idCounter]
    omega
  constructor
  · exact hcnt
  · intro idx hidx
    show update (update (w.pes 0).idx2id k _) k _ idx = none
    rw [update_of_ne (by omega), update_of_ne (by omega)]
    exact h.idx2id idx (by omega)
  · exact fun _ => update_self _ _ _
  · intro id hid
    obtain ⟨hhash, hplace, helem⟩ := h.blank id (by omega)
    have hne : id ≠ k + 1 := by omega
    refine ⟨(update_of_ne hne _ _).trans hhash, (update_of_ne hne _ _).trans hplace, fun mgr => ?_⟩
    show update (w.pes 0).elements 0 (update ((w.pes 0).elements 0) (k + 1) true) mgr id = false
    by_cases hmgr : mgr = 0
    · rw [hmgr, update_self, update_of_ne hne]
      exact helem 0
    · rw [update_of_ne hmgr]
      exact helem mgr
  · exact h.other

theorem exists_filled (k : Nat) (hk : k ≤ 2 ^ 32) :
    ∃ es w, Run (Step twoPes) initialSystem es w ∧ Filled k w := by
  induction k with
  | zero => exact ⟨[], _, .nil, filled_zero⟩
  | succ k ih =>
    obtain ⟨es, w, hrun, hfilled⟩ := ih (by omega)
    obtain ⟨w', hstep, hfilled'⟩ := filled_succ hfilled (by omega)
    exact ⟨_, w', hrun.snoc hstep, hfilled'⟩

/-- After `2 ^ 24 + 1` insertions on processor 0 the first one on processor 1 gets the identifier of
an element of processor 0; that identifier has its home on processor 1. -/
theorem identifiers_collide : ∃ es w, Run (Step twoPes) initialSystem es w ∧
      w.Live (2 ^ 24) (2 ^ 24 + 1) ∧ w.Live (2 ^ 24 + 1) (2 ^ 24 + 1) ∧
      homePeId twoPes (2 ^ 24 + 1) = 1 := by
  obtain ⟨es, w, hrun, hfilled⟩ := exists_filled (2 ^ 24 + 1) (by decide)
  have hnew : newID 1 (w.pes 1) = 2 ^ 24 + 1 := by
    rw [hfilled.other]
    rfl
  have hinsert : insertElement twoPes 1 (w.pes 1) 0 (2 ^ 24 + 1) = some _ :=
    insertElement_new (by rw [hfilled.other]; rfl) (by rw [hfilled.other]; rfl)
      (by rw [hfilled.other]; rfl) (by rw [hfilled.other]; rfl)
  rw [hnew] at hinsert
  refine ⟨_, _, hrun.snoc (.insert (by decide) (by decide) hinsert), .inl ⟨0, ⟨2 ^ 24, 1⟩, ?_, rfl⟩,
    .inl ⟨1, ⟨2 ^ 24 + 1, 1⟩, ?_, rfl⟩, by decide⟩
  · exact hfilled.last (by decide)
  · show update (w.pes 1).hash (2 ^ 24 + 1) (some ⟨2 ^ 24 + 1, 1⟩) (2 ^ 24 + 1) = _
    rw [update_self]

end CharmRuntime.Location
