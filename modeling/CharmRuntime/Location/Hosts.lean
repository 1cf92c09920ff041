import CharmRuntime.Location.Buffers
import CharmRuntime.Location.Tracking

/-!
# Where the records are

In runs without deletions, in which a record for an index is made only when the index is not alive,
an identifier has at most one record, and none while it migrates (`SingleHost`). Most functions
leave the records alone (`Quiet`); for each identifier a step of the system leaves its record, sends
it away, receives it, or makes it (`Moved`).
-/

set_option autoImplicit false

namespace CharmRuntime.Location

open Lib List Function

variable {Idx : Type} {cfg : Config Idx} {p : Nat} {s : LocMgr Idx} {o : Outcome Idx}

/-! ## Functions that leave the records alone -/

/-- The call brings no record. -/
def Call.Idle (call : Call Idx) : Prop := ∀ id, call.carries id = false

/-- The records and the identifiers that were given out are left alone, and none is sent. -/
structure Quiet (s : LocMgr Idx) (o : Outcome Idx) : Prop where
  hash : o.mgr.hash = s.hash
  issued : o.mgr.issued = s.issued
  wires : AllCalls Call.Idle o.sent

theorem Delivered.quiet {msg : UserMsg Idx} {idx : Option Idx} (h : Delivered cfg p s msg idx o) :
    Quiet s o := by
  cases h with
  | sent | guessed => exact ⟨rfl, rfl, .single fun _ => rfl⟩
  | invoked => exact ⟨rfl, rfl, .multiHop fun _ => rfl⟩
  | shadow | atHome => exact ⟨rfl, rfl, .nil⟩
  | asked => exact ⟨rfl, rfl, .ite fun _ => rfl⟩

theorem addedHere_quiet (mgr id : Nat) : Quiet s (addedHere p s mgr id) :=
  ⟨rfl, rfl, .map fun _ _ _ => rfl⟩

variable [DecidableEq Idx]

theorem sendMsg_quiet (msg : UserMsg Idx) (type : DeliverType) :
    Quiet s (sendMsg cfg p s msg type) := by
  rw [sendMsg]
  split
  · exact (deliverMsg_delivered ..).quiet
  · dsimp only
    split
    · exact ⟨rfl, rfl, .ite fun _ => rfl⟩
    · exact ⟨rfl, rfl, .nil⟩

variable {idx : Idx} {mgr moves id : Nat} {elements : List Nat}

/-- Receiving a call that is neither a migration nor an insertion. -/
theorem receive_quiet {call : Call Idx} (himm : ∀ idx id elements moves,
      call ≠ .immigrate idx id elements moves) (hins : ∀ mgr idx, call ≠ .insertElement mgr idx)
    (ho : receive cfg p s call = some o) : Quiet s o := by
  have hidle : ∀ msg : UserMsg Idx, (Call.deliver msg).Idle := fun _ _ => rfl
  cases received ho with
  | deliver h => exact h.quiet
  | learnIdx => exact ⟨rfl, rfl, .append (.inform hidle fun _ => rfl) (.route hidle)⟩
  | learn => exact ⟨rfl, rfl, .append (.route hidle) (.route hidle)⟩
  | ownIdx | waitIdx | own | forget => exact ⟨rfl, rfl, .nil⟩
  | answerIdx | answer => exact ⟨rfl, rfl, .single fun _ => rfl⟩
  | immigrate => exact absurd rfl (himm _ _ _ _)
  | insertElement => exact absurd rfl (hins _ _)

/-! ## Sending and receiving a record -/

/-- What `emigrate` does with the records. -/
theorem emigrate_record {toPe : Nat} (ho : emigrate cfg p s id toPe = some o) :
    ∃ record, s.hash id = some record ∧ o.mgr.issued = s.issued ∧ (toPe = p ∧ Quiet s o ∨
      toPe ≠ p ∧ o.mgr.hash = update s.hash id none ∧ ∃ elements moves wires,
        o.sent = ⟨toPe, .immigrate record.idx id elements moves⟩ :: wires ∧
          AllCalls Call.Idle wires) := by
  obtain ⟨record, hrec, ⟨hto, rfl⟩ | ⟨hto, rfl⟩⟩ := emigrate_cases ho
  · exact ⟨record, hrec, rfl, .inl ⟨hto, rfl, rfl, .nil⟩⟩
  · exact ⟨record, hrec, rfl, .inr ⟨hto, rfl, _, _, _, rfl,
      .append (.inform (fun _ _ => rfl) fun _ => rfl) (.home fun _ => rfl)⟩⟩

/-- What `immigrate` does with the records. -/
theorem immigrate_record (hident : cfg.identifier idx id = id)
    (ho : immigrate cfg p s idx id elements moves = some o) :
    o.mgr.hash = update s.hash id (some ⟨idx, moves⟩) ∧ o.mgr.issued = s.issued ∧
      AllCalls Call.Idle o.sent := by
  rw [immigrate_eq _ hident] at ho
  cases ho
  exact ⟨rfl, rfl, .inform (fun _ _ => rfl) fun _ => rfl⟩

/-! ## Making a record -/

/-- `insertElement` makes the record of an index; the home of the index hears of it. -/
structure Founded (cfg : Config Idx) (p : Nat) (s : LocMgr Idx) (x : Idx) (id : Nat)
    (o : Outcome Idx) : Prop where
  identified : lookupID cfg s x = some id ∧ o.mgr.issued = s.issued ∨
    lookupID cfg s x = none ∧ id = newID p s ∧ o.mgr.issued = s.issued ++ [(id, x)]
  notRemote : NotRemote cfg p s x
  absent : ∀ id', lookupID cfg s x = some id' → s.hash id' = none
  hash : ∃ moves, o.mgr.hash = update s.hash id (some ⟨x, moves⟩)
  known : lookupID cfg o.mgr x = some (cfg.identifier x id) ∧ o.mgr.id2pe id ≠ none
  told : cfg.home x = p ∨
    ∃ nowOn, ⟨cfg.home x, .updateLocationIdx x (cfg.identifier x id) nowOn⟩ ∈ o.sent
  wires : AllCalls Call.Idle o.sent

theorem insertElement_founded {x : Idx}
    (hfresh : lookupID cfg s x = none → s.hash (newID p s) = none)
    (ho : insertElement cfg p s mgr x = some o) : Quiet s o ∨ ∃ id, Founded cfg p s x id o := by
  rcases inserted ho with _ | @⟨s', id, _, hid, hlocal, hadd⟩
  · exact .inl ⟨rfl, rfl, .single fun _ => rfl⟩
  -- nothing but the identifier has changed before the element is added
  have hs : s'.hash = s.hash := by
    rcases hid with ⟨-, rfl⟩ | ⟨-, -, rfl⟩
    · rfl
    · rw [insertID_eq]
      rfl
  have hiss : lookupID cfg s x = some id ∧ s'.issued = s.issued ∨
      lookupID cfg s x = none ∧ id = newID p s ∧ s'.issued = s.issued ++ [(id, x)] := by
    rcases hid with ⟨hlook, rfl⟩ | ⟨hlook, hnew, rfl⟩
    · exact .inl ⟨hlook, rfl⟩
    · refine .inr ⟨hlook, hnew, ?_⟩
      rw [insertID_issued, withID, hnew]
  have habsent : s'.hash id = none → ∀ id', lookupID cfg s x = some id' → s.hash id' = none := by
    intro hnone id' hid'
    rcases hiss with ⟨hlook, -⟩ | ⟨hlook, -⟩
    · rw [hlook] at hid'
      cases hid'
      exact hs ▸ hnone
    · rw [hlook] at hid'
      cases hid'
  rcases hadd with ⟨hrec⟩ | @⟨moves, hnone⟩
  · -- a record that is here belongs to an index that has its identifier
    refine .inl ?_
    rcases hid with ⟨-, rfl⟩ | ⟨hlook, hnew, -⟩
    · exact addedHere_quiet mgr id
    · rw [hs, hnew, hfresh hlook] at hrec
      cases hrec
  · refine .inr ⟨id, hiss, hlocal, habsent hnone, ⟨moves, ?_⟩,
      ⟨lookupID_informed_self _ x id ⟨p, moves⟩, update_self_ne_none⟩, ?_,
      .append (.inform (fun _ _ => rfl) fun _ => rfl) (.home fun _ => rfl)⟩
    · rw [← hs]
      rfl
    · by_cases hhome : cfg.home x = p
      · exact .inl hhome
      · refine .inr ⟨⟨p, moves⟩, mem_append_right _ ?_⟩
        rw [homeWires, if_pos ⟨hhome, hhome⟩]
        exact mem_singleton.2 rfl

/-! ## One record for an identifier -/

omit [DecidableEq Idx]

variable {w w' : System Idx} {id : Nat}

/-- The identifier has a record or is migrating. -/
def System.Hosted (w : System Idx) (id : Nat) : Prop :=
  (∃ p, (w.pes p).hash id ≠ none) ∨ w.flights id ≠ []

/-- At most one record, and none while the identifier migrates. -/
structure SingleHost (w : System Idx) (id : Nat) : Prop where
  one : ∀ p q, (w.pes p).hash id ≠ none → (w.pes q).hash id ≠ none → p = q
  flight : (w.flights id).length ≤ 1
  travels : w.flights id ≠ [] → ∀ p, (w.pes p).hash id = none

/-- What a step on processor `p` does with the record of an identifier. -/
inductive Moved (w w' : System Idx) (p id : Nat) : Prop
  | stays (hhash : (w'.pes p).hash id = (w.pes p).hash id) (hflights : w'.flights id = w.flights id)
  | leaves (hhere : (w.pes p).hash id ≠ none) (hgone : (w'.pes p).hash id = none) (wire : Wire Idx)
      (hflights : w'.flights id = w.flights id ++ [wire])
  | arrives (hhere : (w'.pes p).hash id ≠ none) (before after : List (Wire Idx)) (wire : Wire Idx)
      (hbefore : w.flights id = before ++ wire :: after)
        (hflights : w'.flights id = before ++ after)
  | founded (hhere : (w'.pes p).hash id ≠ none) (hnew : ¬ w.Hosted id)
      (hflights : w'.flights id = w.flights id)

theorem singleHost_initial : SingleHost (initialSystem : System Idx) id :=
  ⟨fun _ _ h => absurd rfl h, Nat.zero_le 1, fun h => absurd rfl h⟩

section Moved

variable (hm : Moved w w' p id) (hother : ∀ q, q ≠ p → w'.pes q = w.pes q)

include hm hother

theorem SingleHost.moved (h : SingleHost w id) : SingleHost w' id := by
  -- when there is no record elsewhere, the one here is the only one
  have honly : (∀ q, q ≠ p → (w.pes q).hash id = none) → ∀ q,
      (w'.pes q).hash id ≠ none → q = p := by
    intro hnone q hq
    by_contra hqp
    rw [hother q hqp] at hq
    exact hq (hnone q hqp)
  cases hm with
  | stays hhash hfl =>
    have hsame : ∀ q, (w'.pes q).hash id = (w.pes q).hash id := by
      intro q
      by_cases hq : q = p
      · rw [hq, hhash]
      · rw [hother q hq]
    refine ⟨fun q r => ?_, ?_, fun hne q => ?_⟩
    · rw [hsame, hsame]
      exact h.one q r
    · rw [hfl]
      exact h.flight
    · rw [hfl] at hne
      rw [hsame, h.travels hne]
  | leaves hhere hgone wire hfl =>
    have hempty : w.flights id = [] := by
      by_contra hne
      exact hhere (h.travels hne p)
    have hall : ∀ q, (w'.pes q).hash id = none := by
      intro q
      by_cases hq : q = p
      · rw [hq, hgone]
      · rw [hother q hq]
        by_contra hne
        exact hq (h.one q p hne hhere)
    refine ⟨fun q r hq => absurd (hall q) hq, ?_, fun _ => hall⟩
    rw [hfl, hempty]
    exact Nat.le_refl 1
  | arrives hhere before after wire hbefore hfl =>
    have hnone := h.travels (by rw [hbefore]; simp)
    have hlen := h.flight
    rw [hbefore, length_append, length_cons] at hlen
    have hempty : w'.flights id = [] := by
      apply eq_nil_of_length_eq_zero
      rw [hfl, length_append]
      omega
    have honly := honly fun q _ => hnone q
    refine ⟨fun q r hq hr => (honly q hq).trans (honly r hr).symm, ?_, fun hne => absurd hempty hne⟩
    rw [hempty]
    exact Nat.zero_le 1
  | founded hhere hnew hfl =>
    have honly := honly fun q _ => by
      by_contra hne
      exact hnew (.inl ⟨q, hne⟩)
    have hempty : w'.flights id = [] := by
      by_contra hne
      rw [hfl] at hne
      exact hnew (.inr hne)
    refine ⟨fun q r hq hr => (honly q hq).trans (honly r hr).symm, ?_, fun hne => absurd hempty hne⟩
    rw [hempty]
    exact Nat.zero_le 1

/-- An identifier that is hosted after a step was hosted before, or its record was made. -/
theorem Moved.hosted_before (h : w'.Hosted id) : w.Hosted id ∨
    (w'.pes p).hash id ≠ none ∧ ¬ w.Hosted id := by
  cases hm with
  | stays hhash hfl =>
    rw [System.Hosted, hfl] at h
    refine .inl (h.imp_left fun ⟨q, hq⟩ => ⟨q, ?_⟩)
    by_cases hqp : q = p
    · rw [hqp, hhash] at hq
      rwa [hqp]
    · rwa [hother q hqp] at hq
  | leaves hhere => exact .inl (.inl ⟨p, hhere⟩)
  | arrives hhere before after wire hbefore =>
    refine .inl (.inr ?_)
    rw [hbefore]
    simp
  | founded hhere hnew => exact .inr ⟨hhere, hnew⟩

/-- Without deletions an identifier stays hosted. -/
theorem Moved.hosted_after (h : w.Hosted id) : w'.Hosted id := by
  cases hm with
  | stays hhash hfl =>
    rw [System.Hosted, hfl]
    refine h.imp_left fun ⟨q, hq⟩ => ⟨q, ?_⟩
    by_cases hqp : q = p
    · rwa [hqp, hhash, ← hqp]
    · rwa [hother q hqp]
  | leaves hhere hgone wire hfl =>
    refine .inr ?_
    rw [hfl]
    simp
  | arrives hhere | founded hhere => exact .inl ⟨p, hhere⟩

end Moved

/-! ## Steps -/

variable {net wires : List (Wire Idx)} {sent : List (UserMsg Idx)} {x : Idx}

theorem AllCalls.not_carried (h : AllCalls Call.Idle wires) (id : Nat) :
    wires.filter (fun wire => wire.call.carries id) = [] := by
  rw [filter_eq_nil_iff]
  intro wire hwire
  rw [h wire hwire id]
  exact Bool.false_ne_true

theorem flights_put_eq (w : System Idx) (p : Nat) (net : List (Wire Idx)) (o : Outcome Idx)
    (sent : List (UserMsg Idx)) (id : Nat) : System.flights { w.put p net o with sent := sent } id =
      net.filter (fun wire => wire.call.carries id) ++ o.sent.filter fun wire =>
          wire.call.carries id :=
  filter_append ..

/-- A function that leaves the records alone. -/
theorem Quiet.moved (h : Quiet (w.pes p) o)
    (hnet : net.filter (fun wire => wire.call.carries id) = w.flights id) :
    Moved w { w.put p net o with sent := sent } p id := by
  refine .stays ?_ ?_
  · rw [put_pes_self, h.hash]
  · rw [flights_put_eq, hnet, h.wires.not_carried, append_nil]

variable {L : IdLayout}

theorem hosted_of_live (h : w.Live x id) : w.Hosted id := by
  rcases h with ⟨p, record, hrec, -⟩ | ⟨pe, elements, moves, hwire⟩
  · exact .inl ⟨p, by rw [hrec]; exact Option.some_ne_none _⟩
  · refine .inr (ne_nil_of_mem (mem_filter.2 ⟨hwire, ?_⟩))
    exact carries_immigrate ..

theorem exists_live_of_hosted (h : w.Hosted id) : ∃ idx, w.Live idx id := by
  rcases h with ⟨q, hq⟩ | hne
  · obtain ⟨record, hrec⟩ := Option.ne_none_iff_exists'.1 hq
    exact ⟨_, .inl ⟨q, record, hrec, rfl⟩⟩
  · obtain ⟨wire, hwire⟩ := exists_mem_of_ne_nil _ hne
    obtain ⟨hmem, hcarr⟩ := mem_filter.1 hwire
    obtain ⟨pe, call⟩ := wire
    cases call with
    | immigrate idx id' elements moves =>
      obtain rfl : id' = id := of_decide_eq_true hcarr
      exact ⟨idx, .inr ⟨pe, elements, moves, hmem⟩⟩
    | _ => cases hcarr

theorem IdsOk.live_of_hosted (h : IdsOk L cfg w) (hpair : Pair cfg w x id) (hhost : w.Hosted id) :
    w.Live x id := by
  obtain ⟨idx, hlive⟩ := exists_live_of_hosted hhost
  rwa [← h.pair_unique (h.pair_of_live hlive) hpair]

end CharmRuntime.Location
