import CharmRuntime.Ampi.Matching

/-!
# Cancelled receives

`MPI_Cancel` marks a receive that is not complete, and the next completion call frees the request.
Nothing takes the request out of `postedReqs`, and `inorder` does not look at the mark, so that a
message can still be given to a request that has been cancelled and freed (`cancelled_receives`).
This does not happen in runs in which no message arrives for which a cancelled receive is the first
one to match, and no cancelled receive is completed (`cancelled_never_receives`).
-/

set_option autoImplicit false

namespace CharmRuntime.Ampi.Cancel

open Lib List

/-- A rank, the requests that are marked as cancelled and those that have been freed. -/
structure State where
  rank : Rank
  cancelled : List AmpiRequest
  freed : List AmpiRequest

namespace State

/-- The rank at the start. -/
def init : State := ⟨.init, [], []⟩

/-- The requests that a message has made `complete`. -/
def received (s : State) : List AmpiRequest := s.rank.matched.map Prod.fst

/-- `IReq::cancel`. -/
def cancel (s : State) (req : AmpiRequest) : State :=
  if req ∈ s.received then s else { s with cancelled := s.cancelled ++ [req] }

/-- `IReq::test`, and `freeNonPersReq` if it says that the request is complete. -/
def test (s : State) (req : AmpiRequest) : State :=
  if req ∈ s.cancelled ∨ req ∈ s.received then { s with freed := s.freed ++ [req] } else s

end State

/-- What happens at the rank. -/
inductive Event
  | rank (e : Ampi.Event)
  | cancel (req : AmpiRequest)
  | test (req : AmpiRequest)

/-- The steps. A request is cancelled or completed while the user has it. -/
inductive Step : State → Event → State → Prop
  | rank {s : State} {e : Ampi.Event} {r : Rank} (h : Ampi.Step s.rank e r) :
      Step s (.rank e) { s with rank := r }
  | cancel {s : State} {req : AmpiRequest} (hreq : req ∈ s.rank.requested)
      (hfreed : req ∉ s.freed) :
      Step s (.cancel req) (s.cancel req)
  | test {s : State} {req : AmpiRequest} (hreq : req ∈ s.rank.requested) (hfreed : req ∉ s.freed) :
      Step s (.test req) (s.test req)

/-- No message is received by a cancelled receive or lost, and no request that has been freed is
posted. -/
structure Sound (s : State) : Prop where
  cancelled : ∀ req ∈ s.cancelled, req ∉ s.received
  arrived : ∀ msg ∈ s.rank.arrived, msg ∈ s.rank.unreceived ∨
    ∃ req, req ∉ s.cancelled ∧ (req, msg) ∈ s.rank.matched ∧ req.tags.matches msg.tags = true
  unexpected : Queued AmpiMsg.tags s.rank.unexpectedMsgs s.rank.unreceived
  posted : ∃ reqs, Queued AmpiRequest.tags s.rank.postedReqs reqs ∧ ∀ req ∈ reqs, req ∉ s.freed

/-- The first receive that matches a message that arrives is not cancelled, and a receive that is
completed is not. -/
def Spares (s : State) : Event → Prop
  | .rank (.arrive msg) => ∀ req ∈ s.cancelled, ¬IsEarliest AmpiRequest.number
      (fun req => msg.tags.matches req.tags = true) s.rank.waiting req
  | .test req => req ∉ s.cancelled
  | _ => True

/-- The invariant: a cancelled receive waits, and one that has been freed does not. -/
structure Inv (s : State) : Prop where
  orderly : Orderly s.rank
  cancelled : ∀ req ∈ s.cancelled, req ∈ s.rank.waiting
  freed : ∀ req ∈ s.freed, req ∈ s.received

theorem inv_init : Inv State.init := ⟨orderly_init, nofun, nofun⟩

variable {s s' : State} {e : Ampi.Event} {r : Rank} {req : AmpiRequest}

/-- A cancelled receive waits on. -/
theorem Inv.waits (h : Inv s) (hadv : Advances s.rank e r) (hspares : Spares s (.rank e))
    (hreq : req ∈ s.cancelled) : req ∈ r.waiting := by
  have hwait := h.cancelled req hreq
  obtain ⟨hrequested, hmatched⟩ := Rank.mem_waiting.1 hwait
  refine Rank.mem_waiting.2 ⟨hadv.requested.subset hrequested, fun hmem => ?_⟩
  obtain ⟨pair, hpair, rfl⟩ := mem_map.1 hmem
  refine hadv.matched.forall_mem (Q := fun p => p.1 ≠ pair.1) (fun p hp heq => ?_)
    (fun p hp heq => ?_) pair hpair rfl
  · exact hmatched (heq ▸ List.mem_map_of_mem hp)
  · obtain ⟨hfinds, rfl | hnew⟩ := hp
    · refine hspares _ (heq ▸ hreq) (isEarliest_of_find ?_ hfinds.2)
      exact h.orderly.requested.pairwise.sublist outstanding_sublist
    · exact hnew (heq ▸ hrequested)

theorem Inv.step (h : Inv s) {e : Event} (hstep : Step s e s') (hspares : Spares s e) : Inv s' := by
  cases hstep with
  | rank hrank =>
    have hadv := h.orderly.advances hrank
    exact ⟨hadv.orderly, fun req => h.waits hadv hspares,
      fun req hreq => map_subset _ hadv.matched.subset (h.freed req hreq)⟩
  | @cancel req hreq =>
    rw [State.cancel]
    split
    · exact h
    · next hincomplete =>
      exact { h with cancelled :=
        forall_mem_concat h.cancelled (Rank.mem_waiting.2 ⟨hreq, hincomplete⟩) }
  | test =>
    rw [State.test]
    split
    · next hcomplete =>
        exact { h with freed := forall_mem_concat h.freed (hcomplete.resolve_left hspares) }
    · exact h

theorem Inv.sound (h : Inv s) : Sound s where
  cancelled req hreq := (Rank.mem_waiting.1 (h.cancelled req hreq)).2
  arrived msg hmsg := by
    by_cases hmem : msg ∈ s.rank.matched.map Prod.snd
    · obtain ⟨⟨req, _⟩, hpair, rfl⟩ := mem_map.1 hmem
      refine .inr ⟨req, fun hreq => ?_, hpair, (h.orderly.mem _ hpair).2.2⟩
      exact (Rank.mem_waiting.1 (h.cancelled req hreq)).2 (List.mem_map_of_mem hpair)
    · exact .inl (Rank.mem_unreceived.2 ⟨hmsg, hmem⟩)
  unexpected := h.orderly.unexpected
  posted := ⟨_, h.orderly.posted, fun req hwait hfreed =>
    (Rank.mem_waiting.1 hwait).2 (h.freed req hfreed)⟩

/-- The steps in which cancelled receives are spared. -/
def SparingStep (s : State) (e : Event) (s' : State) : Prop := Step s e s' ∧ Spares s e

/-- Cancelled receives that are spared get no message, and nothing that has been freed stays
posted. -/
theorem cancelled_never_receives {es : List Event}
    (hrun : Run SparingStep State.init es s) : Sound s :=
  (hrun.invariant inv_init fun _ _ _ h hstep => h.step hstep.1 hstep.2).sound

/-- A step that can be computed. -/
def State.exec (s : State) : Event → Option State
  | .rank e => (s.rank.exec e).map fun r => { s with rank := r }
  | .cancel req => if req ∈ s.rank.requested ∧ req ∉ s.freed then some (s.cancel req) else none
  | .test req => if req ∈ s.rank.requested ∧ req ∉ s.freed then some (s.test req) else none

theorem step_of_exec {e : Event} (h : s.exec e = some s') : Step s e s' := by
  cases e with
  | rank e =>
    obtain ⟨r, hr, rfl⟩ := Option.map_eq_some_iff.1 h
    exact .rank (Ampi.step_of_exec hr)
  | cancel req | test req =>
    obtain ⟨⟨hreq, hfreed⟩, ⟨⟩⟩ := Option.ite_none_right_eq_some.1 h
    constructor <;> assumption

/-- No cancelled receive matches a message that arrives or is tested. -/
def State.avoids (s : State) : Event → Bool
  | .rank (.arrive msg) => s.cancelled.all fun req => !msg.tags.matches req.tags
  | .test req => req ∉ s.cancelled
  | _ => true

theorem spares_of_avoids {e : Event} (h : s.avoids e = true) : Spares s e := by
  cases e with
  | rank e =>
    cases e with
    | arrive msg =>
      intro req hreq hearliest
      have hfalse := List.all_eq_true.1 h req hreq
      rw [hearliest.2.1] at hfalse
      cases hfalse
    | _ => trivial
  | cancel req => trivial
  | test req => exact of_decide_eq_true (p := req ∉ s.cancelled) h

/-- Two receives are posted and the first one is cancelled. Then a message arrives for the second
one, which is tested, and a message that nobody waits for. -/
def otherReceives : List Event :=
  [.rank (.recv ⟨⟨5, 1⟩, .user, 0⟩), .rank (.recv ⟨⟨6, 1⟩, .user, 1⟩), .cancel ⟨⟨5, 1⟩, .user, 0⟩,
    .rank (.arrive ⟨⟨6, 1⟩, .user, 0⟩), .test ⟨⟨6, 1⟩, .user, 1⟩,
    .rank (.arrive ⟨⟨7, 1⟩, .user, 1⟩)]

theorem cancelled_never_receives_other : ∃ s, Run SparingStep State.init otherReceives s ∧
    s.cancelled = [⟨⟨5, 1⟩, .user, 0⟩] ∧ s.freed = [⟨⟨6, 1⟩, .user, 1⟩] ∧
      s.rank.matched = [(⟨⟨6, 1⟩, .user, 1⟩, ⟨⟨6, 1⟩, .user, 0⟩)] ∧
      s.rank.unreceived = [⟨⟨7, 1⟩, .user, 1⟩] ∧ Sound s := by
  let exec (s : State) (e : Event) : Option State := if s.avoids e then s.exec e else none
  have hexec : (otherReceives.foldlM exec .init).any (fun s => s.cancelled = [⟨⟨5, 1⟩, .user, 0⟩] ∧
      s.freed = [⟨⟨6, 1⟩, .user, 1⟩] ∧ s.rank.matched = [(⟨⟨6, 1⟩, .user, 1⟩, ⟨⟨6, 1⟩, .user, 0⟩)] ∧
        s.rank.unreceived = [⟨⟨7, 1⟩, .user, 1⟩]) = true := by
    decide +kernel
  obtain ⟨s, hs, hcancelled, hfreed, hmatched, hunreceived⟩ := Run.exists_of_any hexec
  have hrun : Run SparingStep State.init otherReceives s := by
    refine (Run.of_foldlM hs).mono fun _ _ _ h => ?_
    obtain ⟨havoids, hstep⟩ := Option.ite_none_right_eq_some.1 h
    exact ⟨step_of_exec hstep, spares_of_avoids havoids⟩
  exact ⟨s, hrun, hcancelled, hfreed, hmatched, hunreceived, cancelled_never_receives hrun⟩

/-- A receive is posted, cancelled and freed by a test, and then gets a message. -/
theorem cancelled_receives : ∃ (es : List Event) (s : State) (req : AmpiRequest),
    Run Step State.init es s ∧ req ∈ s.cancelled ∧ req ∈ s.freed ∧ req ∈ s.received := by
  let req : AmpiRequest := ⟨⟨5, 1⟩, .user, 0⟩
  have hexec :
      ([.rank (.recv req), .cancel req, .test req, .rank (.arrive ⟨⟨5, 1⟩, .user, 0⟩)].foldlM
        State.exec .init).any (fun s =>
          req ∈ s.cancelled ∧ req ∈ s.freed ∧ req ∈ s.received) = true := by
    decide +kernel
  obtain ⟨s, hs, hreq⟩ := Run.exists_of_any hexec
  exact ⟨_, s, req, (Run.of_foldlM hs).mono fun _ _ _ => step_of_exec, hreq⟩

end CharmRuntime.Ampi.Cancel
