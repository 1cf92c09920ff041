import CharmRuntime.Ampi.Matching

/-!
# Broadcasts and messages of the user

A broadcast sends its message under the reserved tag `MPI_BCAST_TAG`, through the queues of the
messages of the user. A receive of the user with `MPI_ANY_TAG` matches this tag too, and can take
the message of a broadcast (`any_tag_takes_broadcast`). Where no such receive meets a broadcast,
messages of broadcasts go to receives of broadcasts and messages of the user to receives and probes
of the user (`broadcasts_apart_from_user`).
-/

set_option autoImplicit false

namespace CharmRuntime.Ampi

open Lib List

variable {r r' : Rank} {msg : AmpiMsg} {req : AmpiRequest} {e : Event}

/-! ## Calls -/

/-- `MPI_BCAST_TAG`. -/
def mpiBcastTag : Int := mpiTagUbValue + 3

/-- `AMPI_COLL_DEST`, the source of the messages of `bcast`. -/
def ampiCollDest : Int := -1

/-- `checkTag` accepts the tag. -/
def CheckTag (tag : Int) : Prop := tag = mpiAnyTag ∨ 0 ≤ tag ∧ tag ≤ mpiTagUbValue

/-- `makeBcastMsg`. -/
def makeBcastMsg (number : Nat) : AmpiMsg := ⟨⟨mpiBcastTag, ampiCollDest⟩, .bcast, number⟩

/-- The message that `ibcast` makes by `makeAmpiMsg`. -/
def makeIbcastMsg (root : Int) (number : Nat) : AmpiMsg := ⟨⟨mpiBcastTag, root⟩, .bcast, number⟩

/-- The receive that `bcast` and `ibcast` post. -/
def bcastReq (root : Int) (number : Nat) : AmpiRequest := ⟨⟨mpiBcastTag, root⟩, .bcast, number⟩

/-- What the calls of the user bring about: the messages and receives of sends, receives and probes
whose tags pass the check, and those of broadcasts. -/
inductive Call : Event → Prop
  | send {tag src : Int} {number : Nat} (htag : CheckTag tag) (hsrc : 0 ≤ src) :
      Call (.arrive ⟨⟨tag, src⟩, .user, number⟩)
  | bcast {number : Nat} : Call (.arrive (makeBcastMsg number))
  | ibcast {root : Int} {number : Nat} (hroot : 0 ≤ root) :
      Call (.arrive (makeIbcastMsg root number))
  | recv {tag src : Int} {number : Nat} (htag : CheckTag tag) :
      Call (.recv ⟨⟨tag, src⟩, .user, number⟩)
  | bcastRecv {root : Int} {number : Nat} (hroot : 0 ≤ root) : Call (.recv (bcastReq root number))
  | probe {tag src : Int} {number : Nat} (htag : CheckTag tag) :
      Call (.probe ⟨⟨tag, src⟩, .user, number⟩)
  | mprobe {tag src : Int} {number : Nat} (htag : CheckTag tag) :
      Call (.mprobe ⟨⟨tag, src⟩, .user, number⟩)

/-- The request is one of the user with `MPI_ANY_TAG`, the message one of a broadcast, and their
sources agree. -/
def Takes (req : AmpiRequest) (msg : AmpiMsg) : Prop :=
  req.kind = .user ∧ req.tags.tag = mpiAnyTag ∧ msg.kind = .bcast ∧
    (req.tags.src = msg.tags.src ∨ req.tags.src = mpiAnySource ∨ msg.tags.src = mpiAnySource)

/-- No receive with `MPI_ANY_TAG` meets a broadcast in this step, and no message is sent with
`MPI_ANY_TAG`. -/
def Clear (r : Rank) : Event → Prop
  | .arrive msg => (msg.kind = .user → msg.tags.tag ≠ mpiAnyTag) ∧ ∀ req ∈ r.waiting, ¬Takes req msg
  | .recv req | .probe req | .mprobe req => ∀ msg ∈ r.unreceived, ¬Takes req msg

/-! ## Kinds -/

/-- The tags that messages of each kind have. -/
def AmpiMsg.Tagged (msg : AmpiMsg) : Prop :=
  match msg.kind with
  | .user => 0 ≤ msg.tags.tag ∧ msg.tags.tag ≤ mpiTagUbValue
  | .bcast => msg.tags.tag = mpiBcastTag

/-- The tags that requests of each kind have. -/
def AmpiRequest.Tagged (req : AmpiRequest) : Prop :=
  match req.kind with
  | .user => CheckTag req.tags.tag
  | .bcast => req.tags.tag = mpiBcastTag

/-- By their tags, a request and a message that match are of one kind. -/
theorem kind_eq_of_matches (hreq : req.Tagged) (hmsg : msg.Tagged)
    (hmatch : req.tags.matches msg.tags = true) (htakes : ¬Takes req msg) :
    req.kind = msg.kind := by
  obtain ⟨htag, hsrc⟩ := (Tags.matches_iff _ _).1 hmatch
  rw [AmpiRequest.Tagged] at hreq
  rw [AmpiMsg.Tagged] at hmsg
  cases hkind : req.kind with
  | user =>
    cases hkind' : msg.kind with
    | user => rfl
    | bcast =>
      rw [hkind] at hreq
      rw [hkind'] at hmsg
      refine absurd ⟨hkind, ?_, hkind', hsrc⟩ htakes
      simp only [CheckTag, mpiBcastTag, mpiAnyTag, mpiTagUbValue] at hreq hmsg htag ⊢
      omega
  | bcast =>
    cases hkind' : msg.kind with
    | user =>
      rw [hkind] at hreq
      rw [hkind'] at hmsg
      simp only [mpiBcastTag, mpiAnyTag, mpiTagUbValue] at hreq hmsg htag
      omega
    | bcast => rfl

/-- The invariant: what has been matched or found by a probe is of one kind. -/
structure Apart (r : Rank) : Prop where
  orderly : Orderly r
  requests : ∀ req ∈ r.requested, req.Tagged
  messages : ∀ msg ∈ r.arrived, msg.Tagged
  matched : ∀ pair ∈ r.matched, pair.1.kind = pair.2.kind
  probed : ∀ pair ∈ r.probed, pair.1.kind = pair.2.kind

theorem apart_init : Apart Rank.init where
  orderly := orderly_init
  requests := nofun
  messages := nofun
  matched := nofun
  probed := nofun

theorem Call.arrive_tagged (h : Call (.arrive msg)) (hclear : Clear r (.arrive msg)) :
    msg.Tagged := by
  cases h with
  | send htag hsrc => exact htag.resolve_left (hclear.1 rfl)
  | bcast | ibcast => rfl

theorem Call.request_tagged (h : Call e) (he : e.request? = some req) : req.Tagged := by
  cases h with
  | send | bcast | ibcast => cases he
  | recv htag | probe htag | mprobe htag =>
    cases he
    exact htag
  | bcastRecv hroot =>
    cases he
    rfl

/-- What a search finds is of one kind. -/
theorem Apart.kind_of_finds (h : Apart r) (hcall : Call e) (hclear : Clear r e)
    {pair : AmpiRequest × AmpiMsg} (hfinds : Finds r pair e) : pair.1.kind = pair.2.kind := by
  cases e with
  | arrive msg =>
    obtain ⟨hmsg, hfind⟩ := hfinds
    have hmem := mem_of_find?_eq_some hfind
    have hmatch : pair.1.tags.matches msg.tags = true := by
      rw [Tags.matches_comm]
      exact find?_some (p := fun req : AmpiRequest => msg.tags.matches req.tags) hfind
    rw [hmsg]
    exact kind_eq_of_matches (h.requests _ (Rank.mem_waiting.1 hmem).1)
      (hcall.arrive_tagged hclear) hmatch
      (hclear.2 _ hmem)
  | recv req | probe req | mprobe req =>
    obtain ⟨hreq, hfind⟩ := hfinds
    have hmem := mem_of_find?_eq_some hfind
    have hmatch : req.tags.matches pair.2.tags = true :=
      find?_some (p := fun msg : AmpiMsg => req.tags.matches msg.tags) hfind
    rw [hreq]
    exact kind_eq_of_matches (hcall.request_tagged rfl)
      (h.messages _ (Rank.mem_unreceived.1 hmem).1) hmatch
      (hclear _ hmem)

theorem Apart.step (h : Apart r) (hstep : Step r e r') (hcall : Call e)
    (hclear : Clear r e) : Apart r' := by
  have hadv := h.orderly.advances hstep
  have hkind := fun pair (hpair : Finds r pair e) => h.kind_of_finds hcall hclear hpair
  refine ⟨hadv.orderly, hadv.requested.forall_mem h.requests fun req => hcall.request_tagged, ?_,
    hadv.matched.forall_mem h.matched fun pair hpair =>
      hkind pair hpair.1, hadv.probed.forall_mem h.probed hkind⟩
  refine hadv.arrived.forall_mem h.messages fun msg he => ?_
  subst he
  exact hcall.arrive_tagged hclear

/-- The steps in which no receive with `MPI_ANY_TAG` meets a broadcast. -/
def ClearStep (r : Rank) (e : Event) (r' : Rank) : Prop := Step r e r' ∧ Call e ∧ Clear r e

/-- Where no receive with `MPI_ANY_TAG` meets a broadcast, the message of a broadcast is matched by
the receive of a broadcast only, and a message of the user by a receive or a probe of the user
only. -/
theorem broadcasts_apart_from_user {es : List Event} {r : Rank}
    (hrun : Run ClearStep Rank.init es r) :
    ∀ pair ∈ r.matched ++ r.probed, pair.1.kind = pair.2.kind := by
  have h : Apart r := hrun.invariant apart_init fun _ _ _ h hstep =>
    h.step hstep.1 hstep.2.1 hstep.2.2
  exact forall_mem_append.2 ⟨h.matched, h.probed⟩

instance : Decidable (Takes req msg) := inferInstanceAs (Decidable (_ ∧ _))

instance : ∀ e, Decidable (Clear r e)
  | .arrive _ => inferInstanceAs (Decidable (_ ∧ _))
  | .recv _ | .probe _ | .mprobe _ => inferInstanceAs (Decidable (∀ _ ∈ _, _))

/-- A receive of the user for tag 5 waits while a broadcast is received. -/
theorem broadcasts_apart_from_user_waiting : ∃ (es : List Event) (r : Rank),
    Run ClearStep Rank.init es r ∧ r.matched = [(bcastReq 0 1, makeBcastMsg 0)] ∧
      ∀ pair ∈ r.matched ++ r.probed, pair.1.kind = pair.2.kind := by
  let es : List Event :=
    [.recv ⟨⟨5, mpiAnySource⟩, .user, 0⟩, .arrive (makeBcastMsg 0), .recv (bcastReq 0 1)]
  have hexec : (es.foldlM (fun r e => if Clear r e then r.exec e else none) Rank.init).any
      (·.matched = [(bcastReq 0 1, makeBcastMsg 0)]) = true := by
    decide +kernel
  have hcall : ∀ e ∈ es, Call e :=
    forall_mem_cons.2 ⟨.recv (.inr (by decide)), forall_mem_cons.2 ⟨.bcast,
      forall_mem_singleton.2 (.bcastRecv (by decide))⟩⟩
  obtain ⟨r, hr, hmatched⟩ := Run.exists_of_any hexec
  have hrun : Run ClearStep Rank.init es r := (Run.of_foldlM hr).mono_mem fun _ e _ he h => by
    obtain ⟨hclear, h⟩ := Option.ite_none_right_eq_some.1 h
    exact ⟨step_of_exec h, hcall e he, hclear⟩
  exact ⟨es, r, hrun, hmatched, broadcasts_apart_from_user hrun⟩

/-- A receive of the user with wildcards takes the message of a broadcast. -/
theorem any_tag_takes_broadcast : ∃ (es : List Event) (r : Rank),
    Run (fun r e r' => Step r e r' ∧ Call e) Rank.init es r ∧
      r.matched = [(⟨⟨mpiAnyTag, mpiAnySource⟩, .user, 0⟩, makeBcastMsg 0)] := by
  let req : AmpiRequest := ⟨⟨mpiAnyTag, mpiAnySource⟩, .user, 0⟩
  have hexec : ([.recv req, .arrive (makeBcastMsg 0)].foldlM Rank.exec .init).any
      (·.matched = [(req, makeBcastMsg 0)]) = true := by
    decide +kernel
  obtain ⟨r, hr, hmatched⟩ := Run.exists_of_any hexec
  refine ⟨_, r, (Run.of_foldlM hr).mono_mem fun _ e _ he h => ⟨step_of_exec h, ?_⟩, hmatched⟩
  rcases mem_pair.1 he with rfl | rfl
  · exact .recv (.inl rfl)
  · exact .bcast

end CharmRuntime.Ampi
