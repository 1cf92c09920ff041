import CharmRuntime.Ampi.Amm
import CharmRuntime.Lib.Run
import Mathlib.Data.List.Range

/-!
# Message matching

The model of `ampi::inorder`, `recv`, `irecv` and the probes of one rank and communicator. A message
that arrives is given to the first posted request that matches it or is kept as unexpected; a
request that is posted takes the first unexpected message that matches it or waits.

`Rank.waiting` and `Rank.unreceived` are the requests and the messages that have not been matched,
in order of time. The queues hold just these (`Orderly`), whence the rules of MPI
(`matching_obeys_mpi`).
-/

set_option autoImplicit false

namespace CharmRuntime.Ampi

open Lib List Option

/-! ## What is outstanding -/

section Outstanding

variable {α : Type} [DecidableEq α] {log done : List α} {x : α} {p : α → Bool}

/-- The members of a log that are not done. -/
def outstanding (log done : List α) : List α := log.filter fun x => x ∉ done

theorem mem_outstanding : x ∈ outstanding log done ↔ x ∈ log ∧ x ∉ done := by
  simp [outstanding]

theorem outstanding_sublist : (outstanding log done).Sublist log := filter_sublist

/-- What is new is outstanding. -/
theorem outstanding_log_concat (hx : x ∉ done) :
    outstanding (log ++ [x]) done = outstanding log done ++ [x] := by
  simp [outstanding, hx]

/-- What is new and done at once is not. -/
theorem outstanding_concat_concat (hx : x ∉ log) :
    outstanding (log ++ [x]) (done ++ [x]) = outstanding log done := by
  rw [outstanding, filter_append]
  have hnew : [x].filter (fun y => y ∉ done ++ [x]) = [] := by simp
  rw [hnew, append_nil]
  refine filter_congr fun y hy => ?_
  have hyx : y ≠ x := ne_of_mem_of_not_mem hy hx
  simp [hyx]

/-- The first one with a property gets done. -/
theorem outstanding_done_concat (hlog : log.Nodup) (hx : (outstanding log done).find? p = some x) :
    outstanding log (done ++ [x]) = (outstanding log done).eraseP p := by
  obtain ⟨hp, before, after, hsplit, hbefore⟩ := find?_eq_some_iff_append.1 hx
  have hnd : (before ++ x :: after).Nodup := hsplit ▸ hlog.sublist outstanding_sublist
  have hnot : x ∉ before ++ after := (nodup_cons.1 (nodup_middle.1 hnd)).1
  have herase : (outstanding log done).eraseP p = before ++ after := by
    rw [hsplit, eraseP_append_right _ fun b hb => by
      simpa using hbefore b hb, eraseP_cons_of_pos hp]
  have hfilter : outstanding log (done ++ [x]) = (outstanding log done).filter fun y => y ≠ x := by
    rw [outstanding, outstanding, List.filter_filter]
    refine filter_congr fun y _ => ?_
    by_cases hy : y = x <;> simp [hy]
  rw [hfilter, herase, hsplit, filter_append, filter_cons_of_neg (by simp)]
  rw [mem_append, not_or] at hnot
  congr 1
  · exact filter_eq_self.2 fun b hb => by simpa using ne_of_mem_of_not_mem hb hnot.1
  · exact filter_eq_self.2 fun b hb => by simpa using ne_of_mem_of_not_mem hb hnot.2

end Outstanding

/-! ## The rank -/

/-- Who has made a message or a request: the user's program or a broadcast. The code does not look
at this. -/
inductive Kind
  | user
  | bcast
  deriving DecidableEq

/-- `AmpiMsg`. The number is that of its arrival. -/
structure AmpiMsg where
  tags : Tags
  kind : Kind
  number : Nat
  deriving DecidableEq

/-- `AmpiRequest`, for a receive. The number is that of its making. -/
structure AmpiRequest where
  tags : Tags
  kind : Kind
  number : Nat
  deriving DecidableEq

/-- `MPI_PROC_NULL`. -/
def mpiProcNull : Int := -2

/-- One rank of a communicator. The logs are not in the code: what has arrived, what has been
requested, what has been matched, and what probes have found. -/
structure Rank where
  postedReqs : Amm AmpiRequest
  unexpectedMsgs : Amm AmpiMsg
  arrived : List AmpiMsg
  requested : List AmpiRequest
  matched : List (AmpiRequest × AmpiMsg)
  probed : List (AmpiRequest × AmpiMsg)

namespace Rank

/-- The rank at the start. -/
def init : Rank := ⟨.init, .init, [], [], [], []⟩

/-- `inorder` and `inorderRdma`. -/
def inorder (r : Rank) (msg : AmpiMsg) (addr : Nat) : Option Rank :=
  (r.postedReqs.get msg.tags).bind fun (found, posted) =>
    match found with
    | some req =>
      some { r with
        postedReqs := posted
        arrived := r.arrived ++ [msg]
        matched := r.matched ++ [(req.msg, msg)] }
    | none =>
      (r.unexpectedMsgs.put ⟨msg.tags, msg⟩ addr).map fun unexpected =>
        { r with unexpectedMsgs := unexpected, arrived := r.arrived ++ [msg] }

/-- `recv` and `irecv`, as far as the queues go. -/
def recv (r : Rank) (req : AmpiRequest) (addr : Nat) : Option Rank :=
  if req.tags.src = mpiProcNull then some r
  else
    (r.unexpectedMsgs.get req.tags).bind fun (found, unexpected) =>
      match found with
      | some msg =>
        some { r with
          unexpectedMsgs := unexpected
          requested := r.requested ++ [req]
          matched := r.matched ++ [(req, msg.msg)] }
      | none =>
        (r.postedReqs.put ⟨req.tags, req⟩ addr).map fun posted =>
          { r with postedReqs := posted, requested := r.requested ++ [req] }

/-- `probe` and `iprobe`, one look at the queue. -/
def probe (r : Rank) (req : AmpiRequest) : Option Rank :=
  if req.tags.src = mpiProcNull then some r
  else
    (r.unexpectedMsgs.probe req.tags).map fun found =>
      { r with probed := r.probed ++ (found.map fun msg => (req, msg.msg)).toList }

/-- `mprobe` and `improbe`, one look at the queue: a message that is found is taken out. -/
def mprobe (r : Rank) (req : AmpiRequest) : Option Rank :=
  if req.tags.src = mpiProcNull then some r
  else
    (r.unexpectedMsgs.get req.tags).map fun (found, unexpected) =>
      match found with
      | some msg =>
        { r with
          unexpectedMsgs := unexpected
          requested := r.requested ++ [req]
          matched := r.matched ++ [(req, msg.msg)] }
      | none => r

/-- The requests that have not been matched, in the order in which they were made. -/
def waiting (r : Rank) : List AmpiRequest := outstanding r.requested (r.matched.map Prod.fst)

/-- The messages that have not been matched, in the order in which they arrived. -/
def unreceived (r : Rank) : List AmpiMsg := outstanding r.arrived (r.matched.map Prod.snd)

/-- An address that `new` may return. -/
def Fresh (r : Rank) (addr : Nat) : Prop :=
  ammPoolSize ≤ addr ∧ addr ∉ r.postedReqs.heap ∧ addr ∉ r.unexpectedMsgs.heap

end Rank

/-- What happens at the rank. -/
inductive Event
  | arrive (msg : AmpiMsg)
  | recv (req : AmpiRequest)
  | probe (req : AmpiRequest)
  | mprobe (req : AmpiRequest)

/-- The steps of the rank. Messages are numbered as they arrive and requests as they are made. -/
inductive Step : Rank → Event → Rank → Prop
  | arrive {r r' : Rank} {msg : AmpiMsg} {addr : Nat} (hfresh : r.Fresh addr)
      (hnumber : msg.number = r.arrived.length) (h : r.inorder msg addr = some r') :
      Step r (.arrive msg) r'
  | recv {r r' : Rank} {req : AmpiRequest} {addr : Nat} (hfresh : r.Fresh addr)
      (hnumber : req.number = r.requested.length) (h : r.recv req addr = some r') :
      Step r (.recv req) r'
  | probe {r r' : Rank} {req : AmpiRequest} (h : r.probe req = some r') : Step r (.probe req) r'
  | mprobe {r r' : Rank} {req : AmpiRequest} (hnumber : req.number = r.requested.length)
      (h : r.mprobe req = some r') : Step r (.mprobe req) r'

/-! ## The queues hold what is outstanding -/

section Queued

variable {T : Type} {q q' : Amm T} {tags : T → Tags} {ms : List T} {m : T} {addr : Nat}

/-- The queue holds the members of the list, each under its own tags. -/
def Queued (tags : T → Tags) (q : Amm T) (ms : List T) : Prop :=
  Holds q (ms.map fun m => ⟨tags m, m⟩)

variable (h : Queued tags q ms)

include h

theorem Queued.put (ha : ammPoolSize ≤ addr) (hfresh : addr ∉ q.heap) (m : T) :
    ∃ q', q.put ⟨tags m, m⟩ addr = some q' ∧ Queued tags q' (ms ++ [m]) := by
  obtain ⟨q', hput, hq'⟩ := Holds.put h ha hfresh ⟨tags m, m⟩
  refine ⟨q', hput, ?_⟩
  rwa [Queued, map_append]

theorem Queued.get (t : Tags) :
    ∃ q', q.get t = some ((ms.find? fun m => t.matches (tags m)).map fun m => ⟨tags m, m⟩, q') ∧
      Queued tags q' (ms.eraseP fun m => t.matches (tags m)) := by
  obtain ⟨q', hget, hq'⟩ := Holds.get h t
  refine ⟨q', ?_, ?_⟩
  · rw [hget, find?_map]
    rfl
  · rw [eraseP_map] at hq'
    exact hq'

theorem Queued.probe (t : Tags) :
    q.probe t = some ((ms.find? fun m => t.matches (tags m)).map fun m => ⟨tags m, m⟩) := by
  rw [Holds.probe h t, find?_map]
  rfl

end Queued

/-- A log whose members are numbered from 0 on. -/
def Numbered {α : Type} (number : α → Nat) (log : List α) : Prop :=
  log.map number = List.range log.length

variable {α : Type}

variable {number : α → Nat} {log : List α} {x : α}

section

variable (h : Numbered number log)

include h

theorem Numbered.concat (hx : number x = log.length) : Numbered number (log ++ [x]) := by
  rw [Numbered, map_append, h, length_append, length_singleton, range_succ, map_singleton, hx]

theorem Numbered.lt (hx : x ∈ log) : number x < log.length := by
  have hmem := List.mem_map_of_mem (f := number) hx
  rw [h] at hmem
  exact mem_range.1 hmem

theorem Numbered.nodup : log.Nodup := by
  refine Nodup.of_map number ?_
  rw [h]
  exact nodup_range

/-- Earlier members have smaller numbers. -/
theorem Numbered.pairwise : log.Pairwise fun x y => number x < number y := by
  rw [← pairwise_map (f := number) (R := (· < ·)), h]
  exact pairwise_lt_range

theorem Numbered.notMem (hx : number x = log.length) : x ∉ log :=
  fun hmem => lt_irrefl _ (hx ▸ h.lt hmem)

end

/-- The first member of a list, by number, that has a property. -/
def IsEarliest {α : Type} (number : α → Nat) (p : α → Prop) (l : List α) (x : α) : Prop :=
  x ∈ l ∧ p x ∧ ∀ y ∈ l, p y → number x ≤ number y

theorem isEarliest_of_find {p : α → Bool} {l : List α}
    (hsorted : l.Pairwise fun x y => number x < number y) (hfind : l.find? p = some x) :
    IsEarliest number (fun x => p x = true) l x := by
  obtain ⟨hp, before, after, hsplit, hbefore⟩ := find?_eq_some_iff_append.1 hfind
  refine ⟨mem_of_find?_eq_some hfind, hp, fun y hy hpy => ?_⟩
  rw [hsplit] at hsorted hy
  rcases mem_append.1 hy with hearly | hlate
  · have hfalse := hbefore y hearly
    rw [hpy] at hfalse
    cases hfalse
  · rcases mem_cons.1 hlate with rfl | hlate
    · exact Nat.le_refl _
    · exact le_of_lt ((pairwise_cons.1 (pairwise_append.1 hsorted).2.1).1 y hlate)

/-- The invariant of the rank. -/
structure Orderly (r : Rank) : Prop where
  posted : Queued AmpiRequest.tags r.postedReqs r.waiting
  unexpected : Queued AmpiMsg.tags r.unexpectedMsgs r.unreceived
  arrived : Numbered AmpiMsg.number r.arrived
  requested : Numbered AmpiRequest.number r.requested
  mem : ∀ pair ∈ r.matched, pair.1 ∈ r.requested ∧ pair.2 ∈ r.arrived ∧
    pair.1.tags.matches pair.2.tags = true
  requests_nodup : (r.matched.map Prod.fst).Nodup
  messages_nodup : (r.matched.map Prod.snd).Nodup
  apart : ∀ req ∈ r.waiting, ∀ msg ∈ r.unreceived, req.tags.matches msg.tags = false
  inOrder : ∀ before req msg after, r.matched = before ++ (req, msg) :: after →
    ∀ msg' ∈ r.arrived, msg'.number < msg.number → req.tags.matches msg'.tags = true →
      msg' ∈ before.map Prod.snd

theorem orderly_init : Orderly Rank.init where
  posted := holds_init
  unexpected := holds_init
  arrived := rfl
  requested := rfl
  mem := nofun
  requests_nodup := nodup_nil
  messages_nodup := nodup_nil
  apart := nofun
  inOrder _ _ _ _ h := absurd h (by simp [Rank.init])

variable {r r' : Rank} {msg : AmpiMsg} {req : AmpiRequest} {addr : Nat} {arrived : List AmpiMsg}

theorem Rank.mem_waiting : req ∈ r.waiting ↔ req ∈ r.requested ∧ req ∉ r.matched.map Prod.fst :=
  mem_outstanding

theorem Rank.mem_unreceived : msg ∈ r.unreceived ↔ msg ∈ r.arrived ∧ msg ∉ r.matched.map Prod.snd :=
  mem_outstanding

theorem Orderly.msg_notMem (h : Orderly r) (hnum : msg.number = r.arrived.length) :
    msg ∉ r.matched.map Prod.snd := by
  intro hmem
  obtain ⟨pair, hpair, rfl⟩ := mem_map.1 hmem
  exact h.arrived.notMem hnum (h.mem pair hpair).2.1

theorem Orderly.req_notMem (h : Orderly r) (hnum : req.number = r.requested.length) :
    req ∉ r.matched.map Prod.fst := by
  intro hmem
  obtain ⟨pair, hpair, rfl⟩ := mem_map.1 hmem
  exact h.requested.notMem hnum (h.mem pair hpair).1

/-- A pair of a log with one more pair is the last one or one of the others. -/
theorem split_concat {before after : List α} {y : α} (h : log ++ [y] = before ++ x :: after) :
    before = log ∧ x = y ∨ ∃ after', log = before ++ x :: after' := by
  rcases eq_nil_or_concat after with rfl | ⟨after', z, rfl⟩
  · obtain ⟨h, hx⟩ := append_inj' h rfl
    exact .inl ⟨h.symm, (List.cons.inj hx).1.symm⟩
  · rw [concat_eq_append, ← cons_append, ← append_assoc] at h
    exact .inr ⟨after', (append_inj' h rfl).1⟩

/-- A new pair keeps the order if every earlier message that matches has been received. -/
theorem Orderly.inOrder_concat (h : Orderly r)
    (harr : ∀ msg' ∈ arrived, msg' ∈ r.arrived ∨ r.arrived.length ≤ msg'.number)
    (hlast : ∀ msg' ∈ arrived, msg'.number < msg.number → req.tags.matches msg'.tags = true →
      msg' ∈ r.matched.map Prod.snd) :
    ∀ before req1 msg1 after, r.matched ++ [(req, msg)] = before ++ (req1, msg1) :: after →
      ∀ msg' ∈ arrived, msg'.number < msg1.number → req1.tags.matches msg'.tags = true →
        msg' ∈ before.map Prod.snd := by
  intro before req1 msg1 after hsplit msg' hmem hlt hmatch
  rcases split_concat hsplit with ⟨rfl, hpair⟩ | ⟨after', hsplit⟩
  · cases hpair
    exact hlast msg' hmem hlt hmatch
  · rcases harr msg' hmem with hold | hnew
    · exact h.inOrder before req1 msg1 after' hsplit msg' hold hlt hmatch
    · have hlt1 := h.arrived.lt (h.mem (req1, msg1) (by rw [hsplit]; simp)).2.1
      exact absurd (lt_trans hlt hlt1) (Nat.not_lt_of_le hnew)

/-! ## One step -/

/-- A request and a message are matched that are outstanding or new. -/
theorem Orderly.pair (h : Orderly r) {requested : List AmpiRequest}
    (harr : r.arrived ⊆ arrived) (hrequested : r.requested ⊆ requested) (hreq : req ∈ requested)
    (hmsg : msg ∈ arrived) (hreq' : req ∉ r.matched.map Prod.fst)
    (hmsg' : msg ∉ r.matched.map Prod.snd) (hmatch : req.tags.matches msg.tags = true) :
    (∀ pair ∈ r.matched ++ [(req, msg)], pair.1 ∈ requested ∧ pair.2 ∈ arrived ∧
      pair.1.tags.matches pair.2.tags = true) ∧ ((r.matched ++ [(req, msg)]).map Prod.fst).Nodup ∧
    ((r.matched ++ [(req, msg)]).map Prod.snd).Nodup := by
  refine ⟨forall_mem_concat (fun pair hpair => ?_) ⟨hreq, hmsg, hmatch⟩, ?_, ?_⟩
  · obtain ⟨h1, h2, h3⟩ := h.mem pair hpair
    exact ⟨hrequested h1, harr h2, h3⟩
  · rw [map_append]
    exact h.requests_nodup.append (nodup_singleton _) (by simpa using hreq')
  · rw [map_append]
    exact h.messages_nodup.append (nodup_singleton _) (by simpa using hmsg')

variable {posted : Amm AmpiRequest} {unexpected : Amm AmpiMsg} {e : Event} {es : List Event}

section

variable (h : Orderly r)

include h

/-- A message arrives that a posted request matches. -/
theorem Orderly.arrive_matched (hnum : msg.number = r.arrived.length)
    (hfind : r.waiting.find? (fun req => msg.tags.matches req.tags) = some req)
    (hposted : Queued AmpiRequest.tags posted
      (r.waiting.eraseP fun req => msg.tags.matches req.tags)) :
    Orderly { r with
      postedReqs := posted
      arrived := r.arrived ++ [msg]
      matched := r.matched ++ [(req, msg)] } := by
  obtain ⟨hreq, hwait⟩ := Rank.mem_waiting.1 (mem_of_find?_eq_some hfind)
  have hmatch : req.tags.matches msg.tags = true := by
    rw [Tags.matches_comm]
    exact find?_some (p := fun req : AmpiRequest => msg.tags.matches req.tags) hfind
  have hwaiting : outstanding r.requested ((r.matched ++ [(req, msg)]).map Prod.fst) =
      r.waiting.eraseP fun req => msg.tags.matches req.tags := by
    rw [map_append]
    exact outstanding_done_concat h.requested.nodup hfind
  have hunrec : outstanding (r.arrived ++ [msg]) ((r.matched ++ [(req, msg)]).map Prod.snd) =
      r.unreceived := by
    rw [map_append]
    exact outstanding_concat_concat (h.arrived.notMem hnum)
  obtain ⟨hmem, hfst, hsnd⟩ := h.pair (subset_append_left _ [msg]) (Subset.refl _) hreq
    (mem_append_right _ (mem_singleton.2 rfl)) hwait (h.msg_notMem hnum) hmatch
  refine ⟨?_, ?_, h.arrived.concat hnum, h.requested, hmem, hfst, hsnd, ?_, ?_⟩
  · rw [← hwaiting] at hposted
    exact hposted
  · have hunex := h.unexpected
    rw [← hunrec] at hunex
    exact hunex
  · rw [Rank.waiting, hwaiting, Rank.unreceived, hunrec]
    exact fun req1 hreq1 => h.apart req1 (mem_of_mem_eraseP hreq1)
  · -- the request has waited, so that no unreceived message matches it
    refine h.inOrder_concat (fun msg' hmsg' => ?_) fun msg' hmsg' hlt hmatch' => ?_
    · rcases mem_append.1 hmsg' with hmsg' | hmsg'
      · exact .inl hmsg'
      · obtain rfl := mem_singleton.1 hmsg'
        exact .inr (le_of_eq hnum.symm)
    · rcases mem_append.1 hmsg' with hmsg' | hmsg'
      · by_contra hnot
        have hapart := h.apart req (Rank.mem_waiting.2 ⟨hreq, hwait⟩) msg'
          (Rank.mem_unreceived.2 ⟨hmsg', hnot⟩)
        rw [hmatch'] at hapart
        cases hapart
      · obtain rfl := mem_singleton.1 hmsg'
        exact absurd hlt (lt_irrefl _)

/-- A message arrives that no posted request matches. -/
theorem Orderly.arrive_kept (hnum : msg.number = r.arrived.length)
    (hfind : r.waiting.find? (fun req => msg.tags.matches req.tags) = none)
    (hunex : Queued AmpiMsg.tags unexpected (r.unreceived ++ [msg])) :
    Orderly { r with unexpectedMsgs := unexpected, arrived := r.arrived ++ [msg] } := by
  have hunrec : outstanding (r.arrived ++ [msg]) (r.matched.map Prod.snd) =
      r.unreceived ++ [msg] := outstanding_log_concat (h.msg_notMem hnum)
  refine { h with
    unexpected := ?_
    arrived := h.arrived.concat hnum
    mem := fun pair hpair => (h.mem pair hpair).imp_right (And.imp_left (mem_append_left _))
    apart := fun req1 hreq1 msg1 hmsg1 => ?_
    inOrder := fun before req1 msg1 after hsplit msg' hmsg' hlt hmatch => ?_ }
  · rw [← hunrec] at hunex
    exact hunex
  · rw [Rank.unreceived, hunrec] at hmsg1
    rcases mem_append.1 hmsg1 with hmsg1 | hmsg1
    · exact h.apart req1 hreq1 msg1 hmsg1
    · obtain rfl := mem_singleton.1 hmsg1
      rw [Tags.matches_comm]
      simpa using find?_eq_none.1 hfind req1 hreq1
  · rcases mem_append.1 hmsg' with hmsg' | hmsg'
    · exact h.inOrder before req1 msg1 after hsplit msg' hmsg' hlt hmatch
    · -- nothing that has been received is later than a message that arrives now
      obtain rfl := mem_singleton.1 hmsg'
      have hmem : (req1, msg1) ∈ r.matched := hsplit ▸ mem_append_right _ mem_cons_self
      have hlt1 := h.arrived.lt (h.mem _ hmem).2.1
      exact absurd (lt_trans hlt hlt1) (by rw [hnum]; exact lt_irrefl _)

/-- A request is made that an unexpected message matches. -/
theorem Orderly.recv_matched (hnum : req.number = r.requested.length)
    (hfind : r.unreceived.find? (fun msg => req.tags.matches msg.tags) = some msg)
    (hunex : Queued AmpiMsg.tags unexpected
      (r.unreceived.eraseP fun msg => req.tags.matches msg.tags)) : Orderly { r with
      unexpectedMsgs := unexpected
      requested := r.requested ++ [req]
      matched := r.matched ++ [(req, msg)] } := by
  obtain ⟨hmsg, hkept⟩ := Rank.mem_unreceived.1 (mem_of_find?_eq_some hfind)
  have hmatch : req.tags.matches msg.tags = true :=
    find?_some (p := fun msg : AmpiMsg => req.tags.matches msg.tags) hfind
  have hwaiting : outstanding (r.requested ++ [req]) ((r.matched ++ [(req, msg)]).map Prod.fst) =
      r.waiting := by
    rw [map_append]
    exact outstanding_concat_concat (h.requested.notMem hnum)
  have hunrec : outstanding r.arrived ((r.matched ++ [(req, msg)]).map Prod.snd) =
      r.unreceived.eraseP fun msg => req.tags.matches msg.tags := by
    rw [map_append]
    exact outstanding_done_concat h.arrived.nodup hfind
  obtain ⟨hmem, hfst, hsnd⟩ := h.pair (Subset.refl _) (subset_append_left _ [req])
    (mem_append_right _ (mem_singleton.2 rfl)) hmsg (h.req_notMem hnum) hkept hmatch
  refine ⟨?_, ?_, h.arrived, h.requested.concat hnum, hmem, hfst, hsnd, ?_, ?_⟩
  · have hposted := h.posted
    rw [← hwaiting] at hposted
    exact hposted
  · rw [← hunrec] at hunex
    exact hunex
  · rw [Rank.waiting, hwaiting, Rank.unreceived, hunrec]
    exact fun req1 hreq1 msg1 hmsg1 => h.apart req1 hreq1 msg1 (mem_of_mem_eraseP hmsg1)
  · -- the message is the first one that matches, so that the earlier ones have been received
    refine h.inOrder_concat (fun msg' => .inl) fun msg' hmsg' hlt hmatch' => ?_
    by_contra hnot
    have hearliest := isEarliest_of_find (h.arrived.pairwise.sublist outstanding_sublist) hfind
    exact absurd hlt
      (Nat.not_lt.2 (hearliest.2.2 msg' (Rank.mem_unreceived.2 ⟨hmsg', hnot⟩) hmatch'))

/-- A request is made that no unexpected message matches. -/
theorem Orderly.recv_posted (hnum : req.number = r.requested.length)
    (hfind : r.unreceived.find? (fun msg => req.tags.matches msg.tags) = none)
    (hposted : Queued AmpiRequest.tags posted (r.waiting ++ [req])) :
    Orderly { r with postedReqs := posted, requested := r.requested ++ [req] } := by
  have hwaiting : outstanding (r.requested ++ [req]) (r.matched.map Prod.fst) =
      r.waiting ++ [req] :=
    outstanding_log_concat (h.req_notMem hnum)
  refine { h with
    posted := ?_
    requested := h.requested.concat hnum
    mem := fun pair hpair => (h.mem pair hpair).imp_left (mem_append_left _)
    apart := fun req1 hreq1 msg1 hmsg1 => ?_ }
  · rw [← hwaiting] at hposted
    exact hposted
  · rw [Rank.waiting, hwaiting] at hreq1
    rcases mem_append.1 hreq1 with hreq1 | hreq1
    · exact h.apart req1 hreq1 msg1 hmsg1
    · obtain rfl := mem_singleton.1 hreq1
      simpa using find?_eq_none.1 hfind msg1 hmsg1

/-! ## The functions -/

/-- What `inorder` does with a message and the request that is found for it. -/
theorem Orderly.inorder (hfresh : r.Fresh addr) (hnum : msg.number = r.arrived.length) :
    ∃ r', r.inorder msg addr = some r' ∧ Orderly r' ∧ r'.arrived = r.arrived ++ [msg] ∧
      r'.requested = r.requested ∧ r'.probed = r.probed ∧ r'.matched = r.matched ++
        ((r.waiting.find? fun req => msg.tags.matches req.tags).map fun req =>
          (req, msg)).toList := by
  obtain ⟨posted, hget, hposted⟩ := h.posted.get msg.tags
  rw [Rank.inorder, hget]
  cases hfind : r.waiting.find? fun req => msg.tags.matches req.tags with
  | some req =>
    exact ⟨_, rfl, h.arrive_matched hnum hfind hposted, rfl, rfl, rfl, rfl⟩
  | none =>
    obtain ⟨unexpected, hput, hunex⟩ := h.unexpected.put hfresh.1 hfresh.2.2 msg
    refine ⟨_, congrArg (Option.map _) hput, h.arrive_kept hnum hfind hunex,
      rfl, rfl, rfl, (append_nil _).symm⟩

/-- What `recv` and `irecv` do with a request and the message that is found for it. -/
theorem Orderly.recv (hfresh : r.Fresh addr)
    (hnum : req.number = r.requested.length) (hsrc : req.tags.src ≠ mpiProcNull) :
    ∃ r', r.recv req addr = some r' ∧ Orderly r' ∧ r'.arrived = r.arrived ∧
      r'.requested = r.requested ++ [req] ∧ r'.probed = r.probed ∧ r'.matched = r.matched ++
        ((r.unreceived.find? fun msg => req.tags.matches msg.tags).map fun msg =>
          (req, msg)).toList := by
  obtain ⟨unexpected, hget, hunex⟩ := h.unexpected.get req.tags
  rw [Rank.recv, if_neg hsrc, hget]
  cases hfind : r.unreceived.find? fun msg => req.tags.matches msg.tags with
  | some msg =>
    exact ⟨_, rfl, h.recv_matched hnum hfind hunex, rfl, rfl, rfl, rfl⟩
  | none =>
    obtain ⟨posted, hput, hposted⟩ := h.posted.put hfresh.1 hfresh.2.1 req
    refine ⟨_, congrArg (Option.map _) hput, h.recv_posted hnum hfind hposted,
      rfl, rfl, rfl, (append_nil _).symm⟩

/-- A probe changes nothing but the log of what probes have found. -/
theorem Orderly.probe (hsrc : req.tags.src ≠ mpiProcNull) :
    r.probe req = some { r with probed := r.probed ++
      ((r.unreceived.find? fun msg => req.tags.matches msg.tags).map fun msg => (req, msg)).toList
          } := by
  rw [Rank.probe, if_neg hsrc, h.unexpected.probe, map_some, Option.map_map]
  rfl

/-- A probe that takes the message is a receive that does not wait. -/
theorem Orderly.mprobe (hnum : req.number = r.requested.length)
    (hsrc : req.tags.src ≠ mpiProcNull) :
    ∃ r', r.mprobe req = some r' ∧ Orderly r' ∧ r'.arrived = r.arrived ∧ r'.probed = r.probed ∧
      match r.unreceived.find? fun msg => req.tags.matches msg.tags with
      | some msg => r'.requested = r.requested ++ [req] ∧ r'.matched = r.matched ++ [(req, msg)]
      | none => r'.requested = r.requested ∧ r'.matched = r.matched := by
  obtain ⟨unexpected, hget, hunex⟩ := h.unexpected.get req.tags
  rw [Rank.mprobe, if_neg hsrc, hget]
  cases hfind : r.unreceived.find? fun msg => req.tags.matches msg.tags with
  | some msg =>
    exact ⟨_, rfl, h.recv_matched hnum hfind hunex, rfl, rfl, rfl, rfl⟩
  | none => exact ⟨r, rfl, h, rfl, rfl, rfl, rfl⟩

theorem Orderly.probed (probed : List (AmpiRequest × AmpiMsg)) :
    Orderly { r with probed := probed } := { h with }

end

/-- A log gets new entries at its end, each with a property. -/
def Adds (P : α → Prop) (l l' : List α) : Prop := ∃ new, l' = l ++ new ∧ ∀ x ∈ new, P x

section Adds

variable {P : α → Prop} {l l' : List α}

theorem Adds.refl : Adds P l l := ⟨[], (append_nil _).symm, nofun⟩

theorem Adds.concat (hx : P x) : Adds P l (l ++ [x]) := ⟨[x], rfl, forall_mem_singleton.2 hx⟩

/-- The entry for what a search has found. -/
theorem Adds.found {β : Type} {found : Option β} {f : β → α} (h : ∀ y, found = some y → P (f y)) :
    Adds P l (l ++ (found.map f).toList) := by
  cases found with
  | none => exact ⟨[], rfl, nofun⟩
  | some y => exact .concat (h y rfl)

theorem Adds.subset (h : Adds P l l') : l ⊆ l' := by
  obtain ⟨new, rfl, -⟩ := h
  exact subset_append_left _ _

theorem Adds.forall_mem {Q : α → Prop} (h : Adds P l l') (hl : ∀ x ∈ l, Q x)
    (hPQ : ∀ x, P x → Q x) : ∀ x ∈ l', Q x := by
  obtain ⟨new, rfl, hnew⟩ := h
  exact forall_mem_append.2 ⟨hl, fun x hx => hPQ x (hnew x hx)⟩

end Adds

/-- The request with which the rank looks for a message. -/
def Event.request? : Event → Option AmpiRequest
  | .arrive _ => none
  | .recv req | .probe req | .mprobe req => some req

/-- The pair that the search of a step finds. -/
def Finds (r : Rank) (pair : AmpiRequest × AmpiMsg) : Event → Prop
  | .arrive msg => pair.2 = msg ∧ r.waiting.find?
      (fun req => msg.tags.matches req.tags) = some pair.1
  | .recv req | .probe req | .mprobe req =>
    pair.1 = req ∧ r.unreceived.find? (fun msg => req.tags.matches msg.tags) = some pair.2

/-- All that a step does to the logs. A request that is matched at once is a new one. -/
structure Advances (r : Rank) (e : Event) (r' : Rank) : Prop where
  orderly : Orderly r'
  arrived : Adds (fun msg => e = .arrive msg) r.arrived r'.arrived
  requested : Adds (fun req => e.request? = some req) r.requested r'.requested
  matched : Adds (fun pair => Finds r pair e ∧ (e = .arrive pair.2 ∨ pair.1 ∉ r.requested))
    r.matched r'.matched
  probed : Adds (fun pair => Finds r pair e) r.probed r'.probed

theorem Orderly.advances (h : Orderly r) (hstep : Step r e r') : Advances r e r' := by
  have hsame : Advances r e r := ⟨h, .refl, .refl, .refl, .refl⟩
  cases hstep with
  | arrive hfresh hnum hr' =>
    obtain ⟨r1, hr1, horderly, harr, hreq, hprobed, hmat⟩ := h.inorder hfresh hnum
    cases hr1.symm.trans hr'
    refine ⟨horderly, harr ▸ .concat rfl, hreq ▸ .refl, ?_, hprobed ▸ .refl⟩
    rw [hmat]
    exact .found fun req hfind => ⟨⟨rfl, hfind⟩, .inl rfl⟩
  | @recv _ req addr hfresh hnum hr' =>
    by_cases hsrc : req.tags.src = mpiProcNull
    · rw [Rank.recv, if_pos hsrc] at hr'
      cases hr'
      exact hsame
    · obtain ⟨r1, hr1, horderly, harr, hreq, hprobed, hmat⟩ := h.recv hfresh hnum hsrc
      cases hr1.symm.trans hr'
      refine ⟨horderly, harr ▸ .refl, hreq ▸ .concat rfl, ?_, hprobed ▸ .refl⟩
      rw [hmat]
      exact .found fun msg hfind => ⟨⟨rfl, hfind⟩, .inr (h.requested.notMem hnum)⟩
  | @probe _ req hr' =>
    by_cases hsrc : req.tags.src = mpiProcNull
    · rw [Rank.probe, if_pos hsrc] at hr'
      cases hr'
      exact hsame
    · cases (h.probe hsrc).symm.trans hr'
      exact ⟨h.probed _, .refl, .refl, .refl, .found fun msg hfind => ⟨rfl, hfind⟩⟩
  | @mprobe _ req hnum hr' =>
    by_cases hsrc : req.tags.src = mpiProcNull
    · rw [Rank.mprobe, if_pos hsrc] at hr'
      cases hr'
      exact hsame
    · obtain ⟨r1, hr1, horderly, harr, hprobed, hfound⟩ := h.mprobe hnum hsrc
      cases hr1.symm.trans hr'
      cases hfind : r.unreceived.find? fun msg => req.tags.matches msg.tags with
      | none =>
        rw [hfind] at hfound
        exact ⟨horderly, harr ▸ .refl, hfound.1 ▸ .refl, hfound.2 ▸ .refl, hprobed ▸ .refl⟩
      | some msg =>
        rw [hfind] at hfound
        refine ⟨horderly, harr ▸ .refl, hfound.1 ▸ .concat rfl, ?_, hprobed ▸ .refl⟩
        rw [hfound.2]
        exact .concat ⟨⟨rfl, hfind⟩, .inr (h.requested.notMem hnum)⟩

theorem orderly_of_run (hrun : Run Step Rank.init es r) : Orderly r :=
  hrun.invariant orderly_init fun _ _ _ h hstep => (h.advances hstep).orderly

instance : Decidable (r.Fresh addr) := inferInstanceAs (Decidable (_ ∧ _ ∧ _))

/-- A step that can be computed, while no entry has been made by `new`. -/
def Rank.exec (r : Rank) : Event → Option Rank
  | .arrive msg =>
    if r.Fresh ammPoolSize ∧ msg.number = r.arrived.length then r.inorder msg ammPoolSize else none
  | .recv req =>
    if r.Fresh ammPoolSize ∧ req.number = r.requested.length then r.recv req ammPoolSize else none
  | .probe req => r.probe req
  | .mprobe req => if req.number = r.requested.length then r.mprobe req else none

theorem step_of_exec (h : r.exec e = some r') : Step r e r' := by
  cases e with
  | arrive msg =>
    obtain ⟨⟨hfresh, hnum⟩, h⟩ := ite_none_right_eq_some.1 h
    exact .arrive hfresh hnum h
  | recv req =>
    obtain ⟨⟨hfresh, hnum⟩, h⟩ := ite_none_right_eq_some.1 h
    exact .recv hfresh hnum h
  | probe req => exact .probe h
  | mprobe req =>
    obtain ⟨hnum, h⟩ := ite_none_right_eq_some.1 h
    exact .mprobe hnum h

theorem run_of_exec (h : es.foldlM Rank.exec Rank.init = some r) : Run Step Rank.init es r :=
  (Run.of_foldlM h).mono fun _ _ _ => step_of_exec

/-! ## The rules of MPI -/

/-- The rules of MPI, for what can happen next and for what has happened. -/
structure ObeysMpi (r : Rank) : Prop where
  /-- No request and message that match each other are both outstanding. -/
  apart : ∀ req ∈ r.waiting, ∀ msg ∈ r.unreceived, req.tags.matches msg.tags = false
  /-- A message completes the earliest request that matches it, or becomes outstanding. -/
  arrive : ∀ msg addr, r.Fresh addr → msg.number = r.arrived.length →
    ∃ r', r.inorder msg addr = some r' ∧
      ((∃ req, IsEarliest AmpiRequest.number (fun req => req.tags.matches msg.tags = true)
        r.waiting req ∧
          r'.matched = r.matched ++ [(req, msg)] ∧ r'.unreceived = r.unreceived) ∨
        (∀ req ∈ r.waiting, req.tags.matches msg.tags = false) ∧ r'.matched = r.matched ∧
          r'.unreceived = r.unreceived ++ [msg])
  /-- A request takes the earliest message that matches it, or becomes outstanding. -/
  recv : ∀ req addr, r.Fresh addr → req.number = r.requested.length → req.tags.src ≠ mpiProcNull →
    ∃ r', r.recv req addr = some r' ∧
      ((∃ msg, IsEarliest AmpiMsg.number (fun msg => req.tags.matches msg.tags = true)
        r.unreceived msg ∧
          r'.matched = r.matched ++ [(req, msg)] ∧ r'.waiting = r.waiting) ∨
        (∀ msg ∈ r.unreceived, req.tags.matches msg.tags = false) ∧ r'.matched = r.matched ∧
          r'.waiting = r.waiting ++ [req])
  /-- A message is received after every earlier one that its request matches. -/
  inOrder : ∀ before req msg after, r.matched = before ++ (req, msg) :: after →
    ∀ msg' ∈ r.arrived, msg'.number < msg.number → req.tags.matches msg'.tags = true →
      msg' ∈ before.map Prod.snd
  /-- No request and no message is matched twice. -/
  requests_nodup : (r.matched.map Prod.fst).Nodup
  messages_nodup : (r.matched.map Prod.snd).Nodup
  mem : ∀ pair ∈ r.matched, pair.1 ∈ r.requested ∧ pair.2 ∈ r.arrived ∧
    pair.1.tags.matches pair.2.tags = true
  /-- None is lost: what has not been matched is in the queues. -/
  posted : Queued AmpiRequest.tags r.postedReqs r.waiting
  unexpected : Queued AmpiMsg.tags r.unexpectedMsgs r.unreceived

theorem Orderly.obeysMpi (h : Orderly r) : ObeysMpi r := { h with
  arrive := fun msg addr hfresh hnum => by
    obtain ⟨r', hr', -, harr, hrequested, -, hmat⟩ := h.inorder hfresh hnum
    refine ⟨r', hr', ?_⟩
    cases hfind : r.waiting.find? fun req => msg.tags.matches req.tags with
    | some req =>
      rw [hfind] at hmat
      have hearliest := isEarliest_of_find (h.requested.pairwise.sublist outstanding_sublist) hfind
      simp only [Tags.matches_comm msg.tags] at hearliest
      refine .inl ⟨req, hearliest, hmat, ?_⟩
      rw [Rank.unreceived, harr, hmat]
      simp only [map_some, toList_some, map_append, map_singleton]
      exact outstanding_concat_concat (h.arrived.notMem hnum)
    | none =>
      rw [hfind] at hmat
      have hsame : r'.matched = r.matched := by simpa using hmat
      refine .inr ⟨fun req hreq => ?_, hsame, ?_⟩
      · rw [Tags.matches_comm]
        simpa using find?_eq_none.1 hfind req hreq
      · rw [Rank.unreceived, harr, hsame]
        exact outstanding_log_concat (h.msg_notMem hnum)
  recv := fun req addr hfresh hnum hsrc => by
    obtain ⟨r', hr', -, harr, hrequested, -, hmat⟩ := h.recv hfresh hnum hsrc
    refine ⟨r', hr', ?_⟩
    cases hfind : r.unreceived.find? fun msg => req.tags.matches msg.tags with
    | some msg =>
      rw [hfind] at hmat
      refine .inl ⟨msg, isEarliest_of_find (h.arrived.pairwise.sublist outstanding_sublist) hfind,
        hmat, ?_⟩
      rw [Rank.waiting, hrequested, hmat]
      simp only [map_some, toList_some, map_append, map_singleton]
      exact outstanding_concat_concat (h.requested.notMem hnum)
    | none =>
      rw [hfind] at hmat
      have hsame : r'.matched = r.matched := by simpa using hmat
      refine .inr ⟨fun msg hmsg => ?_, hsame, ?_⟩
      · simpa using find?_eq_none.1 hfind msg hmsg
      · rw [Rank.waiting, hrequested, hsame]
        exact outstanding_log_concat (h.req_notMem hnum) }

/-- Message matching obeys the rules of MPI after any arrivals, receives and probes. -/
theorem matching_obeys_mpi {es : List Event} {r : Rank} (hrun : Run Step Rank.init es r) :
    ObeysMpi r :=
  (orderly_of_run hrun).obeysMpi

/-- Three messages arrive and are received with wildcards, and a receive waits for a fourth. -/
theorem matching_obeys_mpi_wildcards : ∃ (es : List Event) (r : Rank), Run Step Rank.init es r ∧
    r.matched.map (fun p => (p.1.number, p.2.number)) = [(0, 0), (1, 2), (3, 1), (2, 3)] ∧
      ObeysMpi r := by
  let es : List Event := [.arrive ⟨⟨5, 1⟩, .user, 0⟩, .arrive ⟨⟨6, 1⟩, .user, 1⟩,
    .arrive ⟨⟨5, 1⟩, .user, 2⟩, .recv ⟨⟨mpiAnyTag, mpiAnySource⟩, .user, 0⟩,
    .recv ⟨⟨5, mpiAnySource⟩, .user, 1⟩, .recv ⟨⟨7, 1⟩, .user, 2⟩,
    .recv ⟨⟨mpiAnyTag, 1⟩, .user, 3⟩, .arrive ⟨⟨7, 1⟩, .user, 3⟩]
  have hexec : (es.foldlM Rank.exec .init).any (fun r =>
      r.matched.map (fun p => (p.1.number, p.2.number)) = [(0, 0), (1, 2), (3, 1), (2, 3)])
      = true := by
    decide +kernel
  obtain ⟨r, hr, hmatched⟩ := Run.exists_of_any hexec
  have hrun := run_of_exec hr
  exact ⟨es, r, hrun, hmatched, matching_obeys_mpi hrun⟩

end CharmRuntime.Ampi
