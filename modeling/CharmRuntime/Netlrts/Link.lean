import CharmRuntime.Lib.Run
import CharmRuntime.Netlrts.Receiver
import CharmRuntime.Netlrts.Sender

/-!
# The two sides together

`Link.Ok` says that everything the sender discarded is stored by the receiver, that everything the
receiver stored was transmitted, and that the packets and acknowledgements in the network say the
truth. So the first missing datagram `R` of the receiver and the first datagram `N` that was never
transmitted satisfy `R ≤ N ≤ R + W`, and sequence numbers of 16 bits are enough as long as nothing
arrives that is too old. Every event keeps the invariant (`Step.ok`), if the age of an
acknowledgement is counted from its first missing datagram (`AckCurrent`).
-/

set_option autoImplicit false

namespace CharmRuntime.Netlrts

open Lib List

variable {cfg : Config}

/-- The invariant of the link. -/
structure Link.Ok (cfg : Config) (l : Link) (N : Nat) (rq : List ImplicitDgram)
    (R : Nat) : Prop where
  sender : l.send.Ok cfg N rq
  receiver : l.recv.Ok cfg l.send.enqueued R
  streams : Streams cfg l.messages l.send.enqueued
  stored_lt : ∀ a, l.recv.Stored a → a < N
  discarded : ∀ a ∈ l.send.discarded, l.recv.Stored a
  packets : ∀ dg ∈ l.packets, Genuine cfg l.send.enqueued dg ∧ dg.index < N
  acks : ∀ ack ∈ l.acks, ack.next ≤ R ∧ ack.Tells cfg ack.next l.recv.Stored

section Invariant

variable {l : Link} {N R : Nat} {rq : List ImplicitDgram}

variable {enqueued : List ImplicitDgram} {r : RecvState} {s : SendState} {dg : ExplicitDgram}
  {ack : DgramAck}

theorem RecvState.Ok.stored_of_lt (h : r.Ok cfg enqueued R) {a : Nat} (ha : a < R) : r.Stored a :=
  .inl (h.holds.assembled ▸ mem_range.2 ha)

theorem RecvState.Ok.not_stored (h : r.Ok cfg enqueued R) : ¬ r.Stored R := by
  rintro (hR | ⟨slot, dg, hdg, hindex⟩)
  · rw [h.holds.assembled, mem_range] at hR
    exact lt_irrefl R hR
  · have hslot := (h.holds.placed slot dg hdg).1
    rw [hslot, hindex, h.missing] at hdg
    cases hdg

/-- The receiver is not ahead of the sender. -/
theorem Link.Ok.le_sent (h : l.Ok cfg N rq R) : R ≤ N := by
  by_contra hlt
  exact hlt (le_of_not_gt fun hN => lt_irrefl N (h.stored_lt N (h.receiver.stored_of_lt hN)))

/-- The sender is at most a window ahead: the first missing datagram cannot have been discarded. -/
theorem Link.Ok.sent_le (h : l.Ok cfg N rq R) : N ≤ R + cfg.windowSize := by
  rcases lt_or_ge R N with hlt | hge
  · rcases h.sender.tracks.cover R hlt with hgone | hrq | ⟨d, hd, rfl⟩
    · exact absurd (h.discarded R hgone) h.receiver.not_stored
    · obtain ⟨d, hd, rfl⟩ := mem_map.1 hrq
      exact (h.sender.tracks.requeued d hd).1.le
    · exact (h.sender.tracks.placed _ d hd).1.le
  · exact Nat.le_add_right_of_le hge

/-! ## Steps -/

theorem initialLink_ok : initialLink.Ok cfg 0 [] 0 := by
  refine ⟨⟨?_, rfl, le_rfl, rfl, ?_⟩, ⟨⟨rfl, rfl, ?_⟩, rfl, rfl⟩, streams_nil, ?_, ?_, ?_, ?_⟩
  · intro i d hd
    cases hd
  · refine ⟨?_, ?_, nodup_nil, ?_⟩
    · intro _ _ hd
      cases hd
    · intro _ hd
      cases hd
    · intro a ha
      cases ha
  · intro _ _ hd
    cases hd
  · rintro a (ha | ⟨_, _, hd, -⟩)
    · cases ha
    · cases hd
  · intro a ha
    cases ha
  · intro dg hdg
    cases hdg
  · intro ack hack
    cases hack

/-- `DeliverViaNetwork` on the sending side. -/
theorem SendState.Ok.deliver (h : s.Ok cfg N rq) (ogm : OutgoingMsg) :
    (deliverViaNetwork cfg s ogm).Ok cfg N rq ∧
      (deliverViaNetwork cfg s ogm).discarded = s.discarded := by
  rw [deliverViaNetwork]
  generalize ogm.fragments cfg = pieces
  induction pieces generalizing s with
  | nil => exact ⟨h, rfl⟩
  | cons p pieces ih => exact ih (h.enqueue ogm p)

/-- New datagrams do not matter to the receiver. -/
theorem RecvState.Ok.mono
    (h : r.Ok cfg enqueued R) (hR : R ≤ enqueued.length) (new : List ImplicitDgram) :
    r.Ok cfg (enqueued ++ new) R := by
  refine ⟨⟨h.holds.assembled, ?_, ?_⟩, h.next, h.missing⟩
  · rw [take_append_of_le_length hR]
    exact h.holds.intake
  · intro slot dg hdg
    obtain ⟨hslot, hle, hlt, hgen⟩ := h.holds.placed slot dg hdg
    exact ⟨hslot, hle, hlt, hgen.mono new⟩

theorem Link.Ok.send (h : l.Ok cfg N rq R) {ogm : OutgoingMsg}
    (hwf : ogm.WellFormed cfg) : Link.Ok cfg
      { l with send := deliverViaNetwork cfg l.send ogm, messages := l.messages ++ [ogm] }
      N rq R := by
  obtain ⟨hsend, hdis⟩ := h.sender.deliver ogm
  obtain ⟨new, henq, -⟩ : ∃ new, (deliverViaNetwork cfg l.send ogm).enqueued =
    l.send.enqueued ++ new ∧
      new.map ImplicitDgram.data = ogm.fragments cfg := enqueued_deliverViaNetwork l.send ogm
  refine ⟨hsend, ?_, h.streams.deliver hwf, h.stored_lt, ?_, ?_, h.acks⟩
  · rw [henq]
    exact h.receiver.mono (le_trans h.le_sent h.sender.sent_le) new
  · rw [hdis]
    exact h.discarded
  · intro dg hdg
    rw [henq]
    exact ⟨(h.packets dg hdg).1.mono new, (h.packets dg hdg).2⟩

theorem Link.Ok.transmit (h : l.Ok cfg N rq R) {late : Bool}
    (heq : transmitDatagram cfg l.send late = some (s, dg)) :
    ∃ N' rq', Link.Ok cfg { l with send := s, packets := l.packets ++ [dg] } N' rq' R := by
  obtain ⟨N', rq', hok, hle, henq, hdis, d, hd, hlt, rfl⟩ := transmitDatagram_spec h.sender heq
  have hgen : Genuine cfg l.send.enqueued (transmitImplicitDgram cfg d) :=
    ⟨d, hd, h.sender.seqno hd, rfl⟩
  refine ⟨N', rq', hok, ?_, ?_, fun a ha => lt_of_lt_of_le (h.stored_lt a ha) hle, ?_, ?_, h.acks⟩
  · rw [henq]
    exact h.receiver
  · rw [henq]
    exact h.streams
  · rw [hdis]
    exact h.discarded
  · rw [henq]
    exact forall_mem_concat (fun dg hdg => (h.packets dg hdg).imp_right fun hlt =>
      lt_of_lt_of_le hlt hle)
      ⟨hgen, hlt⟩

theorem DgramAck.Tells.mono {r : Nat} {A A' : Nat → Prop} (h : ack.Tells cfg r A)
    (hle : ∀ a, A a → A' a) : ack.Tells cfg r A' :=
  ⟨h.seqno, fun a ha => hle a (h.before a ha), fun i hi hw => hle _ (h.flags i hi hw)⟩

/-- A datagram that is not too old is received without killing the program. -/
theorem Link.Ok.receive (h : l.Ok cfg N rq R) (hsent : dg ∈ l.packets)
    (hage : cfg.Recent l (dg.index + 1)) : ∃ r R', integrateMessageDatagram cfg l.recv dg = some r ∧
      Link.Ok cfg { l with recv := r } N rq R' := by
  obtain ⟨hgen, hlt⟩ := h.packets dg hsent
  have hRN := h.le_sent
  have hNR := h.sent_le
  have hNE := h.sender.sent_le
  rw [Config.Recent] at hage
  obtain ⟨r, R', heq, hok, hRR', hkeep, hnew⟩ := integrateMessageDatagram_spec h.streams h.receiver
    hgen (by omega) (by omega)
  refine ⟨r, R', heq, h.sender, hok, h.streams, ?_, fun a ha => hkeep a (h.discarded a ha),
    h.packets, fun ack hack => ?_⟩
  · intro a ha
    rcases hnew a ha with ha | rfl
    · exact h.stored_lt a ha
    · exact hlt
  · obtain ⟨hle, htells⟩ := h.acks ack hack
    exact ⟨le_trans hle hRR', htells.mono hkeep⟩

/-- The flags of a new acknowledgement are those of stored datagrams. -/
theorem RecvState.Ok.tells (h : r.Ok cfg enqueued R) (sentAt : Nat) :
    (transmitAckDatagram cfg r sentAt).2.Tells cfg R r.Stored := by
  refine ⟨h.next, fun a ha => h.stored_of_lt ha, fun i hi hflag => ?_⟩
  have hW := cfg.window_le
  simp only [transmitAckDatagram, ackWindow, h.next, seqnoMask] at hflag
  split at hflag
  · next dg hdg =>
    obtain ⟨-, hle, hlt, hgen⟩ := h.holds.placed _ dg hdg
    have hseqno := hgen.seqno
    rw [of_decide_eq_true hflag] at hseqno
    exact .inr ⟨_, dg, hdg, by omega⟩
  · cases hflag

theorem Link.Ok.acknowledge (h : l.Ok cfg N rq R) : Link.Ok cfg { l with
        recv := (transmitAckDatagram cfg l.recv l.send.enqueued.length).1
        acks := l.acks ++ [(transmitAckDatagram cfg l.recv l.send.enqueued.length).2] }
      N rq R := by
  have hr := h.receiver
  refine { h with receiver := { hr with holds := { hr.holds with } }, acks :=
    forall_mem_concat h.acks ?_ }
  have hnext : (transmitAckDatagram cfg l.recv l.send.enqueued.length).2.next = R := by
    rw [transmitAckDatagram, hr.holds.assembled, length_range]
  rw [hnext]
  exact ⟨le_rfl, hr.tells _⟩

theorem Link.Ok.receiveAck (h : l.Ok cfg N rq R) (hsent : ack ∈ l.acks)
    (hage : cfg.AckCurrent l ack) :
    ∃ rq', Link.Ok cfg { l with send := integrateAckDatagram cfg l.send ack } N rq' R := by
  obtain ⟨hle, htells⟩ := h.acks ack hsent
  have hRN := h.le_sent
  have hNE := h.sender.sent_le
  have hW := cfg.window_le
  rw [Config.AckCurrent, Config.Recent] at hage
  obtain ⟨rq', hok, henq, hdis⟩ :=
    integrateAckDatagram_spec htells (le_trans hle hRN) (by omega) h.sender
  refine ⟨rq', hok, ?_, ?_, h.stored_lt, ?_, ?_, h.acks⟩
  · rw [henq]
    exact h.receiver
  · rw [henq]
    exact h.streams
  · intro a ha
    rcases hdis a ha with ha | ha
    · exact h.discarded a ha
    · exact ha
  · rw [henq]
    exact h.packets

/-- One event. -/
theorem Step.ok {l' : Link} {e : Event} (hstep : Step cfg cfg.AckCurrent l e l')
    (h : ∃ N rq R, l.Ok cfg N rq R) : ∃ N rq R, l'.Ok cfg N rq R := by
  obtain ⟨N, rq, R, h⟩ := h
  cases hstep with
  | send hwf => exact ⟨N, rq, R, h.send hwf⟩
  | transmit heq =>
    obtain ⟨N', rq', h'⟩ := h.transmit heq
    exact ⟨N', rq', R, h'⟩
  | receive hsent hage heq =>
    obtain ⟨r, R', heq', h'⟩ := h.receive hsent hage
    cases heq'.symm.trans heq
    exact ⟨N, rq, R', h'⟩
  | acknowledge => exact ⟨N, rq, R, h.acknowledge⟩
  | receiveAck hsent hage =>
    obtain ⟨rq', h'⟩ := h.receiveAck hsent hage
    exact ⟨N, rq', R, h'⟩

theorem ok_of_run {es : List Event} (hrun : Run (Step cfg cfg.AckCurrent) initialLink es l) :
    ∃ N rq R, l.Ok cfg N rq R :=
  hrun.invariant ⟨0, [], 0, initialLink_ok⟩ fun _ _ _ h hstep => hstep.ok h

end Invariant

/-! ## The queue and the window -/

/-- The datagram is in the send queue. -/
def SendState.Queued (s : SendState) (a : Nat) : Prop := a ∈ s.sendQueue.map ImplicitDgram.index

/-- The datagram is in the send window. -/
def SendState.InWindow (s : SendState) (a : Nat) : Prop :=
  ∃ slot d, s.sendWindow slot = some d ∧ d.index = a

section Queue

variable {s : SendState} {N : Nat} {rq : List ImplicitDgram}

variable (h : s.Ok cfg N rq)

include h

/-- The datagrams of the queue: those that were put back, then the new ones. -/
theorem SendState.Ok.queue_indices : s.sendQueue.map ImplicitDgram.index =
      rq.map ImplicitDgram.index ++ range' N (s.enqueued.length - N) := by
  have hall : s.enqueued.map ImplicitDgram.index = range' 0 s.enqueued.length := by
    apply ext_getElem?
    intro i
    rw [getElem?_map]
    rcases lt_or_ge i s.enqueued.length with hlt | hge
    · have hget := getElem?_eq_getElem hlt
      rw [hget, getElem?_range' hlt]
      simpa using (h.numbered i _ hget).1
    · rw [getElem?_eq_none hge, getElem?_eq_none (by rwa [length_range'])]
      rfl
  rw [h.queue, map_append, map_drop, hall, drop_range']
  simp

theorem SendState.Ok.queue_nodup : (s.sendQueue.map ImplicitDgram.index).Nodup := by
  rw [h.queue_indices]
  refine nodup_append.2 ⟨h.tracks.nodup, nodup_range', ?_⟩
  rintro a ha b hb rfl
  obtain ⟨d, hd, rfl⟩ := mem_map.1 ha
  have hlt := (h.tracks.requeued d hd).1.lt
  have hge := (mem_range'_1.1 hb).1
  omega

theorem SendState.Ok.not_both {a : Nat} (hq : s.Queued a) : ¬ s.InWindow a := by
  rintro ⟨slot, d, hd, rfl⟩
  obtain ⟨ho, hslot⟩ := h.tracks.placed slot d hd
  rw [Queued, h.queue_indices] at hq
  rcases mem_append.1 hq with hq | hq
  · obtain ⟨e, he, hindex⟩ := mem_map.1 hq
    have hfree := (h.tracks.requeued e he).2
    rw [hindex, ← hslot, hd] at hfree
    cases hfree
  · have hlt := ho.lt
    have hge := (mem_range'_1.1 hq).1
    omega

/-- A datagram that was not discarded is in the queue or in the window. -/
theorem SendState.Ok.queued_or_inWindow {a : Nat} (ha : a < s.enqueued.length)
    (hkept : a ∉ s.discarded) : s.Queued a ∨ s.InWindow a := by
  rw [Queued, h.queue_indices, mem_append]
  rcases lt_or_ge a N with hlt | hge
  · rcases h.tracks.cover a hlt with hgone | hrq | ⟨d, hd, hindex⟩
    · exact absurd hgone hkept
    · exact .inl (.inl hrq)
    · exact .inr ⟨_, d, hd, hindex⟩
  · exact .inl (.inr (mem_range'_1.2 ⟨hge, by omega⟩))

end Queue

end CharmRuntime.Netlrts
