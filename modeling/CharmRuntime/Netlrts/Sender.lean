import CharmRuntime.Netlrts.Datagram

/-!
# The sending side

The queue of the sender is made of two parts. In front are datagrams that were transmitted and put
back by an acknowledgement, and behind them, in order, the datagrams from `N` on that were never
transmitted. Those that were transmitted and neither discarded nor put back are in `send_window`.
All datagrams that were transmitted and not discarded lie in the window `[N - W, N)`, so they have
different slots: datagram `N` is only transmitted when its slot is free and nothing is put back.

`SendState.Ok` is this invariant. It is kept by `EnqueueOutgoingDgram`, by `TransmitDatagram`
(`transmitDatagram_spec`) and by `IntegrateAckDatagram` (`integrateAckDatagram_spec`). For the last
one, an acknowledgement with the first missing datagram `r` is sound: if fewer than `2 ^ 16 - W`
datagrams follow `r`, then every datagram that it discards is before `r`, or has its flag set
(`integrateSlot_spec`). This does not depend on the test for stale acknowledgements.
-/

set_option autoImplicit false

namespace CharmRuntime.Netlrts

open Lib Function List Option

variable {cfg : Config}

/-- A datagram that was transmitted and lies in the window that ends at `N`. -/
structure Outstanding (cfg : Config) (enqueued : List ImplicitDgram) (N : Nat) (d : ImplicitDgram) :
    Prop where
  listed : enqueued[d.index]? = some d
  lt : d.index < N
  le : N ≤ d.index + cfg.windowSize

/-- The datagrams before `N` are discarded, or put back (`rq`), or in the window. -/
structure Tracks (cfg : Config) (enqueued : List ImplicitDgram) (discarded : List Nat) (N : Nat)
    (rq : List ImplicitDgram) (window : Nat → Option ImplicitDgram) : Prop where
  placed : ∀ slot d, window slot = some d →
    Outstanding cfg enqueued N d ∧ slot = d.index % cfg.windowSize
  requeued : ∀ d ∈ rq, Outstanding cfg enqueued N d ∧ window (d.index % cfg.windowSize) = none
  nodup : (rq.map ImplicitDgram.index).Nodup
  cover : ∀ a < N, a ∈ discarded ∨ a ∈ rq.map ImplicitDgram.index ∨
    ∃ d, window (a % cfg.windowSize) = some d ∧ d.index = a

/-- The datagrams `rq` were put back, and those from `N` on were not transmitted yet. -/
structure SendState.Ok (cfg : Config) (s : SendState) (N : Nat)
    (rq : List ImplicitDgram) : Prop where
  numbered : ∀ i d, s.enqueued[i]? = some d → d.index = i ∧ d.seqno = i % 0x10000
  next : s.sendNext = s.enqueued.length % 0x10000
  sent_le : N ≤ s.enqueued.length
  queue : s.sendQueue = rq ++ s.enqueued.drop N
  tracks : Tracks cfg s.enqueued s.discarded N rq s.sendWindow

section Window

variable {enqueued : List ImplicitDgram} {discarded : List Nat} {N : Nat} {rq : List ImplicitDgram}
  {window : Nat → Option ImplicitDgram} {d e : ImplicitDgram}

/-- Two datagrams of the window that have the same slot are the same. -/
theorem Outstanding.eq_of_slot_eq (hd : Outstanding cfg enqueued N d)
    (he : Outstanding cfg enqueued N e)
    (hslot : d.index % cfg.windowSize = e.index % cfg.windowSize) : d = e := by
  have hd1 := hd.lt
  have hd2 := hd.le
  have he1 := he.lt
  have he2 := he.le
  have hindex := eq_of_mod_eq hslot (by omega) (by omega)
  have hlisted := hd.listed
  rw [hindex, he.listed] at hlisted
  exact (some.inj hlisted).symm

/-- A datagram that is put back is transmitted again. -/
theorem Tracks.resend (h : Tracks cfg enqueued discarded N (d :: rq) window) :
    Tracks cfg enqueued discarded N rq (update window (d.index % cfg.windowSize) (some d)) := by
  obtain ⟨hd, hfree⟩ := h.requeued d mem_cons_self
  have hnd := nodup_cons.1 h.nodup
  refine ⟨?_, ?_, hnd.2, ?_⟩
  · intro slot e he
    rcases update_some_cases he with ⟨rfl, rfl⟩ | ⟨-, he⟩
    · exact ⟨hd, rfl⟩
    · exact h.placed slot e he
  · intro e he
    obtain ⟨ho, hf⟩ := h.requeued e (mem_cons_of_mem _ he)
    refine ⟨ho, ?_⟩
    rw [update_of_ne]
    · exact hf
    · intro hslot
      rw [ho.eq_of_slot_eq hd hslot] at he
      exact hnd.1 (List.mem_map_of_mem he)
  · intro a ha
    rcases h.cover a ha with hgone | hrq | ⟨e, he, rfl⟩
    · exact .inl hgone
    · rcases mem_cons.1 hrq with rfl | hrq
      · exact .inr (.inr ⟨d, update_self _ _ _, rfl⟩)
      · exact .inr (.inl hrq)
    · exact .inr (.inr ⟨e, update_of_free hfree he, rfl⟩)

/-- The next new datagram is transmitted, when nothing is put back and its slot is free. -/
theorem Tracks.sendNew (h : Tracks cfg enqueued discarded d.index [] window)
    (hd : enqueued[d.index]? = some d) (hfree : window (d.index % cfg.windowSize) = none) :
    Tracks cfg enqueued discarded (d.index + 1) []
      (update window (d.index % cfg.windowSize) (some d)) := by
  have hpos := cfg.window_pos
  refine ⟨?_, by simp, nodup_nil, ?_⟩
  · intro slot e he
    rcases update_some_cases he with ⟨rfl, rfl⟩ | ⟨hslot, he⟩
    · exact ⟨⟨hd, Nat.lt_succ_self _, by omega⟩, rfl⟩
    · obtain ⟨ho, hs⟩ := h.placed slot e he
      refine ⟨⟨ho.listed, Nat.lt_succ_of_lt ho.lt, ?_⟩, hs⟩
      -- the oldest datagram of the window would have the slot of the new one
      by_contra hold
      have hle := ho.le
      have heq : d.index = e.index + cfg.windowSize := by omega
      rw [heq, Nat.add_mod_right] at hslot
      exact hslot hs
  · intro a ha
    rcases lt_or_ge a d.index with hlt | hge
    · rcases h.cover a hlt with hgone | hrq | ⟨e, he, rfl⟩
      · exact .inl hgone
      · cases hrq
      · exact .inr (.inr ⟨e, update_of_free hfree he, rfl⟩)
    · have ha' : a = d.index := by omega
      subst ha'
      exact .inr (.inr ⟨d, update_self _ _ _, rfl⟩)

variable {slot : Nat}

section Slot

variable (h : Tracks cfg enqueued discarded N rq window) (hslot : window slot = some d)

include h hslot

/-- A datagram is taken out of the window. -/
theorem Tracks.take {discarded' : List Nat} {rq' : List ImplicitDgram}
    (hrq : ∀ e ∈ rq', e = d ∨ e ∈ rq) (hnodup : (rq'.map ImplicitDgram.index).Nodup)
    (hcover : ∀ a, a ∈ discarded ∨ a ∈ rq.map ImplicitDgram.index ∨ a = d.index →
      a ∈ discarded' ∨ a ∈ rq'.map ImplicitDgram.index) :
    Tracks cfg enqueued discarded' N rq' (update window slot none) := by
  obtain ⟨hd, hs⟩ := h.placed slot d hslot
  refine ⟨fun slot' e he => h.placed slot' e (update_none_cases he).2, fun e he => ?_, hnodup,
    fun a ha => ?_⟩
  · rcases hrq e he with rfl | he
    · exact ⟨hd, hs ▸ update_self ..⟩
    · obtain ⟨ho, hf⟩ := h.requeued e he
      refine ⟨ho, ?_⟩
      rw [update_apply, hf, ite_self]
  · rcases h.cover a ha with hgone | hrq | ⟨e, he, rfl⟩
    · exact (hcover a (.inl hgone)).imp_right .inl
    · exact (hcover a (.inr (.inl hrq))).imp_right .inl
    · by_cases hslot' : e.index % cfg.windowSize = slot
      · rw [hslot', hslot] at he
        cases he
        exact (hcover _ (.inr (.inr rfl))).imp_right .inl
      · exact .inr (.inr ⟨e, (update_of_ne hslot' ..).trans he, rfl⟩)

/-- A datagram of the window is discarded. -/
theorem Tracks.discard : Tracks cfg enqueued (discarded ++ [d.index]) N rq
    (update window slot none) := by
  refine h.take hslot (fun _ => .inr) h.nodup fun a ha => ?_
  rcases ha with hgone | hrq | rfl
  · exact .inl (mem_append_left _ hgone)
  · exact .inr hrq
  · exact .inl mem_concat_self

/-- A datagram of the window is put back. -/
theorem Tracks.requeue : Tracks cfg enqueued discarded N (d :: rq) (update window slot none) := by
  refine h.take hslot (fun _ => mem_cons.1) (nodup_cons.2 ⟨fun hmem => ?_, h.nodup⟩) fun a ha => ?_
  · -- the slot of a datagram that is put back is free
    obtain ⟨e, he, hindex⟩ := mem_map.1 hmem
    have hf := (h.requeued e he).2
    rw [hindex, ← (h.placed slot d hslot).2, hslot] at hf
    cases hf
  · rcases ha with hgone | hrq | rfl
    · exact .inl hgone
    · exact .inr (mem_cons_of_mem _ hrq)
    · exact .inr mem_cons_self

end Slot

end Window

variable {s' : SendState}

section Ok

variable {s : SendState} {N : Nat} {rq : List ImplicitDgram}

variable {d : ImplicitDgram} {late : Bool} {pkt : ExplicitDgram}

section

variable (h : s.Ok cfg N rq) (hd : s.enqueued[d.index]? = some d)

include h hd

theorem SendState.Ok.seqno : d.seqno = d.index % 0x10000 :=
  (h.numbered _ _ hd).2

/-- The slot that the code computes from the sequence number. -/
theorem SendState.Ok.slot :
    d.seqno % cfg.windowSize = d.index % cfg.windowSize := by
  rw [h.seqno hd]
  exact Nat.mod_mod_of_dvd _ cfg.window_dvd

end

/-! ## New datagrams -/

theorem Outstanding.mono {enqueued : List ImplicitDgram}
    (h : Outstanding cfg enqueued N d) (l : List ImplicitDgram) :
    Outstanding cfg (enqueued ++ l) N d := by
  refine ⟨?_, h.lt, h.le⟩
  rw [getElem?_append_left (List.getElem?_eq_some_iff.1 h.listed).1]
  exact h.listed

/-- `EnqueueOutgoingDgram`. -/
theorem SendState.Ok.enqueue (h : s.Ok cfg N rq) (ogm : OutgoingMsg) (data : List UInt8) :
    (enqueueOutgoingDgram s ogm data).Ok cfg N rq := by
  refine ⟨?_, ?_, ?_, ?_, ?_, ?_, h.tracks.nodup, h.tracks.cover⟩
  · intro i d hd
    simp only [enqueueOutgoingDgram] at hd
    rcases lt_or_ge i s.enqueued.length with hlt | hge
    · rw [getElem?_append_left hlt] at hd
      exact h.numbered i d hd
    · rw [getElem?_append_right hge, getElem?_singleton] at hd
      split at hd
      · obtain rfl := some.inj hd
        have hi : i = s.enqueued.length := by omega
        exact ⟨hi.symm, by rw [hi]; exact h.next⟩
      · cases hd
  · simp only [enqueueOutgoingDgram, seqnoMask, h.next, length_append, length_singleton]
    omega
  · simp only [enqueueOutgoingDgram, length_append]
    exact Nat.le_add_right_of_le h.sent_le
  · simp only [enqueueOutgoingDgram, h.queue, drop_append_of_le_length h.sent_le, append_assoc]
  · intro slot d hd
    exact ⟨(h.tracks.placed slot d hd).1.mono _, (h.tracks.placed slot d hd).2⟩
  · intro d hd
    exact ⟨(h.tracks.requeued d hd).1.mono _, (h.tracks.requeued d hd).2⟩

/-! ## Transmission -/

/-- The search for a datagram to retransmit returns one of the window. -/
theorem retransmitSearch_mem {window : Nat → Option ImplicitDgram} :
    ∀ {count slot : Nat}, retransmitSearch cfg window count slot = some d →
      ∃ slot, window slot = some d := by
  intro count
  induction count with
  | zero => intro slot h; cases h
  | succ count ih =>
    intro slot h
    rw [retransmitSearch] at h
    split at h
    · next dg hw => exact ⟨slot, hw.trans h⟩
    · exact ih h

/-- What a transmission does: the packet is that of a datagram before the new `N`. -/
def SendState.Transmits (cfg : Config) (s : SendState) (N : Nat) (s' : SendState)
    (pkt : ExplicitDgram) : Prop :=
  ∃ N' rq', s'.Ok cfg N' rq' ∧ N ≤ N' ∧ s'.enqueued = s.enqueued ∧ s'.discarded = s.discarded ∧
    ∃ d, s.enqueued[d.index]? = some d ∧ d.index < N' ∧ pkt = transmitImplicitDgram cfg d

theorem retransmit_spec (h : s.Ok cfg N rq)
    (heq : retransmit cfg s late = some (s', pkt)) : s.Transmits cfg N s' pkt := by
  rw [retransmit, ite_none_right_eq_some] at heq
  obtain ⟨d, hsearch, heq⟩ := map_eq_some_iff.1 heq.2
  cases heq
  obtain ⟨slot, hslot⟩ := retransmitSearch_mem hsearch
  have hd := (h.tracks.placed slot d hslot).1
  exact ⟨N, rq, h, le_rfl, rfl, rfl, d, hd.listed, hd.lt, rfl⟩

/-- `TransmitDatagram`. -/
theorem transmitDatagram_spec (h : s.Ok cfg N rq)
    (heq : transmitDatagram cfg s late = some (s', pkt)) : s.Transmits cfg N s' pkt := by
  rw [transmitDatagram] at heq
  split at heq
  · exact retransmit_spec h heq
  · next d queue hq =>
    dsimp only at heq
    split at heq
    · next hfree =>
      cases heq
      cases rq with
      | nil =>
        -- the head of the queue is new
        rw [h.queue, nil_append] at hq
        have hd : s.enqueued[N]? = some d := by
          rw [← head?_drop, hq, head?_cons]
        obtain ⟨hindex, -⟩ := h.numbered N d hd
        subst hindex
        have hqueue : queue = s.enqueued.drop (d.index + 1) := by
          rw [← tail_drop, hq, tail_cons]
        rw [h.slot hd] at hfree ⊢
        exact ⟨d.index + 1, [], ⟨h.numbered, h.next, (List.getElem?_eq_some_iff.1 hd).1, hqueue,
          h.tracks.sendNew hd hfree⟩, Nat.le_succ _, rfl, rfl, d, hd, Nat.lt_succ_self _, rfl⟩
      | cons e rq =>
        rw [h.queue, cons_append, List.cons.injEq] at hq
        obtain ⟨rfl, rfl⟩ := hq
        have he := (h.tracks.requeued e mem_cons_self).1
        rw [h.slot he.listed]
        exact ⟨N, rq, { h with queue := rfl, tracks := h.tracks.resend }, le_rfl, rfl, rfl, e,
          he.listed, he.lt, rfl⟩
    · exact retransmit_spec h heq

end Ok

/-! ## Acknowledgements -/

section Acknowledgement

variable {s : SendState} {N i u : Nat} {rq : List ImplicitDgram} {ack : DgramAck} {r : Nat}
  {Arrived : Nat → Prop}

variable (cfg ack r Arrived) in
/-- What an acknowledgement says: everything before `r` and the datagrams with a flag have
arrived. -/
structure DgramAck.Tells : Prop where
  seqno : ack.seqno = r % 0x10000
  before : ∀ a < r, Arrived a
  flags : ∀ i < cfg.windowSize, ack.window i = true → Arrived (r + i)

variable (cfg s N Arrived) in
/-- What the sender may do with an acknowledgement. -/
def SendState.Settles (s' : SendState) : Prop :=
  ∃ rq', s'.Ok cfg N rq' ∧ s'.enqueued = s.enqueued ∧
    ∀ a ∈ s'.discarded, a ∈ s.discarded ∨ Arrived a

theorem SendState.Settles.trans {s'' : SendState} (h : s.Settles cfg N Arrived s')
    (h' : s'.Settles cfg N Arrived s'') : s.Settles cfg N Arrived s'' := by
  obtain ⟨-, -, henq, hdis⟩ := h
  obtain ⟨rq', hok, henq', hdis'⟩ := h'
  refine ⟨rq', hok, henq'.trans henq, fun a ha => ?_⟩
  rcases hdis' a ha with ha | ha
  · exact hdis a ha
  · exact .inr ha

/-- A datagram of the window at the distance of its slot. Without wraparound it could not be more
than a window before `r`, nor near enough to `r + 2 ^ 16`. -/
theorem index_eq_of_seqno_eq (hW : cfg.windowSize ≤ 0x8000) (hi : i < cfg.windowSize)
    (hrN : r ≤ N) (hage : N + cfg.windowSize ≤ r + 0x10000) (hlt : u < N)
    (hle : N ≤ u + cfg.windowSize) (heq : u % 0x10000 = (r + i) % 0x10000) : u = r + i := by
  omega

/-- A datagram of the window that the cumulative test discards is before `r`. -/
theorem index_lt_of_outdated (hrN : r ≤ N) (hage : N + cfg.windowSize ≤ r + 0x10000)
    (hlt : u < N) (hle : N ≤ u + cfg.windowSize)
    (hout : outdated cfg (r % 0x10000) (u % 0x10000) = true) : u < r := by
  have hW := cfg.window_le
  simp only [outdated, seqnoMask] at hout
  split at hout
  · split at hout
    · cases hout
    · omega
  · split at hout
    · cases hout
    · omega

theorem SendState.Ok.settles (h : s.Ok cfg N rq) : s.Settles cfg N Arrived s :=
  ⟨rq, h, rfl, fun _ ha => .inl ha⟩

section Integrate

variable (htells : ack.Tells cfg r Arrived) (hrN : r ≤ N) (hage : N + cfg.windowSize ≤ r + 0x10000)

include htells hrN hage

/-- One slot of the send window. -/
theorem integrateSlot_spec (h : s.Ok cfg N rq) (hi : i < cfg.windowSize) (slot : Nat)
    (rxing : Bool) :
    s.Settles cfg N Arrived (integrateSlot cfg ack i slot ((r + i) % 0x10000) rxing s).2 := by
  have hdiscard : ∀ {d}, s.sendWindow slot = some d → Arrived d.index →
      s.Settles cfg N Arrived (s.discard slot d) := by
    intro d hd harr
    exact ⟨rq, { h with tracks := h.tracks.discard hd }, rfl,
      forall_mem_append.2 ⟨fun _ => .inl, forall_mem_singleton.2 (.inr harr)⟩⟩
  rw [integrateSlot]
  split
  · exact h.settles
  · next d hd =>
    have ho := (h.tracks.placed slot d hd).1
    rw [h.seqno ho.listed]
    split
    · next hseq =>
      have hindex := index_eq_of_seqno_eq cfg.window_le hi hrN hage ho.lt ho.le hseq
      split
      · next hflag => exact hdiscard hd (hindex ▸ htells.flags i hi hflag)
      · split
        · exact ⟨d :: rq, { h with queue := congrArg _ h.queue, tracks := h.tracks.requeue hd },
            rfl, fun _ ha => .inl ha⟩
        · exact h.settles
    · split
      · next hout =>
        rw [htells.seqno] at hout
        exact hdiscard hd (htells.before _ (index_lt_of_outdated hrN hage ho.lt ho.le hout))
      · exact h.settles

/-- The loop over the send window. -/
theorem integrateLoop_spec : ∀ {i : Nat}, i ≤ cfg.windowSize →
    ∀ {s : SendState} {rq : List ImplicitDgram} (rxing : Bool), s.Ok cfg N rq →
      s.Settles cfg N Arrived (integrateLoop cfg ack i ((r + i) % cfg.windowSize)
        ((r + i) % 0x10000) rxing s) := by
  intro i
  induction i with
  | zero => exact fun _ s rq _ h => h.settles
  | succ i ih =>
    intro hi s rq rxing h
    have hslot := slot_pred cfg.window_pos (r + i)
    have hseqno : seqnoMask ((r + (i + 1)) % 0x10000 + 0xFFFF) = (r + i) % 0x10000 := by
      rw [seqnoMask]
      omega
    rw [integrateLoop, ← add_assoc, hslot, add_assoc, hseqno]
    have hstep := integrateSlot_spec htells hrN hage h hi ((r + i) % cfg.windowSize) rxing
    generalize integrateSlot cfg ack i ((r + i) % cfg.windowSize) ((r + i) % 0x10000) rxing s = t
      at hstep ⊢
    obtain ⟨rq', hok, -⟩ := id hstep
    exact hstep.trans (ih (le_of_lt hi) _ hok)

/-- `IntegrateAckDatagram`: what is discarded has arrived. -/
theorem integrateAckDatagram_spec (h : s.Ok cfg N rq) :
    s.Settles cfg N Arrived (integrateAckDatagram cfg s ack) := by
  rw [integrateAckDatagram]
  split
  · exact h.settles
  · have hseqno : seqnoMask (ack.seqno + cfg.windowSize) = (r + cfg.windowSize) % 0x10000 := by
      rw [seqnoMask, htells.seqno]
      omega
    simp only [hseqno]
    rw [Nat.mod_mod_of_dvd _ cfg.window_dvd]
    have hok : SendState.Ok cfg { s with recvAckSeqno := ack.ackSeqno } N rq := { h with }
    exact integrateLoop_spec htells hrN hage le_rfl false hok

end Integrate

end Acknowledgement

end CharmRuntime.Netlrts
