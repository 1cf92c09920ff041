import CharmRuntime.Netlrts.Link

/-!
# In-order delivery and the discarding of datagrams

The results about whole runs. When the age of an acknowledgement is counted from its first missing
datagram (`AckCurrent`), datagrams are discarded only after they were stored
(`discarded_only_stored`), and the messages arrive in order (`delivered_inOrder`), all of them when
the sender keeps no datagram (`delivered_when_idle`).

When the age is counted from the time when the acknowledgement was sent (`AckRecent`), datagrams
that waited in the queue at that time allow it to live for a whole cycle of the sequence numbers.
Then an acknowledgement of the cycle before is accepted and discards a datagram that was never
received (`oldAck_discards`), and a cycle later another datagram is taken for the one that was lost
(`delivered_outOfOrder`).
-/

set_option autoImplicit false

namespace CharmRuntime.Netlrts

open Lib List Function

variable {cfg : Config}

section Theorems

variable {l : Link} {es : List Event}

/-- In every run: a datagram is discarded only if it is stored on the other side; one that is not
stored is once in the queue or in the window, and not in both; and each datagram of the window is in
the slot of its sequence number. -/
theorem discarded_only_stored (hrun : Run (Step cfg cfg.AckCurrent) initialLink es l) :
    (∀ a ∈ l.send.discarded, l.recv.Stored a) ∧ (l.send.sendQueue.map ImplicitDgram.index).Nodup ∧
    (∀ a < l.send.enqueued.length, ¬ l.recv.Stored a → Xor (l.send.Queued a) (l.send.InWindow a)) ∧
    ∀ slot d, l.send.sendWindow slot = some d → slot = d.seqno % cfg.windowSize := by
  obtain ⟨N, rq, R, h⟩ := ok_of_run hrun
  refine ⟨h.discarded, h.sender.queue_nodup, fun a ha hnot => ?_, fun slot d hd => ?_⟩
  · have hkept : a ∉ l.send.discarded := fun hgone => hnot (h.discarded a hgone)
    rcases h.sender.queued_or_inWindow ha hkept with hq | hw
    · exact .inl ⟨hq, h.sender.not_both hq⟩
    · exact .inr ⟨hw, fun hq => h.sender.not_both hq hw⟩
  · obtain ⟨ho, hslot⟩ := h.sender.tracks.placed slot d hd
    rw [hslot, h.sender.slot ho.listed]

/-- In every run: what is handed over is a prefix of the messages, up to the bytes of the datagram
header, and no datagram that arrives kills the program. -/
theorem delivered_inOrder (hrun : Run (Step cfg cfg.AckCurrent) initialLink es l) :
    l.recv.intake.delivered.map body <+: l.messages.map (fun ogm => body ogm.data) ∧
    ∀ dg ∈ l.packets, cfg.Recent l (dg.index + 1) →
      ∃ r, integrateMessageDatagram cfg l.recv dg = some r := by
  obtain ⟨N, rq, R, h⟩ := ok_of_run hrun
  constructor
  · obtain ⟨k, hk, hprefix⟩ := h.streams.part R
    cases hk.symm.trans h.receiver.holds.intake
    exact hprefix
  · intro dg hdg hage
    obtain ⟨r, R', heq, -⟩ := h.receive hdg hage
    exact ⟨r, heq⟩

/-- In every run: no packet is a window or more ahead of the datagrams that are assembled; and when
the sender keeps no datagram any more, all messages have been handed over. -/
theorem delivered_when_idle (hrun : Run (Step cfg cfg.AckCurrent) initialLink es l) :
    (∀ dg ∈ l.packets, dg.index < l.recv.assembled.length + cfg.windowSize) ∧
    (l.send.sendQueue = [] → (∀ slot < cfg.windowSize, l.send.sendWindow slot = none) →
      l.recv.intake.asm = none ∧
        l.recv.intake.delivered.map body = l.messages.map fun ogm => body ogm.data) := by
  obtain ⟨N, rq, R, h⟩ := ok_of_run hrun
  constructor
  · intro dg hdg
    rw [h.receiver.holds.assembled, length_range]
    exact (h.packets dg hdg).2.trans_le h.sent_le
  · intro hqueue hwindow
    have hall : l.send.enqueued.length ≤ R := by
      -- the first missing datagram was not discarded, so the sender would keep it
      by_contra hlt
      have hkept : R ∉ l.send.discarded := fun hgone => h.receiver.not_stored (h.discarded R hgone)
      rcases h.sender.queued_or_inWindow (Nat.not_le.1 hlt) hkept with hq | ⟨slot, d, hd, -⟩
      · rw [SendState.Queued, hqueue] at hq
        cases hq
      · have hslot := (h.sender.tracks.placed slot d hd).2
        rw [hwindow slot (hslot ▸ Nat.mod_lt _ cfg.window_pos)] at hd
        cases hd
    obtain ⟨out, hout, hbodies⟩ := h.streams.whole
    have hintake := h.receiver.holds.intake
    rw [take_of_length_le hall, hout] at hintake
    rw [← Option.some.inj hintake]
    exact ⟨rfl, hbodies⟩

end Theorems

/-! ## A window of one datagram

The runs below have a window of one datagram and messages of 28 bytes, one datagram each. -/

/-- A window of one datagram. -/
def unitConfig : Config where
  windowSize := 1
  dgramMaxData := 20
  netMagic := 0
  window_pos := by decide
  window_dvd := by decide
  ack_room := by decide
  ack_received := by decide

/-- What the datagram of a message carries: one byte of the user, and at last the size. -/
def letterData (b : UInt8) : List UInt8 := b :: (replicate 15 0 ++ [28, 0, 0, 0])

/-- A message of 28 bytes. -/
def letter (b : UInt8) : OutgoingMsg := ⟨0, 0, 0, replicate 8 255 ++ letterData b⟩

/-- The datagram of a letter, as number `n`. -/
def letterDgram (b : UInt8) (n : Nat) : ImplicitDgram := ⟨0, 0, n % 0x10000, 0, letterData b, n⟩

/-- The packet of a letter. -/
abbrev letterPacket (b : UInt8) (n : Nat) : ExplicitDgram :=
  transmitImplicitDgram unitConfig (letterDgram b n)

theorem letter_wellFormed (b : UInt8) : (letter b).WellFormed unitConfig :=
  ⟨by simp [letter, dgramHeaderSize], rfl⟩

theorem deliver_letter (s : SendState) (b : UInt8)
    (hnext : s.sendNext = s.enqueued.length % 0x10000) :
    deliverViaNetwork unitConfig s (letter b) = { s with
        sendNext := seqnoMask (s.sendNext + 1)
        sendQueue := s.sendQueue ++ [letterDgram b s.enqueued.length]
        enqueued := s.enqueued ++ [letterDgram b s.enqueued.length] } := by
  have hpieces : (letter b).fragments unitConfig = [letterData b] := rfl
  rw [deliverViaNetwork, hpieces, foldl_cons, foldl_nil, enqueueOutgoingDgram, hnext]
  rfl

theorem assemble_letter (out : List (List UInt8)) (b : UInt8) (n : Nat) :
    assembleDatagram ⟨none, out⟩ (letterPacket b n).data =
      some ⟨none, out ++ [(letterPacket b n).data]⟩ := rfl

theorem slot_unit (x : Nat) : x % unitConfig.windowSize = 0 := Nat.mod_one x

/-- The next letter is received and handed over at once. -/
theorem integrate_letter {r : RecvState} (b : UInt8) (x : Nat)
    (hempty : ∀ slot, r.recvWindow slot = none) (hnext : r.recvNext = x % 0x10000)
    (hasm : r.intake.asm = none) :
    ∃ r', integrateMessageDatagram unitConfig r (letterPacket b x) = some r' ∧
      (∀ slot, r'.recvWindow slot = none) ∧ r'.recvNext = (x + 1) % 0x10000 ∧
      r'.intake = ⟨none, r.intake.delivered ++ [(letterPacket b x).data]⟩ ∧
      r'.sendAckSeqno = r.sendAckSeqno ∧ r'.assembled = r.assembled ++ [x] := by
  have hseqno : (letterPacket b x).seqno = x % 0x10000 := Nat.mod_mod _ _
  have hintake : assembleDatagram r.intake (letterPacket b x).data =
      some ⟨none, r.intake.delivered ++ [(letterPacket b x).data]⟩ := by
    have hk : r.intake = ⟨none, r.intake.delivered⟩ := by rw [← hasm]
    rw [hk]
    exact assemble_letter _ b x
  have hacc : seqnoMask (x % 0x10000 + 0x10000 - r.recvNext) < unitConfig.windowSize := by
    rw [hnext, seqnoMask, Nat.add_sub_cancel_left]
    exact Nat.one_pos
  rw [integrateMessageDatagram, hseqno, if_pos hacc, slot_unit]
  simp only [hempty, if_pos hnext.symm]
  rw [assembleReceivedDatagrams]
  simp only [slot_unit, update_self, hintake, Option.bind_some]
  rw [show unitConfig.windowSize = 0 + 1 from rfl, assembleReceivedDatagrams]
  simp only [slot_unit, update_self]
  refine ⟨_, rfl, fun slot => ?_, ?_, rfl, rfl, rfl⟩
  · dsimp only
    by_cases hslot : slot = 0
    · rw [hslot, update_self]
    · rw [update_of_ne hslot, update_of_ne hslot]
      exact hempty slot
  · dsimp only
    rw [seqnoMask, hnext]
    omega

/-! ## Cycles of sequence numbers -/

/-- The acknowledgement whose first missing datagram is `i`, sent when there was a backlog of
`m`. -/
structure OldAck (m i : Nat) (ack : DgramAck) : Prop where
  seqno : ack.seqno = i % 0x10000
  window : ack.window 0 = false
  ackSeqno : ack.ackSeqno = i % 0x10000
  sentAt : min (i + m) 0x10002 ≤ ack.sentAt

/-- The state of a link that carries the letters `b` only: `w` is in the send window, the queue
starts at number `q`, the acknowledgement `k` was the last one accepted, the receiver misses
datagram `r`, and `E` datagrams were enqueued. -/
structure Lane (m : Nat) (b : Nat → UInt8) (w : Option ImplicitDgram) (q k r E : Nat)
    (l : Link) : Prop where
  window : l.send.sendWindow 0 = w
  queue : l.send.sendQueue = (range' q (E - q)).map fun n => letterDgram (b n) n
  le : q ≤ E
  next : l.send.sendNext = E % 0x10000
  ackSeen : l.send.recvAckSeqno = k % 0x10000
  count : l.send.enqueued.length = E
  empty : ∀ slot, l.recv.recvWindow slot = none
  recvNext : l.recv.recvNext = r % 0x10000
  asm : l.recv.intake.asm = none
  ackNext : l.recv.sendAckSeqno = (r + 1) % 0x10000
  assembled : ∀ a ∈ l.recv.assembled, a < r
  delivered : l.recv.intake.delivered.map body = (range r).map fun n => body (letter (b n)).data
  messages : l.messages = (range E).map fun n => letter (b n)
  acks : ∀ i, 1 ≤ i → i ≤ r → ∃ ack ∈ l.acks, OldAck m i ack

section Lane

variable {b : Nat → UInt8} {w : Option ImplicitDgram} {m q k r E : Nat} {l : Link}
  {Young : Link → DgramAck → Prop} {s : SendState} {ack : DgramAck}

/-- The head of a queue whose slot is free. -/
theorem transmitDatagram_head {dg : ImplicitDgram} {queue : List ImplicitDgram}
    {late : Bool} (hqueue : s.sendQueue = dg :: queue)
    (hfree : s.sendWindow (dg.seqno % cfg.windowSize) = none) : transmitDatagram cfg s late = some (
      { s with
        sendQueue := queue
        sendWindow := update s.sendWindow (dg.seqno % cfg.windowSize) (some dg)
        sendLast := if dg.seqno = seqnoMask (s.sendLast + 1) then dg.seqno else s.sendLast },
      transmitImplicitDgram cfg dg) := by
  rw [transmitDatagram, hqueue]
  simp only [hfree]

/-- One more letter is enqueued. -/
theorem Lane.send (h : Lane m b w q k r E l) :
    ∃ l', Step unitConfig Young l (.send (letter (b E))) l' ∧ Lane m b w q k r (E + 1) l' := by
  refine ⟨_, .send (letter_wellFormed (b E)), ?_⟩
  rw [deliver_letter _ _ (h.count ▸ h.next)]
  have hle := h.le
  refine { h with queue := ?_, le := by omega, next := ?_, count := ?_, messages := ?_ }
  · have hlen : E + 1 - q = E - q + 1 := by omega
    have hlast : q + (E - q) = E := by omega
    rw [h.queue, h.count, hlen, range'_concat, map_append, one_mul, hlast]
    rfl
  · dsimp only
    rw [h.next, seqnoMask]
    omega
  · rw [length_append, h.count]
    rfl
  · rw [h.messages, range_succ, map_append]
    rfl

/-- The head of the queue is transmitted. -/
theorem Lane.transmit (h : Lane m b none q k r E l) (hlt : q < E) :
    ∃ l', Step unitConfig Young l (.transmit false) l' ∧
      Lane m b (some (letterDgram (b q) q)) (q + 1) k r E l' ∧ letterPacket
      (b q) q ∈ l'.packets := by
  have hqueue : l.send.sendQueue = letterDgram (b q) q ::
      (range' (q + 1) (E - (q + 1))).map fun n => letterDgram (b n) n := by
    have hlen : E - q = E - (q + 1) + 1 := by omega
    rw [h.queue, hlen, range'_succ, map_cons]
  have hslot : (letterDgram (b q) q).seqno % unitConfig.windowSize = 0 := slot_unit _
  refine ⟨_, .transmit (transmitDatagram_head hqueue (hslot.symm ▸ h.window)), ?_, ?_⟩
  · refine { h with window := ?_, queue := rfl, le := hlt }
    dsimp only
    rw [hslot, update_self]
  · exact mem_append_right _ (mem_singleton_self _)

/-- The next letter is received and acknowledged. -/
theorem Lane.receive (h : Lane m b w q k r E l) (hpacket : letterPacket (b r) r ∈ l.packets)
    (hage : E < r + 1 + 0xFFFF) (hlarge : min (r + 1 + m) 0x10002 ≤ E) :
    ∃ es l', Run (Step unitConfig Young) l es l' ∧ Lane m b w q k (r + 1) E l' := by
  obtain ⟨rs, heq, hempty, hnext, hintake, hack, hassembled⟩ :=
    integrate_letter (b r) r h.empty h.recvNext h.asm
  have hrecent : unitConfig.Recent l ((letterPacket (b r) r).index + 1) := by
    rw [Config.Recent, h.count]
    exact hage
  refine ⟨_, _, .snoc (.single (.receive hpacket hrecent heq)) .acknowledge, ?_⟩
  refine { h with
    empty := hempty, recvNext := hnext, asm := ?_, ackNext := ?_, assembled := ?_, delivered :=
      ?_, acks := ?_ }
  · rw [transmitAckDatagram, hintake]
  · show seqnoMask (rs.sendAckSeqno + 1) = (r + 1 + 1) % 0x10000
    rw [hack, h.ackNext, seqnoMask]
    omega
  · rw [transmitAckDatagram, hassembled]
    exact forall_mem_concat (fun a ha => Nat.lt_succ_of_lt (h.assembled a ha)) (Nat.lt_succ_self r)
  · rw [transmitAckDatagram, hintake, map_append, h.delivered, range_succ, map_append]
    rfl
  · intro i h1 hi
    rcases lt_or_ge r i with hlt | hle
    · obtain rfl : i = r + 1 := by omega
      refine ⟨_, mem_append_right _ (mem_singleton_self _), hnext, ?_, ?_, ?_⟩
      · show ackWindow unitConfig rs 0 = false
        simp only [ackWindow, hempty]
      · rw [transmitAckDatagram, hack, h.ackNext]
      · rw [transmitAckDatagram, h.count]
        exact hlarge
    · obtain ⟨ack, hmem, hold⟩ := h.acks i h1 hle
      exact ⟨ack, mem_append_left _ hmem, hold⟩

/-- The test for the datagram just before the acknowledgement. -/
theorem outdated_succ (k : Nat) : outdated unitConfig ((k + 1) % 0x10000) (k % 0x10000) = true := by
  have hW : unitConfig.windowSize = 1 := rfl
  -- either the sequence numbers follow each other, or they wrap around between the two
  rcases lt_or_ge (k % 0x10000) 0xFFFF with hlt | hge
  · have hk : (k + 1) % 0x10000 = k % 0x10000 + 1 := by omega
    simp [outdated, seqnoMask, hW, hk]
  · have hk : (k + 1) % 0x10000 = 0 := by omega
    have hk' : k % 0x10000 = 0xFFFF := by omega
    simp [outdated, seqnoMask, hW, hk, hk']

/-- An acknowledgement that is accepted discards the datagram before it. -/
theorem integrateAck_unit {d : ImplicitDgram}
    (hwindow : s.sendWindow 0 = some d) (hd : d.seqno = k % 0x10000)
    (hseqno : ack.seqno = (k + 1) % 0x10000) (hnew : staleAck s ack = false) :
    integrateAckDatagram unitConfig s ack =
      SendState.discard { s with recvAckSeqno := ack.ackSeqno } 0 d := by
  have hW : unitConfig.windowSize = 0 + 1 := rfl
  have hne : ¬ d.seqno = seqnoMask (seqnoMask (ack.seqno + (0 + 1)) + 0xFFFF) := by
    rw [hd, hseqno, seqnoMask, seqnoMask]
    omega
  have hout : outdated unitConfig ack.seqno d.seqno = true := by
    rw [hseqno, hd]
    exact outdated_succ k
  rw [integrateAckDatagram, hnew]
  simp only [Bool.false_eq_true, if_false, slot_unit]
  rw [hW, integrateLoop]
  simp only [hW, integrateSlot, hwindow, if_true, zero_add, Nat.sub_self]
  simp only [if_neg hne, hout, if_true, integrateLoop]

/-- The acknowledgement of datagram `k`, or of one whole cycles earlier, discards datagram `k`. -/
theorem Lane.receiveAck (h : Lane m b (some (letterDgram (b k) k)) q k r E l) {i : Nat}
    (hmem : ack ∈ l.acks) (hold : OldAck m i ack) (hi : i % 0x10000 = (k + 1) % 0x10000)
    (hyoung : Young l ack) :
    ∃ l', Step unitConfig Young l (.receiveAck ack) l' ∧ Lane m b none q (k + 1) r E l' ∧
      l'.send.discarded = l.send.discarded ++ [k] := by
  have hnew : staleAck l.send ack = false := by
    rw [staleAck, h.ackSeen, hold.ackSeqno, hi]
    apply decide_eq_false
    omega
  refine ⟨_, .receiveAck hmem hyoung, ?_⟩
  rw [integrateAck_unit h.window rfl (hold.seqno.trans hi) hnew]
  refine ⟨{ h with window := ?_, ackSeen := hold.ackSeqno.trans hi }, rfl⟩
  simp only [SendState.discard, update_self]

/-- The first events: an acknowledgement, which is not accepted, and some letters. -/
theorem lane_start (m : Nat) (b : Nat → UInt8) (Young : Link → DgramAck → Prop) (E : Nat) :
    ∃ es l, Run (Step unitConfig Young) initialLink es l ∧ Lane m b none 0 0 0 E l := by
  induction E with
  | zero =>
    exact ⟨_, _, .single .acknowledge,
      ⟨rfl, rfl, le_rfl, rfl, rfl, rfl, fun _ => rfl, rfl, rfl, rfl,
      forall_mem_nil _, rfl, rfl, fun i h1 h0 => absurd h0 (Nat.not_le.2 h1)⟩⟩
  | succ E ih =>
    obtain ⟨es, l, hrun, h⟩ := ih
    obtain ⟨l', hstep, h'⟩ := h.send
    exact ⟨_, l', hrun.snoc hstep, h'⟩

/-- A round: the next letter is transmitted, received, acknowledged and discarded. -/
theorem Lane.round (h : Lane m b none r r r E l) (hlt : r < E) (hage : E < r + 1 + 0xFFFF)
    (hlarge : min (r + 1 + m) 0x10002 ≤ E)
    (hyoung : ∀ l' ack, Lane m b (some (letterDgram (b r) r)) (r + 1) r (r + 1) E l' →
      OldAck m (r + 1) ack → Young l' ack) :
    ∃ es l', Run (Step unitConfig Young) l es l' ∧ Lane m b none (r + 1) (r + 1) (r + 1) E l' ∧
      r ∈ l'.send.discarded := by
  obtain ⟨l1, hstep1, h1, hpacket⟩ := h.transmit hlt
  obtain ⟨es2, l2, hrun2, h2⟩ := h1.receive hpacket hage hlarge
  obtain ⟨ack, hmem, hold⟩ := h2.acks (r + 1) (Nat.le_add_left _ _) le_rfl
  obtain ⟨l3, hstep3, h3, hdis⟩ := h2.receiveAck hmem hold rfl (hyoung l2 ack h2 hold)
  refine ⟨_, l3, ((Run.single hstep1).append hrun2).snoc hstep3, h3, ?_⟩
  rw [hdis]
  exact mem_append_right _ (mem_singleton_self _)

end Lane

section Cycles

variable {b : Nat → UInt8} {n r E : Nat} {l : Link}

/-- The age of an old acknowledgement, counted from when it was sent. -/
theorem Lane.ackRecent {w : Option ImplicitDgram} {q k i : Nat} (h : Lane 3 b w q k r E l)
    {ack : DgramAck} (hold : OldAck 3 i ack) (hage : E < min (i + 3) 0x10002 + 0xFFFF) :
    unitConfig.AckRecent l ack := by
  have hsentAt := hold.sentAt
  have hW : unitConfig.windowSize = 1 := rfl
  rw [Config.AckRecent, Config.Recent, h.count, hW]
  omega

/-- In some run `E` letters are sent, of which the first `n` are discarded and the first `r`
received. -/
def LaneRun (b : Nat → UInt8) (n r E : Nat) : Prop :=
  ∃ es l, Run (Step unitConfig unitConfig.AckRecent) initialLink es l ∧ Lane 3 b none n n r E l

/-- The first cycle of sequence numbers, with a backlog of two letters at its end. -/
theorem first_cycle (b : Nat → UInt8) : LaneRun b 0x10000 0x10000 0x10002 := by
  have hrounds : ∀ n ≤ 0xFFFF, LaneRun b n n (n + 3) := by
    intro n
    induction n with
    | zero => exact fun _ => lane_start 3 b _ 3
    | succ n ih =>
      intro hn
      obtain ⟨es, l, hrun, h⟩ := ih (Nat.le_of_succ_le hn)
      obtain ⟨l1, hstep, h1⟩ := h.send
      obtain ⟨es2, l2, hrun2, h2, -⟩ := h1.round (by omega) (by omega) (by omega)
        fun l' ack h' hold => h'.ackRecent hold (by omega)
      exact ⟨_, l2, (hrun.snoc hstep).append hrun2, h2⟩
  obtain ⟨es, l, hrun, h⟩ := hrounds 0xFFFF le_rfl
  obtain ⟨es', l', hrun', h', -⟩ := h.round (by decide) (by decide) (by decide)
    fun l' ack h' hold => h'.ackRecent hold (by decide)
  exact ⟨_, l', hrun.append hrun', h'⟩

/-- A letter is transmitted and discarded by an acknowledgement of the first cycle. -/
theorem Lane.lose (h : Lane 3 b none n n r E l) (hlt : n < E) {i : Nat} (h1 : 1 ≤ i) (hir : i ≤ r)
    (hi : i % 0x10000 = (n + 1) % 0x10000) (hage : E < min (i + 3) 0x10002 + 0xFFFF) :
    ∃ es l', Run (Step unitConfig unitConfig.AckRecent) l es l' ∧
      Lane 3 b none (n + 1) (n + 1) r E l' ∧ n ∈ l'.send.discarded := by
  obtain ⟨l1, hstep1, h₁, -⟩ := h.transmit hlt
  obtain ⟨ack, hmem, hold⟩ := h₁.acks i h1 hir
  obtain ⟨l2, hstep2, h2, hdis⟩ := h₁.receiveAck hmem hold hi (h₁.ackRecent hold hage)
  refine ⟨_, l2, (Run.single hstep1).snoc hstep2, h2, ?_⟩
  rw [hdis]
  exact mem_append_right _ (mem_singleton_self _)

/-- An acknowledgement of the cycle before discards a datagram that was never received. -/
theorem oldAck_discards : ∃ es l, Run (Step unitConfig unitConfig.AckRecent) initialLink es l ∧
    0x10000 ∈ l.send.discarded ∧ ¬ l.recv.Stored 0x10000 := by
  obtain ⟨es, l, hrun, h⟩ := first_cycle 0
  obtain ⟨es', l', hrun', h', hdis⟩ :=
    h.lose (i := 1) (by decide) le_rfl (by decide) (by decide) (by decide)
  refine ⟨_, l', hrun.append hrun', hdis, ?_⟩
  rintro (ha | ⟨slot, dg, hdg, -⟩)
  · exact lt_irrefl _ (h'.assembled _ ha)
  · rw [h'.empty] at hdg
    cases hdg

/-- The second cycle, in which the sender takes every acknowledgement of the first one for a new
one, and the receiver gets nothing. -/
theorem second_cycle (b : Nat → UInt8) : LaneRun b 0x20000 0x10000 0x20000 := by
  have hrounds : ∀ m ≤ 0xFFFE, LaneRun b (m + 0x10002) 0x10000 (m + 0x10002) := by
    intro m
    induction m with
    | zero =>
      -- two letters were waiting when the first cycle ended
      intro _
      obtain ⟨es, l, hrun, h⟩ := first_cycle b
      obtain ⟨es1, l1, hrun1, h1, -⟩ :=
        h.lose (i := 1) (by decide) le_rfl (by decide) (by decide) (by decide)
      obtain ⟨es2, l2, hrun2, h2, -⟩ :=
        h1.lose (i := 2) (by decide) (by decide) (by decide) (by decide) (by decide)
      exact ⟨_, l2, (hrun.append hrun1).append hrun2, h2⟩
    | succ m ih =>
      intro hm
      obtain ⟨es, l, hrun, h⟩ := ih (Nat.le_of_succ_le hm)
      obtain ⟨l1, hstep, h1⟩ := h.send
      obtain ⟨es2, l2, hrun2, h2, -⟩ :=
        h1.lose (i := m + 3) (by omega) (by omega) (by omega) (by omega) (by omega)
      have hshift : m + 1 + 0x10002 = m + 0x10002 + 1 := by omega
      rw [hshift]
      exact ⟨_, l2, (hrun.snoc hstep).append hrun2, h2⟩
  exact hrounds 0xFFFE le_rfl

/-- A new letter is received in the place of datagram `r`, if it has the same sequence number. -/
theorem Lane.mistake (h : Lane 3 b none n n r n l) (hn : n % 0x10000 = r % 0x10000) :
    ∃ es l', Run (Step unitConfig unitConfig.AckRecent) l es l' ∧
      (∃ d, d.map body = (range r).map (fun n => body (letter (b n)).data) ∧
        l'.recv.intake.delivered = d ++ [(letterPacket (b n) n).data]) ∧
      l'.messages = (range (n + 1)).map fun n => letter (b n) := by
  obtain ⟨l1, hsend, h1⟩ := h.send
  obtain ⟨l2, htransmit, h2, hpacket⟩ := h1.transmit n.lt_add_one
  obtain ⟨rs, heq, -, -, hintake, -⟩ :=
    integrate_letter (b n) n h2.empty (h2.recvNext.trans hn.symm) h2.asm
  have hrecent : unitConfig.Recent l2 ((letterPacket (b n) n).index + 1) := by
    rw [Config.Recent, h2.count]
    exact Nat.lt_add_of_pos_right (by decide)
  refine ⟨_, _, ((Run.single hsend).snoc htransmit).snoc (.receive hpacket hrecent heq), ?_,
    h2.messages⟩
  exact ⟨_, h2.delivered, congrArg Intake.delivered hintake⟩

/-- The messages need not arrive as they were sent. The datagram header overwrites the first bytes
of a message. And when the age of an acknowledgement is counted from when it was sent, a letter can
be received in the place of one that was sent a cycle before and lost. -/
theorem delivered_outOfOrder :
    (∃ es l, Run (Step unitConfig unitConfig.AckRecent) initialLink es l ∧
      ¬ l.recv.intake.delivered <+: l.messages.map OutgoingMsg.data) ∧
    ∃ es l, Run (Step unitConfig unitConfig.AckRecent) initialLink es l ∧
      ¬ l.recv.intake.delivered.map body <+: l.messages.map fun ogm => body ogm.data := by
  constructor
  · obtain ⟨es, l, hrun, h⟩ := lane_start 3 0 unitConfig.AckRecent 0
    obtain ⟨es', l', hrun', ⟨d, hd, hdelivered⟩, hmessages⟩ := h.mistake rfl
    refine ⟨_, l', hrun.append hrun', fun hprefix => ?_⟩
    rw [hdelivered, hmessages, map_eq_nil_iff.1 hd] at hprefix
    cases IsPrefix.eq_of_length hprefix rfl
  · obtain ⟨es, l, hrun, h⟩ := second_cycle fun n => if n = 0x20000 then 1 else 0
    obtain ⟨es', l', hrun', ⟨d, hd, hdelivered⟩, hmessages⟩ := h.mistake rfl
    refine ⟨_, l', hrun.append hrun', fun hprefix => ?_⟩
    rw [hdelivered, hmessages, map_append, hd, map_map] at hprefix
    -- the letter stands in the place of number `0x10000`
    have hlast := prefix_iff_getElem?.1 hprefix 0x10000 (by simp)
    have hne : body (letter 0).data ≠ body (letterPacket 1 0x20000).data := by decide
    exact hne (by simpa using hlast)

end Cycles

/-- Two letters are transmitted, received, acknowledged and discarded. -/
theorem two_letters : ∃ es l, Run (Step unitConfig unitConfig.AckCurrent) initialLink es l ∧
    l.recv.intake.delivered.map body = [body (letter 0).data, body (letter 1).data] ∧
    1 ∈ l.send.discarded ∧ l.send.sendQueue = [] ∧ l.send.sendWindow 0 = none := by
  have hyoung : ∀ r < 2, ∀ l' ack, Lane 0 UInt8.ofNat (some (letterDgram (.ofNat r) r)) (r + 1) r
      (r + 1) 2 l' → OldAck 0 (r + 1) ack → unitConfig.AckCurrent l' ack :=
    fun r _ l' ack h _ => lt_of_lt_of_le (h.count ▸ (by decide : 2 < 0xFFFF)) (Nat.le_add_left _ _)
  obtain ⟨es, l, hrun, h⟩ := lane_start 0 UInt8.ofNat unitConfig.AckCurrent 2
  obtain ⟨es1, l1, hrun1, h1, -⟩ :=
    h.round (by decide) (by decide) (by decide) (hyoung 0 (by decide))
  obtain ⟨es2, l2, hrun2, h2, hdis⟩ :=
    h1.round (by decide) (by decide) (by decide) (hyoung 1 (by decide))
  exact ⟨_, l2, (hrun.append hrun1).append hrun2, h2.delivered, hdis, h2.queue, h2.window⟩

theorem delivered_inOrder_two_letters : ∃ es l,
    Run (Step unitConfig unitConfig.AckCurrent) initialLink es l ∧
      l.recv.intake.delivered.map body = [body (letter 0).data, body (letter 1).data] ∧
      l.recv.intake.delivered.map body <+: l.messages.map fun ogm => body ogm.data := by
  obtain ⟨es, l, hrun, hdelivered, -⟩ := two_letters
  exact ⟨es, l, hrun, hdelivered, (delivered_inOrder hrun).1⟩

theorem discarded_only_stored_two_letters : ∃ es l,
    Run (Step unitConfig unitConfig.AckCurrent) initialLink es l ∧
      1 ∈ l.send.discarded ∧ l.recv.Stored 1 := by
  obtain ⟨es, l, hrun, -, hdis, -⟩ := two_letters
  exact ⟨es, l, hrun, hdis, (discarded_only_stored hrun).1 1 hdis⟩

theorem delivered_when_idle_two_letters : ∃ es l,
    Run (Step unitConfig unitConfig.AckCurrent) initialLink es l ∧
      l.recv.intake.delivered.map body = [body (letter 0).data, body (letter 1).data] ∧
      l.send.sendQueue = [] ∧ (∀ slot < unitConfig.windowSize, l.send.sendWindow slot = none) ∧
      l.recv.intake.delivered.map body = l.messages.map fun ogm => body ogm.data := by
  obtain ⟨es, l, hrun, hdelivered, -, hqueue, hwindow⟩ := two_letters
  have hempty : ∀ slot < unitConfig.windowSize, l.send.sendWindow slot = none := by
    intro slot hslot
    rw [Nat.lt_one_iff.1 hslot]
    exact hwindow
  exact ⟨es, l, hrun, hdelivered, hqueue, hempty, ((delivered_when_idle hrun).2 hqueue hempty).2⟩

end CharmRuntime.Netlrts
