import CharmRuntime.Lib.Tables

/-!
# The window protocol over UDP

Two nodes exchange messages over UDP. The sender cuts a message into datagrams, numbers them with 16
bits, and keeps each one in `send_window` from its first transmission until it is acknowledged. The
receiver stores datagrams that lie in its window of `Cmi_window_size` sequence numbers, takes them
out in order, and assembles the messages. An acknowledgement carries the first missing sequence
number and one flag for each place of the receive window; on its arrival the sender discards the
datagrams that have arrived and puts those that were skipped back at the head of `send_queue`.

The model has one direction of one pair of nodes. The clock is a free choice: a timeout may have
passed or not (`transmitDatagram`), and an acknowledgement may be sent at any time. Fields that only
serve the clock and the statistics are left out.

Every datagram has an `index`, its number in the order of `EnqueueOutgoingDgram` without wraparound.
It is not in the source and no function reads it. The lists `enqueued`, `discarded` and `assembled`
are records of the same kind.
-/

set_option autoImplicit false

namespace CharmRuntime.Netlrts

open Function

/-- `DGRAM_HEADER_SIZE`. -/
def dgramHeaderSize : Nat := 8

/-- `x & DGRAM_SEQNO_MASK`. -/
def seqnoMask (x : Nat) : Nat := x % 0x10000

/-- `Cmi_window_size`, `Cmi_dgram_max_data` and `Cmi_net_magic`. The window size must divide the
number of sequence numbers, which is checked at startup. An acknowledgement has one flag for each
place of the window and a number of 4 bytes, which must have room in `char window[1024]` of
`DgramAck` and, with the header, in `Cmi_max_dgram_size` bytes; neither is checked. -/
structure Config where
  windowSize : Nat
  dgramMaxData : Nat
  netMagic : Nat
  window_pos : 0 < windowSize
  window_dvd : windowSize ∣ 0x10000
  ack_room : windowSize + 4 ≤ 1024
  ack_received : dgramHeaderSize + windowSize + 4 ≤ dgramMaxData + dgramHeaderSize

theorem Config.window_le (cfg : Config) : cfg.windowSize ≤ 0x8000 := by
  have h := cfg.ack_room
  omega

theorem Config.data_pos (cfg : Config) : 0 < cfg.dgramMaxData := by
  have h := cfg.ack_received
  omega

/-- `OutgoingMsg` with the arguments of `DeliverViaNetwork`. -/
structure OutgoingMsg where
  src : Nat
  rank : Nat
  broot : Nat
  data : List UInt8

/-- `ImplicitDgram`: a datagram on the sending side; `data` is what follows its header. -/
structure ImplicitDgram where
  srcpe : Nat
  rank : Nat
  seqno : Nat
  broot : Nat
  data : List UInt8
  index : Nat

/-- `ExplicitDgram`: a datagram on the receiving side; `data` has its header. -/
structure ExplicitDgram where
  seqno : Nat
  data : List UInt8
  index : Nat

/-- `DgramAck`. The first `Cmi_window_size` bytes of `window` are the flags; `Config.ack_room` gives
them their place, and `ackSeqno` the one behind them. `next` is the number of datagrams that were
assembled and `sentAt` the number of datagrams that were enqueued when it was sent; they are not in
the source. -/
structure DgramAck where
  seqno : Nat
  window : Nat → Bool
  ackSeqno : Nat
  next : Nat
  sentAt : Nat

/-- The part of `OtherNode` for sending. -/
structure SendState where
  sendLast : Nat
  sendWindow : Nat → Option ImplicitDgram
  sendQueue : List ImplicitDgram
  sendNext : Nat
  recvAckSeqno : Nat
  enqueued : List ImplicitDgram
  discarded : List Nat

/-- `asm_total` and `asm_msg`, as far as it is filled. -/
structure Assembly where
  total : Nat
  msg : List UInt8

/-- The message that is being assembled, and the messages that were handed to
`handleOneRecvedMsg`. -/
structure Intake where
  asm : Option Assembly
  delivered : List (List UInt8)

/-- The part of `OtherNode` for receiving. -/
structure RecvState where
  intake : Intake
  recvWindow : Nat → Option ExplicitDgram
  recvNext : Nat
  sendAckSeqno : Nat
  assembled : List Nat

/-! ## Sending -/

/-- `EnqueueOutgoingDgram`. -/
def enqueueOutgoingDgram (s : SendState) (ogm : OutgoingMsg) (data : List UInt8) : SendState :=
  let seqno := s.sendNext
  let dg : ImplicitDgram :=
    { srcpe := ogm.src, rank := ogm.rank, seqno, broot := ogm.broot, data,
      index := s.enqueued.length }
  { s with
    sendNext := seqnoMask (seqno + 1)
    sendQueue := s.sendQueue ++ [dg]
    enqueued := s.enqueued ++ [dg] }

/-- The loop of `DeliverViaNetwork`; `fuel` bounds the number of iterations. -/
def fragments (dgramMaxData : Nat) : Nat → List UInt8 → List (List UInt8)
  | 0, data => [data]
  | fuel + 1, data =>
    if data.length > dgramMaxData then
      data.take dgramMaxData :: fragments dgramMaxData fuel (data.drop dgramMaxData)
    else [data]

variable (cfg : Config)

/-- What the datagrams of a message carry. -/
def OutgoingMsg.fragments (ogm : OutgoingMsg) : List (List UInt8) :=
  Netlrts.fragments cfg.dgramMaxData ogm.data.length (ogm.data.drop dgramHeaderSize)

/-- `DeliverViaNetwork`. -/
def deliverViaNetwork (s : SendState) (ogm : OutgoingMsg) : SendState :=
  (ogm.fragments cfg).foldl (fun s data => enqueueOutgoingDgram s ogm data) s

/-- `DgramHeaderMake`, as the bytes of the bit fields. -/
def dgramHeaderMake (dstrank srcpe magic seqno root : Nat) : List UInt8 :=
  [seqno, seqno / 256, srcpe, srcpe / 256, dstrank, magic, root, root / 256].map UInt8.ofNat

/-- `TransmitImplicitDgram` and `TransmitImplicitDgram1`: the packet that is sent, as
`DgramHeaderBreak` reads it on the other side. -/
def transmitImplicitDgram (dg : ImplicitDgram) : ExplicitDgram :=
  { seqno := seqnoMask dg.seqno
    data := dgramHeaderMake dg.rank dg.srcpe cfg.netMagic dg.seqno dg.broot ++ dg.data
    index := dg.index }

/-- The search of `TransmitDatagram` for a datagram to retransmit, from `slot` downwards. -/
def retransmitSearch (window : Nat → Option ImplicitDgram) :
    Nat → Nat → Option ImplicitDgram
  | 0, _ => none
  | count + 1, slot =>
    match window slot with
    | some dg => some dg
    | none =>
      retransmitSearch window count ((slot + cfg.windowSize - 1) % cfg.windowSize)

/-- The second half of `TransmitDatagram`: `late` if the clock has passed `send_primer`. -/
def retransmit (s : SendState) (late : Bool) :
    Option (SendState × ExplicitDgram) :=
  if late then
    (retransmitSearch cfg s.sendWindow cfg.windowSize (s.sendLast % cfg.windowSize)).map fun dg =>
      (s, transmitImplicitDgram cfg dg)
  else none

/-- `TransmitDatagram`; `none` if nothing is sent. -/
def transmitDatagram (s : SendState) (late : Bool) :
    Option (SendState × ExplicitDgram) :=
  match s.sendQueue with
  | [] => retransmit cfg s late
  | dg :: queue =>
    let slot := dg.seqno % cfg.windowSize
    match s.sendWindow slot with
    | none => some (
        { s with
          sendQueue := queue
          sendWindow := update s.sendWindow slot (some dg)
          sendLast := if dg.seqno = seqnoMask (s.sendLast + 1) then dg.seqno else s.sendLast },
        transmitImplicitDgram cfg dg)
    | some _ => retransmit cfg s late

/-! ## Receiving -/

/-- `CMI_MSG_SIZE`: the last field of the message header, little-endian; `none` if the datagram
does not have it. -/
def cmiMsgSize (data : List UInt8) : Option Nat :=
  match data.drop 24 with
  | b0 :: b1 :: b2 :: b3 :: _ =>
    some (b0.toNat + 256 * (b1.toNat + 256 * (b2.toNat + 256 * b3.toNat)))
  | _ => none

/-- The first half of `AssembleDatagram`; `none` if it kills the program. -/
def fillMessage (asm : Option Assembly) (data : List UInt8) : Option Assembly :=
  match asm with
  | none => (cmiMsgSize data).bind fun size =>
      if size < data.length then none else some ⟨size, data⟩
  | some a => some ⟨a.total, a.msg ++ data.drop dgramHeaderSize⟩

/-- `AssembleDatagram`. -/
def assembleDatagram (k : Intake) (data : List UInt8) : Option Intake :=
  (fillMessage k.asm data).bind fun a =>
    if a.msg.length > a.total then none
    else if a.msg.length = a.total then some ⟨none, k.delivered ++ [a.msg]⟩
    else some ⟨some a, k.delivered⟩

/-- `AssembleReceivedDatagrams` from sequence number `next`; `fuel` bounds the number of
iterations. -/
def assembleReceivedDatagrams : Nat → Nat → RecvState → Option RecvState
  | 0, _, _ => none
  | fuel + 1, next, r =>
    let slot := next % cfg.windowSize
    match r.recvWindow slot with
    | none => some { r with recvNext := next }
    | some dg => (assembleDatagram r.intake dg.data).bind fun intake =>
        assembleReceivedDatagrams fuel (seqnoMask (next + 1))
          { r with
            intake
            recvWindow := update r.recvWindow slot none
            assembled := r.assembled ++ [dg.index] }

/-- `IntegrateMessageDatagram`. -/
def integrateMessageDatagram (r : RecvState) (dg : ExplicitDgram) :
    Option RecvState :=
  if seqnoMask (dg.seqno + 0x10000 - r.recvNext) < cfg.windowSize then
    let slot := dg.seqno % cfg.windowSize
    match r.recvWindow slot with
    | none =>
      let r' := { r with recvWindow := update r.recvWindow slot (some dg) }
      if dg.seqno = r.recvNext then
        assembleReceivedDatagrams cfg (cfg.windowSize + 1) r.recvNext r'
      else some r'
    | some _ => some r
  else some r

/-- The flags of an acknowledgement. -/
def ackWindow (r : RecvState) (i : Nat) : Bool :=
  let seqno := seqnoMask (r.recvNext + i)
  match r.recvWindow (seqno % cfg.windowSize) with
  | some dg => dg.seqno = seqno
  | none => false

/-- `TransmitAckDatagram`. -/
def transmitAckDatagram (r : RecvState) (sentAt : Nat) : RecvState × DgramAck :=
  ({ r with sendAckSeqno := seqnoMask (r.sendAckSeqno + 1) },
    { seqno := r.recvNext
      window := ackWindow cfg r
      ackSeqno := r.sendAckSeqno
      next := r.assembled.length
      sentAt })

/-! ## Acknowledgements -/

/-- The test of `IntegrateAckDatagram` on a datagram that is not at the place of its slot: it is
discarded if the acknowledgement is at most a window ahead of it. -/
def outdated (dgseqno seqno : Nat) : Bool :=
  let diff :=
    if dgseqno ≥ seqno then seqnoMask (dgseqno - seqno)
    else seqnoMask (dgseqno + (0xFFFF - seqno) + 1)
  if diff = 0 ∨ diff > cfg.windowSize then false
  else if dgseqno < seqno ∧ seqno - dgseqno ≤ cfg.windowSize then false
  else if dgseqno = seqno then false
  else true

/-- `DiscardImplicitDgram` of the datagram in a slot. -/
def SendState.discard (s : SendState) (slot : Nat) (idg : ImplicitDgram) : SendState :=
  { s with
    sendWindow := update s.sendWindow slot none
    discarded := s.discarded ++ [idg.index] }

/-- The datagram in a slot goes back to the head of the queue. -/
def SendState.requeue (s : SendState) (slot : Nat) (idg : ImplicitDgram) : SendState :=
  { s with
    sendWindow := update s.sendWindow slot none
    sendQueue := idg :: s.sendQueue }

/-- The body of the loop of `IntegrateAckDatagram`: `rxing` and the state after it. -/
def integrateSlot (ack : DgramAck) (i slot seqno : Nat) (rxing : Bool)
    (s : SendState) : Bool × SendState :=
  match s.sendWindow slot with
  | none => (rxing, s)
  | some idg =>
    if idg.seqno = seqno then
      if ack.window i then (true, s.discard slot idg)
      else if rxing then (rxing, s.requeue slot idg)
      else (rxing, s)
    else if outdated cfg ack.seqno idg.seqno then (rxing, s.discard slot idg)
    else (rxing, s)

/-- The loop of `IntegrateAckDatagram`, with `i + 1` iterations left. -/
def integrateLoop (ack : DgramAck) :
    Nat → Nat → Nat → Bool → SendState → SendState
  | 0, _, _, _, s => s
  | i + 1, slot, seqno, rxing, s =>
    let slot := if slot = 0 then cfg.windowSize - 1 else slot - 1
    let seqno := seqnoMask (seqno + 0xFFFF)
    let (rxing, s) := integrateSlot cfg ack i slot seqno rxing s
    integrateLoop ack i slot seqno rxing s

/-- The acknowledgement is not accepted: it is not later than the last one. -/
def staleAck (s : SendState) (ack : DgramAck) : Bool :=
  ¬ (s.recvAckSeqno ≥ 0xFFFF / 2 + 0xFFFF / 4 ∧ ack.ackSeqno < 0xFFFF / 2) ∧
    ack.ackSeqno ≤ s.recvAckSeqno

/-- `IntegrateAckDatagram`. -/
def integrateAckDatagram (s : SendState) (ack : DgramAck) : SendState :=
  if staleAck s ack then s
  else
    let seqno := seqnoMask (ack.seqno + cfg.windowSize)
    integrateLoop cfg ack cfg.windowSize (seqno % cfg.windowSize) seqno false
      { s with recvAckSeqno := ack.ackSeqno }

/-! ## The two nodes and the network -/

/-- Both nodes, everything that was ever sent, and the messages passed to `DeliverViaNetwork`. -/
structure Link where
  send : SendState
  recv : RecvState
  packets : List ExplicitDgram
  acks : List DgramAck
  messages : List OutgoingMsg

/-- `OtherNode_init`. -/
def initialLink : Link where
  send :=
    { sendLast := 0, sendWindow := fun _ => none, sendQueue := [], sendNext := 0, recvAckSeqno := 0,
      enqueued := [], discarded := [] }
  recv :=
    { intake := ⟨none, []⟩, recvWindow := fun _ => none, recvNext := 0, sendAckSeqno := 0,
      assembled := [] }
  packets := []
  acks := []
  messages := []

/-- What happens on the link. -/
inductive Event where
  | send (ogm : OutgoingMsg)
  | transmit (late : Bool)
  | receive (dg : ExplicitDgram)
  | acknowledge
  | receiveAck (ack : DgramAck)

/-- The message has room for a datagram header, and its first datagram has its size. -/
structure OutgoingMsg.WellFormed (ogm : OutgoingMsg) : Prop where
  size : dgramHeaderSize ≤ ogm.data.length
  stored : cmiMsgSize (ogm.data.take (dgramHeaderSize + cfg.dgramMaxData)) = some ogm.data.length

/-- Fewer than `2 ^ 16 - Cmi_window_size` datagrams were enqueued after the first `n`. -/
def Config.Recent (l : Link) (n : Nat) : Prop :=
  l.send.enqueued.length < n + (0x10000 - cfg.windowSize)

/-- One event. The network may lose, repeat and reorder what was sent, but a datagram is not
delivered when it is too old, and an acknowledgement only as long as `Young` holds. -/
inductive Step (Young : Link → DgramAck → Prop) : Link → Event → Link → Prop
  | send {l : Link} {ogm : OutgoingMsg} (h : ogm.WellFormed cfg) :
    Step Young l (.send ogm)
      { l with send := deliverViaNetwork cfg l.send ogm, messages := l.messages ++ [ogm] }
  | transmit {l : Link} {late : Bool} {s : SendState} {dg : ExplicitDgram}
    (h : transmitDatagram cfg l.send late = some (s, dg)) :
    Step Young l (.transmit late) { l with send := s, packets := l.packets ++ [dg] }
  | receive {l : Link} {dg : ExplicitDgram} {r : RecvState} (hsent : dg ∈ l.packets)
    (hage : cfg.Recent l (dg.index + 1)) (h : integrateMessageDatagram cfg l.recv dg = some r) :
    Step Young l (.receive dg) { l with recv := r }
  | acknowledge {l : Link} :
    Step Young l .acknowledge
      { l with
        recv := (transmitAckDatagram cfg l.recv l.send.enqueued.length).1
        acks := l.acks ++ [(transmitAckDatagram cfg l.recv l.send.enqueued.length).2] }
  | receiveAck {l : Link} {ack : DgramAck} (hsent : ack ∈ l.acks) (hage : Young l ack) :
    Step Young l (.receiveAck ack) { l with send := integrateAckDatagram cfg l.send ack }

/-- The age of an acknowledgement counts from the time when it was sent. -/
def Config.AckRecent (l : Link) (ack : DgramAck) : Prop := cfg.Recent l ack.sentAt

/-- The age of an acknowledgement counts from its first missing datagram. -/
def Config.AckCurrent (l : Link) (ack : DgramAck) : Prop :=
  cfg.Recent l (ack.next + 1)

end CharmRuntime.Netlrts
