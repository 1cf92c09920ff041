import CharmRuntime.Netlrts.Datagram

/-!
# The receiving side

`DeliverViaNetwork` cuts what follows the first `DGRAM_HEADER_SIZE` bytes of a message into pieces
of `Cmi_dgram_max_data` bytes, and `AssembleDatagram` puts the pieces together again. The header of
the first datagram takes the place of the bytes that are cut off, so a message arrives with its
length and with everything from the ninth byte on (`body`).

`Streams cfg ms ds` says that the datagrams `ds` are those of the messages `ms`: assembling any
number of them in order never kills the program and hands over bodies that are a prefix of those of
`ms`. It holds of the messages that were passed to `DeliverViaNetwork` (`Streams.deliver`).

The receiver has assembled the datagrams before `R` and stores some of `(R, R + W)` in
`recv_window`. It accepts a datagram by its sequence number. If the datagram is not more than `2 ^
16 - W` behind `R` and less than `W` ahead of it, then the sequence number is in the window exactly
if the datagram is (`le_of_accepted`). So `IntegrateMessageDatagram` stores nothing but what was
sent, and assembles it in order (`integrateMessageDatagram_spec`).
-/

set_option autoImplicit false

namespace CharmRuntime.Netlrts

open Lib Function List Option

variable {cfg : Config}

/-! ## Fragmentation and reassembly -/

/-- What is kept of a message: its length, and what follows the datagram header. -/
def body (m : List UInt8) : Nat × List UInt8 := (m.length, m.drop dgramHeaderSize)

/-- Assemble packets one after the other. -/
def assembleAll (k : Intake) (packets : List (List UInt8)) : Option Intake :=
  packets.foldlM assembleDatagram k

theorem assembleAll_append (k : Intake) (ps qs : List (List UInt8)) :
    assembleAll k (ps ++ qs) = (assembleAll k ps).bind fun k => assembleAll k qs :=
  foldlM_append

theorem assembleAll_cons (k : Intake) (p : List UInt8) (ps : List (List UInt8)) :
    assembleAll k (p :: ps) = (assembleDatagram k p).bind fun k => assembleAll k ps :=
  foldlM_cons

/-! ### One message -/

variable {ogm : OutgoingMsg} {ms : List OutgoingMsg}

section Message

variable {asm : Option Assembly} {total : Nat} {msg p : List UInt8} {packets : List (List UInt8)}

section

variable (out : List (List UInt8))
  (hfill : fillMessage asm p = some ⟨total, msg ++ p.drop dgramHeaderSize⟩)

include out hfill

/-- A datagram that does not complete the message. -/
theorem assembleDatagram_part (hlt : msg.length + (p.drop dgramHeaderSize).length < total) :
    assembleDatagram ⟨asm, out⟩ p = some ⟨some ⟨total, msg ++ p.drop dgramHeaderSize⟩, out⟩ := by
  rw [← length_append] at hlt
  rw [assembleDatagram, hfill, bind_some, if_neg (Nat.lt_asymm hlt), if_neg (Nat.ne_of_lt hlt)]

/-- The datagram that completes the message. -/
theorem assembleDatagram_last (heq : msg.length + (p.drop dgramHeaderSize).length = total) :
    assembleDatagram ⟨asm, out⟩ p = some ⟨none, out ++ [msg ++ p.drop dgramHeaderSize]⟩ := by
  rw [← length_append] at heq
  rw [assembleDatagram, hfill, bind_some, if_neg (Nat.not_lt.2 (Nat.le_of_eq heq)), if_pos heq]

end

/-- The packets hand over the message `m`, and not before the last one. -/
def HandsOver (asm : Option Assembly) (out packets : List (List UInt8)) (m : List UInt8) : Prop :=
  assembleAll ⟨asm, out⟩ packets = some ⟨none, out ++ [m]⟩ ∧
    ∀ j < packets.length, ∃ a, assembleAll ⟨asm, out⟩ (packets.take j) = some ⟨a, out⟩

/-- One packet that carries all that is left of a message completes it. -/
theorem handsOver_single {out : List (List UInt8)} {rest : List UInt8}
    (hpieces : packets.map (List.drop dgramHeaderSize) = [rest])
    (htotal : msg.length + rest.length = total)
    (hfill : ∀ p ∈ packets.head?, fillMessage asm p = some ⟨total, msg ++ p.drop dgramHeaderSize⟩) :
    HandsOver asm out packets (msg ++ rest) := by
  obtain ⟨p, rfl, rfl⟩ := map_eq_singleton_iff.1 hpieces
  refine ⟨?_, fun j hj => ?_⟩
  · rw [assembleAll_cons, assembleDatagram_last out (hfill p rfl) htotal]
    rfl
  · obtain rfl : j = 0 := Nat.lt_one_iff.1 hj
    exact ⟨_, rfl⟩

/-- The pieces of what is left of a message complete it. The first of them may be the one that
starts the message. -/
theorem handsOver_rest {D : Nat} (hD : 0 < D) (out : List (List UInt8)) :
    ∀ {fuel : Nat} {rest msg : List UInt8} {asm : Option Assembly} {packets : List (List UInt8)},
      packets.map (List.drop dgramHeaderSize) = fragments D fuel rest → rest.length ≤ fuel →
      msg.length + rest.length = total →
      (∀ p ∈ packets.head?, fillMessage asm p = some ⟨total, msg ++ p.drop dgramHeaderSize⟩) →
      HandsOver asm out packets (msg ++ rest) := by
  intro fuel
  induction fuel with
  | zero => exact fun hpieces _ => handsOver_single hpieces
  | succ fuel ih =>
    intro rest msg asm packets hpieces hfuel htotal hfill
    rw [fragments] at hpieces
    split at hpieces
    · next hlong =>
      obtain ⟨p, packets, rfl, hp, hps⟩ := map_eq_cons_iff.1 hpieces
      have hlen : (p.drop dgramHeaderSize).length = D := by
        rw [hp, length_take]
        omega
      have hrest : (rest.drop D).length = rest.length - D := length_drop
      have hdone := assembleDatagram_part out (hfill p rfl) (by omega)
      have htotal' : (msg ++ p.drop dgramHeaderSize).length + (rest.drop D).length = total := by
        rw [length_append]
        omega
      have hfill' : ∀ q ∈ packets.head?,
          fillMessage (some ⟨total, msg ++ p.drop dgramHeaderSize⟩) q =
            some ⟨total, msg ++ p.drop dgramHeaderSize ++ q.drop dgramHeaderSize⟩ := fun _ _ => rfl
      obtain ⟨hall, hprefix⟩ := ih hps (by omega) htotal' hfill'
      constructor
      · rw [assembleAll_cons, hdone, bind_some, hall, hp, append_assoc, take_append_drop]
      · intro j hj
        cases j with
        | zero => exact ⟨_, rfl⟩
        | succ j =>
          rw [take_succ_cons, assembleAll_cons, hdone, bind_some]
          exact hprefix j (Nat.lt_of_succ_lt_succ hj)
    · exact handsOver_single hpieces htotal hfill

/-- The size is read behind the datagram header. -/
theorem cmiMsgSize_congr {q : List UInt8}
    (h : p.drop dgramHeaderSize = q.drop dgramHeaderSize) : cmiMsgSize p = cmiMsgSize q := by
  have h24 : p.drop 24 = q.drop 24 := by
    have := congrArg (List.drop 16) h
    rwa [drop_drop, drop_drop] at this
  rw [cmiMsgSize, cmiMsgSize, h24]

/-- The first datagram carries the beginning of the message, with the size. -/
theorem fillMessage_first (hwf : ogm.WellFormed cfg) (hlong : dgramHeaderSize ≤ p.length)
    (hp : p.drop dgramHeaderSize = (ogm.data.drop dgramHeaderSize).take cfg.dgramMaxData) :
    fillMessage none p = some ⟨ogm.data.length, p⟩ := by
  have hsize := hwf.size
  have hstored : cmiMsgSize p = some ogm.data.length := by
    rw [← hwf.stored]
    apply cmiMsgSize_congr
    rw [hp, drop_take, Nat.add_sub_cancel_left]
  have hlen := congrArg length hp
  rw [length_drop, length_take, length_drop] at hlen
  rw [fillMessage, hstored, bind_some, if_neg (by omega)]

/-- The datagrams of a message hand it over, and not before the last one. -/
theorem handsOver_message (hwf : ogm.WellFormed cfg)
    (hpieces : packets.map (List.drop dgramHeaderSize) = ogm.fragments cfg)
    (hlong : ∀ p ∈ packets, dgramHeaderSize ≤ p.length) (out : List (List UInt8)) :
    ∃ m, body m = body ogm.data ∧ HandsOver none out packets m := by
  have hsize := hwf.size
  obtain ⟨p, packets, rfl, hfirst⟩ : ∃ p ps, packets = p :: ps ∧ p.drop dgramHeaderSize =
      (ogm.data.drop dgramHeaderSize).take cfg.dgramMaxData := by
    obtain ⟨fuel, hfuel⟩ : ∃ fuel, ogm.data.length = fuel + 1 :=
      Nat.exists_eq_succ_of_ne_zero (by rw [dgramHeaderSize] at hsize; omega)
    rw [OutgoingMsg.fragments, hfuel, fragments] at hpieces
    split at hpieces
    · obtain ⟨p, ps, rfl, hp, -⟩ := map_eq_cons_iff.1 hpieces
      exact ⟨p, ps, rfl, hp⟩
    · next hshort =>
      obtain ⟨p, ps, rfl, hp, -⟩ := map_eq_cons_iff.1 hpieces
      exact ⟨p, ps, rfl, by rw [hp, take_of_length_le (Nat.not_lt.1 hshort)]⟩
  have hhead : dgramHeaderSize ≤ p.length := hlong p mem_cons_self
  have hrest : (ogm.data.drop dgramHeaderSize).length = ogm.data.length - dgramHeaderSize :=
    length_drop
  have htake : (p.take dgramHeaderSize).length = dgramHeaderSize := length_take_of_le hhead
  have hfill : ∀ q ∈ (p :: packets).head?, fillMessage none q =
      some ⟨ogm.data.length, p.take dgramHeaderSize ++ q.drop dgramHeaderSize⟩ := by
    intro q hq
    cases hq
    rw [take_append_drop, fillMessage_first hwf hhead hfirst]
  refine ⟨_, ?_, handsOver_rest cfg.data_pos out hpieces (by omega) (by omega) hfill⟩
  rw [body, body, length_append, drop_left' htake]
  exact Prod.ext (by dsimp only; omega) rfl

end Message

/-! ### All messages -/

/-- The packet of a datagram. -/
abbrev packetData (cfg : Config) (d : ImplicitDgram) : List UInt8 :=
  (transmitImplicitDgram cfg d).data

/-- The datagrams `ds` are those of the messages `ms`. -/
structure Streams (cfg : Config) (ms : List OutgoingMsg) (ds : List ImplicitDgram) : Prop where
  whole : ∃ out, assembleAll ⟨none, []⟩ (ds.map (packetData cfg)) = some ⟨none, out⟩ ∧
    out.map body = ms.map fun ogm => body ogm.data
  part : ∀ n, ∃ k, assembleAll ⟨none, []⟩ ((ds.take n).map (packetData cfg)) = some k ∧
    k.delivered.map body <+: ms.map fun ogm => body ogm.data

theorem streams_nil : Streams cfg [] [] :=
  ⟨⟨[], rfl, rfl⟩, fun n => ⟨⟨none, []⟩, by rw [take_nil]; rfl, prefix_rfl⟩⟩

theorem packetData_drop (d : ImplicitDgram) : (packetData cfg d).drop dgramHeaderSize = d.data :=
  drop_left' rfl

theorem le_length_packetData (d : ImplicitDgram) : dgramHeaderSize ≤ (packetData cfg d).length := by
  rw [packetData, transmitImplicitDgram, length_append]
  exact Nat.le_add_right _ _

/-- The datagrams of one more message. -/
theorem Streams.append {ds : List ImplicitDgram} (h : Streams cfg ms ds)
    (hwf : ogm.WellFormed cfg) {new : List ImplicitDgram}
    (hnew : new.map ImplicitDgram.data = ogm.fragments cfg) :
    Streams cfg (ms ++ [ogm]) (ds ++ new) := by
  obtain ⟨out, hout, hbodies⟩ := h.whole
  have hpieces : (new.map (packetData cfg)).map (List.drop dgramHeaderSize) =
      ogm.fragments cfg := by
    rw [List.map_map, ← hnew]
    exact map_congr_left fun d _ => packetData_drop d
  have hlong : ∀ p ∈ new.map (packetData cfg), dgramHeaderSize ≤ p.length := by
    intro p hp
    obtain ⟨d, -, rfl⟩ := mem_map.1 hp
    exact le_length_packetData d
  obtain ⟨m, hm, hall, hprefix⟩ := handsOver_message hwf hpieces hlong out
  have hwhole : assembleAll ⟨none, []⟩ ((ds ++ new).map (packetData cfg)) =
      some ⟨none, out ++ [m]⟩ := by
    rw [map_append, assembleAll_append, hout, bind_some, hall]
  have hbodies' : (out ++ [m]).map body = (ms ++ [ogm]).map fun ogm => body ogm.data := by
    rw [map_append, map_append, hbodies, map_singleton, hm]
    rfl
  refine ⟨⟨out ++ [m], hwhole, hbodies'⟩, fun n => ?_⟩
  rcases Nat.le_total n ds.length with hle | hge
  · obtain ⟨k, hk, hpre⟩ := h.part n
    rw [take_append_of_le_length hle, map_append]
    exact ⟨k, hk, hpre.trans (prefix_append _ _)⟩
  · rw [take_append, take_of_length_le hge]
    rcases Nat.lt_or_ge (n - ds.length) new.length with hlt | hall'
    · obtain ⟨a, ha⟩ := hprefix (n - ds.length) (by rwa [List.length_map])
      refine ⟨⟨a, out⟩, ?_, ?_⟩
      · rw [map_append, assembleAll_append, hout, bind_some, map_take, ha]
      · rw [map_append, ← hbodies]
        exact prefix_append _ _
    · rw [take_of_length_le hall']
      exact ⟨_, hwhole, hbodies' ▸ prefix_rfl⟩

/-- The datagrams that `DeliverViaNetwork` enqueues. -/
theorem enqueued_deliverViaNetwork (s : SendState) (ogm : OutgoingMsg) :
    ∃ new, (deliverViaNetwork cfg s ogm).enqueued = s.enqueued ++ new ∧
      new.map ImplicitDgram.data = ogm.fragments cfg := by
  rw [deliverViaNetwork]
  generalize ogm.fragments cfg = pieces
  induction pieces generalizing s with
  | nil => exact ⟨[], (append_nil _).symm, rfl⟩
  | cons p pieces ih =>
    obtain ⟨new, henq, hnew⟩ := ih (enqueueOutgoingDgram s ogm p)
    rw [foldl_cons, henq, enqueueOutgoingDgram]
    exact ⟨_ :: new, append_assoc _ _ _, by rw [map_cons, hnew]⟩

/-- `DeliverViaNetwork`. -/
theorem Streams.deliver {s : SendState} (h : Streams cfg ms s.enqueued)
    (hwf : ogm.WellFormed cfg) :
    Streams cfg (ms ++ [ogm]) (deliverViaNetwork cfg s ogm).enqueued := by
  obtain ⟨new, henq, hnew⟩ := enqueued_deliverViaNetwork s ogm
  rw [henq]
  exact h.append hwf hnew

/-! ## The window -/

/-- The datagram is assembled or in the window. -/
def RecvState.Stored (r : RecvState) (a : Nat) : Prop :=
  a ∈ r.assembled ∨ ∃ slot dg, r.recvWindow slot = some dg ∧ dg.index = a

/-- The packet is that of an enqueued datagram. -/
def Genuine (cfg : Config) (enqueued : List ImplicitDgram) (dg : ExplicitDgram) : Prop :=
  ∃ d, enqueued[d.index]? = some d ∧ d.seqno = d.index % 0x10000 ∧ dg = transmitImplicitDgram cfg d

/-- The datagrams before `R` are assembled, and the window holds datagrams of `[R, hi)`. -/
structure RecvState.Holds (cfg : Config) (enqueued : List ImplicitDgram) (r : RecvState)
    (R hi : Nat) : Prop where
  assembled : r.assembled = List.range R
  intake : assembleAll ⟨none, []⟩ ((enqueued.take R).map (packetData cfg)) = some r.intake
  placed : ∀ slot dg, r.recvWindow slot = some dg → slot = dg.index % cfg.windowSize ∧
    R ≤ dg.index ∧ dg.index < hi ∧ Genuine cfg enqueued dg

/-- The state between two datagrams: the slot of the first missing datagram is free. -/
structure RecvState.Ok (cfg : Config) (enqueued : List ImplicitDgram) (r : RecvState) (R : Nat) :
    Prop where
  holds : r.Holds cfg enqueued R (R + cfg.windowSize)
  next : r.recvNext = R % 0x10000
  missing : r.recvWindow (R % cfg.windowSize) = none

section Receive

variable {enqueued : List ImplicitDgram} {ms : List OutgoingMsg} {r : RecvState} {R hi : Nat}
  {dg : ExplicitDgram}

section

variable (h : Genuine cfg enqueued dg)

include h

theorem Genuine.seqno : dg.seqno = dg.index % 0x10000 := by
  obtain ⟨d, -, hseqno, rfl⟩ := h
  rw [transmitImplicitDgram, seqnoMask, hseqno]
  exact Nat.mod_mod _ _

theorem Genuine.slot : dg.seqno % cfg.windowSize = dg.index % cfg.windowSize := by
  rw [h.seqno]
  exact Nat.mod_mod_of_dvd _ cfg.window_dvd

theorem Genuine.mono (l : List ImplicitDgram) : Genuine cfg (enqueued ++ l) dg := by
  obtain ⟨d, hd, hseqno, rfl⟩ := h
  refine ⟨d, ?_, hseqno, rfl⟩
  rw [getElem?_append_left (List.getElem?_eq_some_iff.1 hd).1]
  exact hd

end

/-- The sequence number of a datagram that is not too far behind is in the window only if the
datagram is. -/
theorem le_of_accepted {x W : Nat} (hhi : x < R + W) (hlo : R + W ≤ x + 0x10000)
    (hacc : seqnoMask (x % 0x10000 + 0x10000 - R % 0x10000) < W) : R ≤ x := by
  rw [seqnoMask] at hacc
  omega

variable (hs : Streams cfg ms enqueued)

include hs

/-- The first missing datagram is assembled. -/
theorem RecvState.Holds.assemble (h : r.Holds cfg enqueued R hi)
    (hhi : hi ≤ R + cfg.windowSize) (hdg : r.recvWindow (R % cfg.windowSize) = some dg) :
    R < hi ∧ ∃ k, assembleDatagram r.intake dg.data = some k ∧ RecvState.Holds cfg enqueued { r with
          intake := k
          recvWindow := update r.recvWindow (R % cfg.windowSize) none
          assembled := r.assembled ++ [dg.index] } (R + 1) hi := by
  obtain ⟨hslot, hle, hlt, hgen⟩ := h.placed _ dg hdg
  have hindex : dg.index = R := eq_of_mod_eq hslot.symm (by omega) (by omega)
  obtain ⟨d, hd, -, rfl⟩ := id hgen
  have hdR : enqueued[R]? = some d := hindex ▸ hd
  -- the datagrams up to `R` can be assembled, since they are those of the messages
  obtain ⟨k', hk, -⟩ := hs.part (R + 1)
  have htake : enqueued.take (R + 1) = enqueued.take R ++ [d] := by
    rw [take_add_one, hdR]
    rfl
  rw [htake, map_append, assembleAll_append, h.intake, bind_some, map_singleton, assembleAll_cons]
    at hk
  obtain ⟨k, hstep, hrest⟩ := bind_eq_some_iff.1 hk
  cases hrest
  refine ⟨by omega, k', hstep, ⟨?_, ?_, ?_⟩⟩
  · rw [h.assembled, hindex, range_succ]
  · rw [htake, map_append, assembleAll_append, h.intake, bind_some, map_singleton,
      assembleAll_cons, hstep]
    rfl
  · intro slot e he
    obtain ⟨hne, he⟩ := update_none_cases he
    obtain ⟨hs', hle', hlt', hgen'⟩ := h.placed slot e he
    refine ⟨hs', ?_, hlt', hgen'⟩
    have : e.index ≠ R := fun heq => hne (heq ▸ hs')
    omega

omit hs in
/-- Moving a datagram from the window to the assembled ones changes nothing in what is stored. -/
theorem RecvState.stored_assemble (hdg : r.recvWindow (R % cfg.windowSize) = some dg) (k : Intake)
    (a : Nat) : RecvState.Stored { r with
        intake := k
        recvWindow := update r.recvWindow (R % cfg.windowSize) none
        assembled := r.assembled ++ [dg.index] } a ↔ r.Stored a := by
  constructor
  · rintro (ha | ⟨slot, e, he, rfl⟩)
    · rcases mem_append.1 ha with ha | ha
      · exact .inl ha
      · exact .inr ⟨_, dg, hdg, (mem_singleton.1 ha).symm⟩
    · exact .inr ⟨slot, e, (update_none_cases he).2, rfl⟩
  · rintro (ha | ⟨slot, e, he, rfl⟩)
    · exact .inl (mem_append_left _ ha)
    · by_cases hslot : slot = R % cfg.windowSize
      · rw [hslot, hdg] at he
        cases he
        exact .inl (mem_append_right _ (mem_singleton_self _))
      · exact .inr ⟨slot, e, (update_of_ne hslot _ _).trans he, rfl⟩

/-- `AssembleReceivedDatagrams` assembles up to the next missing datagram. -/
theorem assembleReceivedDatagrams_spec :
    ∀ {fuel R : Nat} {r : RecvState}, r.Holds cfg enqueued R hi → hi ≤ R + cfg.windowSize →
      R ≤ hi → hi < R + fuel → ∃ r' R', assembleReceivedDatagrams cfg fuel
      (R % 0x10000) r = some r' ∧
        r'.Ok cfg enqueued R' ∧ R ≤ R' ∧ ∀ a, r'.Stored a ↔ r.Stored a := by
  intro fuel
  induction fuel with
  | zero =>
    intro R r _ _ hle hfuel
    omega
  | succ fuel ih =>
    intro R r h hhi hle hfuel
    rw [assembleReceivedDatagrams, Nat.mod_mod_of_dvd _ cfg.window_dvd]
    split
    · next hnone =>
      have hok : RecvState.Ok cfg enqueued { r with recvNext := R % 0x10000 } R := by
        refine ⟨⟨h.assembled, h.intake, fun slot e he => ?_⟩, rfl, hnone⟩
        obtain ⟨h1, h2, h3, h4⟩ := h.placed slot e he
        exact ⟨h1, h2, by omega, h4⟩
      exact ⟨_, R, rfl, hok, le_rfl, fun _ => Iff.rfl⟩
    · next dg hdg =>
      obtain ⟨hlt, k, hstep, h'⟩ := h.assemble hs hhi hdg
      have hnext : seqnoMask (R % 0x10000 + 1) = (R + 1) % 0x10000 := by
        rw [seqnoMask]
        omega
      obtain ⟨r', R', heq, hok, hRR', hstored⟩ := ih h' (by omega) (by omega) (by omega)
      rw [hstep, bind_some, hnext]
      exact ⟨r', R', heq,
        hok, by omega, fun a => (hstored a).trans (RecvState.stored_assemble hdg k a)⟩

/-- `IntegrateMessageDatagram` of a datagram that is near the window. -/
theorem integrateMessageDatagram_spec (h : r.Ok cfg enqueued R)
    (hgen : Genuine cfg enqueued dg) (hhi : dg.index < R + cfg.windowSize)
    (hlo : R + cfg.windowSize ≤ dg.index + 0x10000) :
    ∃ r' R', integrateMessageDatagram cfg r dg = some r' ∧ r'.Ok cfg enqueued R' ∧ R ≤ R' ∧
      (∀ a, r.Stored a → r'.Stored a) ∧ ∀ a, r'.Stored a → r.Stored a ∨ a = dg.index := by
  have hsame : ∃ r' R', some r = some r' ∧ r'.Ok cfg enqueued R' ∧ R ≤ R' ∧
      (∀ a, r.Stored a → r'.Stored a) ∧ ∀ a, r'.Stored a → r.Stored a ∨ a = dg.index :=
    ⟨r, R, rfl, h, le_rfl, fun _ ha => ha, fun _ ha => .inl ha⟩
  rw [integrateMessageDatagram]
  split
  · next hacc =>
    rw [hgen.seqno, h.next] at hacc
    have hle := le_of_accepted hhi hlo hacc
    rw [hgen.slot]
    dsimp only
    split
    · next hfree =>
      have hput : RecvState.Holds cfg enqueued
          { r with recvWindow :=
              update r.recvWindow (dg.index % cfg.windowSize) (some dg) }
          R (R + cfg.windowSize) := by
        refine ⟨h.holds.assembled, h.holds.intake, fun slot e he => ?_⟩
        rcases update_some_cases he with ⟨rfl, rfl⟩ | ⟨-, he⟩
        · exact ⟨rfl, hle, hhi, hgen⟩
        · exact h.holds.placed slot e he
      have hstored : ∀ a, RecvState.Stored
          { r with recvWindow :=
              update r.recvWindow (dg.index % cfg.windowSize) (some dg) } a ↔
          r.Stored a ∨ a = dg.index := by
        intro a
        constructor
        · rintro (ha | ⟨slot, e, he, rfl⟩)
          · exact .inl (.inl ha)
          · rcases update_some_cases he with ⟨-, rfl⟩ | ⟨-, he⟩
            · exact .inr rfl
            · exact .inl (.inr ⟨slot, e, he, rfl⟩)
        · rintro ((ha | ⟨slot, e, he, rfl⟩) | rfl)
          · exact .inl ha
          · exact .inr ⟨slot, e, update_of_free hfree he, rfl⟩
          · exact .inr ⟨_, dg, update_self _ _ _, rfl⟩
      split
      · obtain ⟨r', R', heq, hok, hRR', hiff⟩ :=
          assembleReceivedDatagrams_spec hs hput le_rfl (by omega)
            (show _ < R + (cfg.windowSize + 1) by omega)
        rw [← h.next] at heq
        exact ⟨r', R', heq, hok, hRR', fun a ha => (hiff a).2 ((hstored a).2 (.inl ha)),
          fun a ha => (hstored a).1 ((hiff a).1 ha)⟩
      · next hne =>
        -- another datagram than the missing one is only stored
        refine ⟨_, R, rfl, ⟨hput, h.next, ?_⟩, le_rfl, fun a ha => (hstored a).2 (.inl ha),
          fun a ha => (hstored a).1 ha⟩
        rw [hgen.seqno, h.next] at hne
        have hslot : R % cfg.windowSize ≠ dg.index % cfg.windowSize := by
          intro heq
          have := eq_of_mod_eq heq (by omega) (by omega)
          exact hne (this ▸ rfl)
        exact (update_of_ne hslot _ _).trans h.missing
    · exact hsame
  · exact hsame

end Receive

end CharmRuntime.Netlrts
