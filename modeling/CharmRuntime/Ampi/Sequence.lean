import CharmRuntime.Ampi.Broadcasts
import Mathlib.Algebra.Group.Nat.Defs

/-!
# Sequence numbers

The model of `AmpiSeqQ`, `generic` and `genericRdma`. A source numbers its messages with a counter
of `w` bits that skips 0; the destination passes the message with the next number on and keeps the
others in one queue for all sources.

The check in `putOutOfOrder` compares numbers by magnitude, so that it takes a message from the next
lap of the counter for a late one and aborts (`next_lap_aborts`). As long as every message arrives
in the lap of the message that is expected next, and fewer than 65535 messages of its source wait,
all messages are passed on once and in the order of sending (`passed_in_send_order`).
-/

set_option autoImplicit false

namespace CharmRuntime.Ampi.Sequence

open Lib Function List Option

/-! ## The model -/

/-- `AmpiOtherElement`. -/
structure AmpiOtherElement where
  seqIncoming : Nat
  seqOutgoing : Nat
  numOutOfOrder : Nat

/-- The constructor. -/
def AmpiOtherElement.init : AmpiOtherElement := ⟨1, 0, 0⟩

/-- The increment of a counter of type `CMK_REFNUM_TYPE`, of `w` bits. -/
def incSeq (w seq : Nat) : Nat := if (seq + 1) % 2 ^ w = 0 then 1 else (seq + 1) % 2 ^ w

namespace AmpiOtherElement

/-- `incSeqIncoming`. -/
def incSeqIncoming (w : Nat) (el : AmpiOtherElement) : AmpiOtherElement :=
  { el with seqIncoming := incSeq w el.seqIncoming }

/-- `incSeqOutgoing`. -/
def incSeqOutgoing (w : Nat) (el : AmpiOtherElement) : AmpiOtherElement :=
  { el with seqOutgoing := incSeq w el.seqOutgoing }

/-- `incNumOutOfOrder`, on a `uint16_t`. -/
def incNumOutOfOrder (el : AmpiOtherElement) : AmpiOtherElement :=
  { el with numOutOfOrder := (el.numOutOfOrder + 1) % 2 ^ 16 }

/-- `decNumOutOfOrder`. -/
def decNumOutOfOrder (el : AmpiOtherElement) : AmpiOtherElement :=
  { el with numOutOfOrder := (el.numOutOfOrder + (2 ^ 16 - 1)) % 2 ^ 16 }

end AmpiOtherElement

/-- `MPI_ATA_TAG`. -/
def mpiAtaTag : Int := mpiTagUbValue + 8

/-- `COLL_SEQ_IDX`. -/
def collSeqIdx : Int := -1

/-- `AmpiMsg`. The number, from 0 on in the order of sending, is not in the code. -/
structure AmpiMsg where
  srcRank : Int
  tag : Int
  seq : Nat
  number : Nat
  deriving DecidableEq

/-- `getSeqIdx`. -/
def AmpiMsg.getSeqIdx (msg : AmpiMsg) : Int :=
  if mpiBcastTag ≤ msg.tag ∧ msg.tag ≤ mpiAtaTag then collSeqIdx else msg.srcRank

/-- `AmpiSeqQ`. -/
structure AmpiSeqQ where
  out : List AmpiMsg
  elements : Int → AmpiOtherElement

/-- A queue with its elements as they are when they are first looked up. -/
def AmpiSeqQ.init : AmpiSeqQ := ⟨[], fun _ => .init⟩

/-- The loop of `getOutOfOrder`: `n` times a message is taken off the queue and put back at its
end. -/
def rotate (p : AmpiMsg → Bool) : Nat → List AmpiMsg → Option AmpiMsg × List AmpiMsg
  | 0, out => (none, out)
  | _ + 1, [] => (none, [])
  | n + 1, msg :: out => if p msg then (some msg, out) else rotate p n (out ++ [msg])

namespace AmpiSeqQ

variable (w : Nat) (q : AmpiSeqQ) (seqIdx : Int)

/-- One of the elements changes. -/
def setElement (el : AmpiOtherElement) : AmpiSeqQ :=
  { q with elements := update q.elements seqIdx el }

/-- `putOutOfOrder`, with its check. -/
def putOutOfOrder (msg : AmpiMsg) : Option AmpiSeqQ :=
  if msg.seq < (q.elements seqIdx).seqIncoming then none
  else some { q.setElement seqIdx (q.elements seqIdx).incNumOutOfOrder with out := q.out ++ [msg] }

/-- `put`. -/
def put (msg : AmpiMsg) : Option (Nat × AmpiSeqQ) :=
  if msg.seq = (q.elements seqIdx).seqIncoming then
    some (1 + (q.elements seqIdx).numOutOfOrder,
      q.setElement seqIdx ((q.elements seqIdx).incSeqIncoming w))
  else (q.putOutOfOrder seqIdx msg).map fun q => (0, q)

/-- `isInOrder`. -/
def isInOrder (seq : Nat) : Nat × AmpiSeqQ :=
  if seq = (q.elements seqIdx).seqIncoming then
    (1 + (q.elements seqIdx).numOutOfOrder,
      q.setElement seqIdx ((q.elements seqIdx).incSeqIncoming w))
  else (0, q)

/-- `getOutOfOrder`. -/
def getOutOfOrder : Option AmpiMsg × AmpiSeqQ :=
  if (q.elements seqIdx).numOutOfOrder = 0 then (none, q)
  else
    match rotate (fun msg => msg.getSeqIdx = seqIdx ∧ msg.seq = (q.elements seqIdx).seqIncoming)
      q.out.length q.out with
    | (some msg, out) =>
      (some msg,
        { q.setElement seqIdx (((q.elements seqIdx).incSeqIncoming w).decNumOutOfOrder) with
        out := out })
    | (none, out) => (none, { q with out := out })

end AmpiSeqQ

/-- The loop that passes on messages that have become in order, for at most `n` rounds. -/
def drain (w : Nat) (seqIdx : Int) : Nat → AmpiSeqQ → Option (List AmpiMsg × AmpiSeqQ)
  | 0, _ => none
  | n + 1, q =>
    match q.getOutOfOrder w seqIdx with
    | (none, q) => some ([], q)
    | (some msg, q) => (drain w seqIdx n q).map fun (msgs, q) => (msg :: msgs, q)

/-- What follows a message that was in order: `n` is what `put` or `isInOrder` has returned. -/
def release (w : Nat) (seqIdx : Int) (msg : AmpiMsg) (n : Nat) (q : AmpiSeqQ) :
    Option (List AmpiMsg × AmpiSeqQ) :=
  if n > 1 then (drain w seqIdx (q.out.length + 1) q).map fun (msgs, q) => (msg :: msgs, q)
  else some ([msg], q)

/-- `generic`: the messages passed to `inorder`, in order. -/
def generic (w : Nat) (q : AmpiSeqQ) (msg : AmpiMsg) : Option (List AmpiMsg × AmpiSeqQ) :=
  if msg.seq ≠ 0 then
    (q.put w msg.getSeqIdx msg).bind fun (n, q) =>
      if n > 0 then release w msg.getSeqIdx msg n q else some ([], q)
  else some ([msg], q)

/-- `genericRdma`: the message itself is passed to `inorderRdma`, the others to `inorder`. -/
def genericRdma (w : Nat) (q : AmpiSeqQ) (msg : AmpiMsg) : Option (List AmpiMsg × AmpiSeqQ) :=
  if msg.seq ≠ 0 then
    match q.isInOrder w msg.srcRank msg.seq with
    | (n, q) =>
      if n > 0 then release w msg.srcRank msg n q
      else (q.putOutOfOrder msg.srcRank msg).map fun q => ([], q)
  else some ([msg], q)

/-- The two ways of delivery do the same with a message of its source's own sequence. -/
theorem genericRdma_eq (w : Nat) (q : AmpiSeqQ) {msg : AmpiMsg} (h : msg.getSeqIdx = msg.srcRank) :
    genericRdma w q msg = generic w q msg := by
  rw [genericRdma, generic, h, AmpiSeqQ.isInOrder, AmpiSeqQ.put]
  split
  · by_cases hseq : msg.seq = (q.elements msg.srcRank).seqIncoming
    · simp only [if_pos hseq, bind_some]
      rw [if_pos (by omega), if_pos (by omega)]
    · simp only [if_neg hseq, bind_map]
      cases q.putOutOfOrder msg.srcRank msg <;> rfl
  · rfl

/-! ## Numbers -/

section Numbers

variable {w n k : Nat}

/-- The length of a lap of the counter: 0 is skipped. -/
def lap (w : Nat) : Nat := 2 ^ w - 1

/-- The sequence number of a message. -/
def seqOf (w n : Nat) : Nat := n % lap w + 1

theorem lap_pos (hw : 0 < w) : 0 < lap w := by
  have htwo : 2 ^ 1 ≤ 2 ^ w := Nat.pow_le_pow_right (by decide) hw
  rw [lap]
  omega

theorem incSeq_seqOf (hw : 0 < w) : incSeq w (seqOf w n) = seqOf w (n + 1) := by
  have hpos := lap_pos hw
  have hpow : 2 ^ w = lap w + 1 := by
    rw [lap] at hpos ⊢
    omega
  have hlt := Nat.mod_lt n hpos
  rw [incSeq, seqOf, seqOf, hpow, ← Nat.mod_add_mod n]
  by_cases hlast : n % lap w + 1 = lap w
  · rw [hlast, Nat.mod_self, Nat.mod_self, if_pos rfl]
  · have hsmall : n % lap w + 1 + 1 < lap w + 1 := by omega
    have hsmall' : n % lap w + 1 < lap w := by omega
    rw [Nat.mod_eq_of_lt hsmall, if_neg (Nat.succ_ne_zero _), Nat.mod_eq_of_lt hsmall']

variable (hlap : n / lap w = k / lap w)

include hlap

/-- Within a lap the sequence number tells the messages apart. -/
theorem seqOf_inj (h : seqOf w n = seqOf w k) : n = k := by
  have hmod : n % lap w = k % lap w := Nat.succ.inj h
  rw [← Nat.div_add_mod n (lap w), ← Nat.div_add_mod k (lap w), hlap, hmod]

/-- Within a lap the sequence numbers grow. -/
theorem seqOf_le (h : k ≤ n) : seqOf w k ≤ seqOf w n := by
  have hn := Nat.div_add_mod n (lap w)
  have hk := Nat.div_add_mod k (lap w)
  rw [hlap] at hn
  rw [seqOf, seqOf]
  omega

/-- What lies between two messages of a lap is of this lap. -/
theorem lap_between {m : Nat} (hk : k ≤ m) (hn : m ≤ n) : n / lap w = m / lap w := by
  have hle := Nat.div_le_div_right (c := lap w) hk
  have hge := Nat.div_le_div_right (c := lap w) hn
  omega

end Numbers

/-! ## The queue -/

section Queue

variable {p : AmpiMsg → Bool} {out before after : List AmpiMsg} {msg : AmpiMsg}

/-- The loop goes past messages that are not sought. -/
theorem rotate_append (n : Nat) (h : ∀ m ∈ before, p m = false) :
    rotate p (before.length + n) (before ++ after) = rotate p n (after ++ before) := by
  induction before generalizing after with
  | nil =>
    rw [length_nil, zero_add, nil_append, append_nil]
  | cons m before ih =>
    have hm := h m mem_cons_self
    rw [length_cons, Nat.add_right_comm, cons_append, rotate, hm,
      if_neg Bool.false_ne_true, append_assoc,
      ih fun m' hm' => h m' (mem_cons_of_mem _ hm'), append_assoc]
    rfl

theorem rotate_none (h : ∀ m ∈ out, p m = false) : rotate p out.length out = (none, out) := by
  have happend := @rotate_append p out [] 0 h
  rwa [add_zero, append_nil, nil_append] at happend

theorem rotate_some (h : ∀ m ∈ before, p m = false) (hmsg : p msg = true) :
    rotate p (before ++ msg :: after).length
    (before ++ msg :: after) = (some msg, after ++ before) := by
  rw [length_append, length_cons, rotate_append _ h, cons_append, rotate, if_pos hmsg]

end Queue

/-- The next message that each sequence expects. -/
abbrev Expected := Int → Nat

/-- The queue holds messages that are still to come, in the lap of the one that is expected. -/
structure Waits (w : Nat) (q : AmpiSeqQ) (k : Expected) : Prop where
  incoming : ∀ idx, (q.elements idx).seqIncoming = seqOf w (k idx)
  count : ∀ idx, (q.elements idx).numOutOfOrder = q.out.countP fun m => m.getSeqIdx = idx
  count_lt : ∀ idx, (q.out.countP fun m => m.getSeqIdx = idx) < 2 ^ 16
  seqs : ∀ m ∈ q.out, m.seq = seqOf w m.number
  later : ∀ m ∈ q.out, k m.getSeqIdx ≤ m.number ∧ m.number / lap w = k m.getSeqIdx / lap w
  distinct : (q.out.map fun m => (m.getSeqIdx, m.number)).Nodup

variable {w n : Nat} {q q' : AmpiSeqQ} {k : Expected} {idx : Int} {msg : AmpiMsg}
  {el : AmpiOtherElement}
  {out msgs : List AmpiMsg}

theorem waits_init : Waits w .init fun _ => 0 where
  incoming _ := by
    rfl
  count _ := rfl
  count_lt _ := by simp [AmpiSeqQ.init]
  seqs := nofun
  later := nofun
  distinct := nodup_nil

/-- A waiting message has the number that is expected if and only if it is the expected one. -/
theorem Waits.seq_eq_iff (h : Waits w q k) (hmem : msg ∈ q.out) (hidx : msg.getSeqIdx = idx) :
    msg.seq = (q.elements idx).seqIncoming ↔ msg.number = k idx := by
  rw [h.seqs msg hmem, h.incoming]
  refine ⟨fun heq => seqOf_inj (hidx ▸ (h.later msg hmem).2) heq, fun heq => ?_⟩
  rw [heq]

/-- The expected message has been taken: what waits is still to come. -/
theorem Waits.later_next (h : Waits w q k) {m : AmpiMsg} (hm : m ∈ q.out)
    (hne : m.getSeqIdx = idx → m.number ≠ k idx) : update k idx (k idx + 1) m.getSeqIdx ≤ m.number ∧
      m.number / lap w = update k idx (k idx + 1) m.getSeqIdx / lap w := by
  obtain ⟨hle, hlap⟩ := h.later m hm
  by_cases hidx : m.getSeqIdx = idx
  · rw [hidx, update_self]
    rw [hidx] at hle hlap
    have hle' : k idx + 1 ≤ m.number := Nat.lt_of_le_of_ne hle (hne hidx).symm
    exact ⟨hle', lap_between hlap (Nat.le_succ _) hle'⟩
  · rw [update_of_ne hidx]
    exact ⟨hle, hlap⟩

/-- The counter of the sequence goes on. -/
theorem incoming_next (hw : 0 < w) (h : Waits w q k)
    (hel : el.seqIncoming = incSeq w (q.elements idx).seqIncoming) (j : Int) :
    (update q.elements idx el j).seqIncoming = seqOf w (update k idx (k idx + 1) j) := by
  by_cases hj : j = idx
  · rw [hj, update_self, update_self, hel, h.incoming, incSeq_seqOf hw]
  · rw [update_of_ne hj, update_of_ne hj]
    exact h.incoming j

/-- The number of waiting messages, as the code counts it. -/
theorem count_update (h : Waits w q k)
    (hel : el.numOutOfOrder = out.countP fun m => m.getSeqIdx = idx)
    (hout : ∀ j, j ≠ idx → (out.countP fun m => m.getSeqIdx = j) =
      q.out.countP fun m => m.getSeqIdx = j) (j : Int) :
    (update q.elements idx el j).numOutOfOrder = out.countP fun m => m.getSeqIdx = j := by
  by_cases hj : j = idx
  · rw [hj, update_self, hel]
  · rw [update_of_ne hj, hout j hj]
    exact h.count j

/-- The message that is in order is passed on. -/
theorem Waits.advance (hw : 0 < w) (h : Waits w q k)
    (hnot : ∀ m ∈ q.out, m.getSeqIdx = idx → m.number ≠ k idx) :
    Waits w (q.setElement idx ((q.elements idx).incSeqIncoming w)) (update k idx (k idx + 1)) where
  __ := h
  incoming := incoming_next hw h rfl
  count := count_update h (h.count idx) fun _ _ => rfl
  later _ hm := h.later_next hm (hnot _ hm)

/-- No expected message waits. -/
def Settled (q : AmpiSeqQ) (k : Expected) (idx : Int) : Prop :=
  ∀ m ∈ q.out, m.getSeqIdx = idx → m.number ≠ k idx

/-- A waiting message is taken out of the queue. -/
theorem Waits.take (hw : 0 < w) (h : Waits w q k) (hperm : q.out.Perm (msg :: out))
    (hidx : msg.getSeqIdx = idx) (hnum : msg.number = k idx) :
    Waits w
    { q.setElement idx ((q.elements idx).incSeqIncoming w).decNumOutOfOrder with out := out }
      (update k idx (k idx + 1)) := by
  have hmem : ∀ m ∈ out, m ∈ q.out := fun m hm => hperm.mem_iff.2 (mem_cons_of_mem _ hm)
  have hcount : ∀ j, (q.out.countP fun m => m.getSeqIdx = j) =
      (out.countP fun m => m.getSeqIdx = j) + if j = idx then 1 else 0 := by
    intro j
    rw [hperm.countP_eq, countP_cons, hidx]
    simp only [decide_eq_true_eq, eq_comm (a := idx)]
  have hdistinct := (hperm.map fun m => (m.getSeqIdx, m.number)).nodup_iff.1 h.distinct
  rw [map_cons, nodup_cons] at hdistinct
  refine ⟨incoming_next hw h rfl, count_update h ?_ fun j hj => ?_, fun j => ?_,
    fun m hm => h.seqs m (hmem m hm), fun m hm => h.later_next (hmem m hm) fun hm' heq => ?_,
    hdistinct.2⟩
  · have hone := hcount idx
    have hlt := h.count_lt idx
    rw [if_pos rfl] at hone
    show ((q.elements idx).numOutOfOrder + (2 ^ 16 - 1)) % 2 ^ 16 = out.countP _
    rw [h.count]
    omega
  · have hsame := hcount j
    rw [if_neg hj] at hsame
    exact hsame.symm
  · exact lt_of_le_of_lt (by rw [hcount j]; exact Nat.le_add_right _ _) (h.count_lt j)
  · -- the number is that of the message taken out, which is another one
    exact hdistinct.1 (mem_map.2 ⟨m, hm, by rw [hm', heq, hidx, hnum]⟩)

/-- What `getOutOfOrder` does: it takes out the message that is expected, if it waits. -/
theorem Waits.getOutOfOrder (hw : 0 < w) (h : Waits w q k) (idx : Int) :
    (q.getOutOfOrder w idx = (none, q) ∧ Settled q k idx) ∨
      ∃ m q', q.getOutOfOrder w idx = (some m, q') ∧ m.getSeqIdx = idx ∧ m.number = k idx ∧
        q.out.Perm (m :: q'.out) ∧ Waits w q' (update k idx (k idx + 1)) := by
  rw [AmpiSeqQ.getOutOfOrder]
  by_cases hzero : (q.elements idx).numOutOfOrder = 0
  · rw [if_pos hzero]
    refine .inl ⟨rfl, fun m hm hidx => ?_⟩
    rw [h.count, countP_eq_zero] at hzero
    exact absurd (decide_eq_true hidx) (hzero m hm)
  rw [if_neg hzero]
  cases hfind : q.out.find? fun m => m.getSeqIdx = idx ∧ m.seq = (q.elements idx).seqIncoming with
  | none =>
    have hnone := find?_eq_none.1 hfind
    rw [rotate_none fun m hm => Bool.eq_false_iff.2 (hnone m hm)]
    refine .inl ⟨rfl, fun m hm hidx heq => hnone m hm ?_⟩
    exact decide_eq_true ⟨hidx, (h.seq_eq_iff hm hidx).2 heq⟩
  | some m =>
    obtain ⟨hm, before, after, hout, hbefore⟩ := find?_eq_some_iff_append.1 hfind
    obtain ⟨hidx, hseq⟩ := of_decide_eq_true hm
    have hmem : m ∈ q.out := mem_of_find?_eq_some hfind
    have hnum := (h.seq_eq_iff hmem hidx).1 hseq
    have hperm : q.out.Perm (m :: (after ++ before)) := by
      rw [hout]
      exact perm_middle.trans (perm_append_comm.cons m)
    have hrotate : rotate (fun m => m.getSeqIdx = idx ∧ m.seq = (q.elements idx).seqIncoming)
        q.out.length q.out = (some m, after ++ before) := by
      rw [hout]
      exact rotate_some (fun m hm => by simpa only [Bool.not_eq_true'] using hbefore m hm) hm
    rw [hrotate]
    exact .inr ⟨m, _, rfl, hidx, hnum, hperm, h.take hw hperm hidx hnum⟩

/-- Messages of one sequence with numbers from `n` on. -/
def Consecutive (idx : Int) (n : Nat) (msgs : List AmpiMsg) : Prop :=
  (∀ m ∈ msgs, m.getSeqIdx = idx) ∧ msgs.map AmpiMsg.number = range' n msgs.length

theorem consecutive_nil : Consecutive idx n [] :=
  ⟨nofun, rfl⟩

theorem Consecutive.cons (h : Consecutive idx (n + 1) msgs)
    (hidx : msg.getSeqIdx = idx) (hnum : msg.number = n) : Consecutive idx n (msg :: msgs) := by
  refine ⟨forall_mem_cons.2 ⟨hidx, h.1⟩, ?_⟩
  rw [map_cons, h.2, hnum, length_cons, range'_succ]

/-- The loop passes on all messages that have become in order. -/
theorem Waits.drain (hw : 0 < w) (h : Waits w q k) (idx : Int) (hn : q.out.length < n) :
    ∃ msgs q', drain w idx n q = some (msgs, q') ∧ Consecutive idx (k idx) msgs ∧
      q.out.Perm (msgs ++ q'.out) ∧ Waits w q' (update k idx (k idx + msgs.length)) ∧
      Settled q' (update k idx (k idx + msgs.length)) idx := by
  -- by induction on the bound: a round takes one message out of the queue
  induction n generalizing q k with
  | zero => exact absurd hn (Nat.not_lt_zero _)
  | succ n ih =>
    rcases h.getOutOfOrder hw idx with ⟨hget, hsettled⟩ | ⟨m, q1, hget, hidx, hnum, hperm, hwaits⟩
    · refine ⟨[], q, ?_, consecutive_nil, Perm.refl _, ?_, ?_⟩
      · rw [Sequence.drain, hget]
      · rw [length_nil, add_zero, update_eq_self]
        exact h
      · rw [length_nil, add_zero, update_eq_self]
        exact hsettled
    · have hlen : q1.out.length < n := by
        have hlen := hperm.length_eq
        rw [length_cons] at hlen
        omega
      obtain ⟨msgs, q', hdrain, hmsgs, hperm', hwaits', hsettled⟩ := ih hwaits hlen
      rw [update_self] at hmsgs hwaits' hsettled
      rw [update_idem, Nat.add_right_comm, Nat.add_assoc] at hwaits' hsettled
      refine ⟨m :: msgs, q', ?_, hmsgs.cons hidx hnum, hperm.trans (hperm'.cons m),
        hwaits', hsettled⟩
      rw [Sequence.drain, hget]
      simp only [hdrain, map_some]

/-! ### Delivery -/

/-- What the delivery of a message comes to: `msgs` are passed on. -/
structure Delivered (w : Nat) (q : AmpiSeqQ) (k : Expected) (msg : AmpiMsg) (msgs : List AmpiMsg)
    (q' : AmpiSeqQ) : Prop where
  consecutive : Consecutive msg.getSeqIdx (k msg.getSeqIdx) msgs
  perm : (msg :: q.out).Perm (msgs ++ q'.out)
  waits : Waits w q' (update k msg.getSeqIdx (k msg.getSeqIdx + msgs.length))
  settled : Settled q' (update k msg.getSeqIdx (k msg.getSeqIdx + msgs.length)) msg.getSeqIdx

section

variable (hw : 0 < w) (h : Waits w q k) (hsettled : Settled q k msg.getSeqIdx)

include hw h hsettled

/-- A message that is expected is passed on, with those that it sets free. -/
theorem Waits.release (hnum : msg.number = k msg.getSeqIdx) :
    ∃ msgs q', release w msg.getSeqIdx msg (1 + (q.elements msg.getSeqIdx).numOutOfOrder)
        (q.setElement msg.getSeqIdx ((q.elements msg.getSeqIdx).incSeqIncoming w)) = some
        (msgs, q') ∧
      Delivered w q k msg msgs q' := by
  have hwaits := h.advance hw hsettled
  rw [Sequence.release]
  split
  · obtain ⟨msgs, q', hdrain, hmsgs, hperm, hwaits', hsettled'⟩ :=
      hwaits.drain hw msg.getSeqIdx (Nat.lt_succ_self _)
    rw [update_self] at hmsgs hwaits' hsettled'
    rw [update_idem, Nat.add_right_comm, Nat.add_assoc] at hwaits' hsettled'
    refine ⟨msg :: msgs, q', ?_, hmsgs.cons rfl hnum, hperm.cons msg, hwaits', hsettled'⟩
    rw [hdrain]
    rfl
  · next hn =>
    -- nothing of this sequence waits
    refine ⟨[msg], _, rfl, consecutive_nil.cons rfl hnum, Perm.refl _, hwaits, fun m hm hidx => ?_⟩
    have hzero : (q.out.countP fun m => m.getSeqIdx = msg.getSeqIdx) = 0 := by
      rw [← h.count]
      omega
    exact absurd (decide_eq_true hidx) (countP_eq_zero.1 hzero m hm)

variable (hseq : msg.seq = seqOf w msg.number)
  (hlater : k msg.getSeqIdx ≤ msg.number ∧ msg.number / lap w = k msg.getSeqIdx / lap w)
  (hnew : (msg.getSeqIdx, msg.number) ∉ q.out.map fun m => (m.getSeqIdx, m.number))

include hseq hlater hnew

omit hw hsettled in
/-- A message that has to wait is put into the queue. -/
theorem Waits.stash (hcount : (q.out.countP fun m => m.getSeqIdx = msg.getSeqIdx) < 65535) :
    Waits w { q.setElement msg.getSeqIdx (q.elements msg.getSeqIdx).incNumOutOfOrder with
      out := q.out ++ [msg] } k := by
  have hconcat : ∀ j, ((q.out ++ [msg]).countP fun m => m.getSeqIdx = j) =
      (q.out.countP fun m => m.getSeqIdx = j) + if j = msg.getSeqIdx then 1 else 0 := by
    intro j
    rw [countP_append, countP_singleton]
    simp only [decide_eq_true_eq, eq_comm (a := msg.getSeqIdx)]
  refine ⟨fun j => ?_, count_update h ?_ fun j hj => ?_, fun j => ?_,
    forall_mem_concat h.seqs hseq, forall_mem_concat h.later hlater, ?_⟩
  · by_cases hj : j = msg.getSeqIdx
    · rw [hj]
      show (update q.elements _ _ _).seqIncoming = _
      rw [update_self]
      exact h.incoming _
    · show (update q.elements _ _ _).seqIncoming = _
      rw [update_of_ne hj]
      exact h.incoming j
  · show ((q.elements msg.getSeqIdx).numOutOfOrder + 1) % 2 ^ 16 = (q.out ++ [msg]).countP _
    rw [hconcat, if_pos rfl, h.count]
    omega
  · exact (hconcat j).trans (by rw [if_neg hj, add_zero])
  · have hlt := h.count_lt j
    rw [hconcat]
    split
    · next hj =>
      rw [hj]
      omega
    · exact hlt
  · rw [map_append]
    exact h.distinct.append (nodup_singleton _) (by simpa using hnew)

/-- The delivery of a message that comes in the lap of the one that is expected. -/
theorem Waits.generic (hcount : msg.number ≠ k msg.getSeqIdx →
      (q.out.countP fun m => m.getSeqIdx = msg.getSeqIdx) < 65535) :
    ∃ msgs q', generic w q msg = some (msgs, q') ∧ Delivered w q k msg msgs q' := by
  have hnonzero : msg.seq ≠ 0 := by
    rw [hseq]
    exact Nat.succ_ne_zero _
  rw [Sequence.generic, if_pos hnonzero, AmpiSeqQ.put, h.incoming, hseq]
  by_cases hnum : msg.number = k msg.getSeqIdx
  · rw [if_pos (by rw [hnum]), bind_some]
    dsimp only
    rw [if_pos (by omega)]
    exact h.release hw hsettled hnum
  · have hne : seqOf w msg.number ≠ seqOf w (k msg.getSeqIdx) :=
      fun heq => hnum (seqOf_inj hlater.2 heq)
    have hnot : ¬msg.seq < (q.elements msg.getSeqIdx).seqIncoming := by
      rw [hseq, h.incoming]
      exact Nat.not_lt_of_le (seqOf_le hlater.2 hlater.1)
    rw [if_neg hne, AmpiSeqQ.putOutOfOrder, if_neg hnot]
    have hstash := h.stash hseq hlater hnew (hcount hnum)
    refine ⟨[], _, rfl, consecutive_nil, ?_, ?_, ?_⟩
    · exact (perm_append_singleton msg q.out).symm
    · rw [length_nil, add_zero, update_eq_self]
      exact hstash
    · rw [length_nil, add_zero, update_eq_self]
      exact forall_mem_concat hsettled fun _ => hnum

end

/-! ## The system -/

/-- The sources of one destination, the messages on their way, and the destination. A source of
`outgoing` is a sequence: that of a rank, or that of the collectives, which every rank counts alike.
`sent` is not in the code. -/
structure System where
  outgoing : Int → AmpiOtherElement
  sent : Int → Nat
  net : List AmpiMsg
  queue : AmpiSeqQ
  passed : List AmpiMsg

/-- The start. -/
def System.init : System := ⟨fun _ => .init, fun _ => 0, [], .init, []⟩

/-- What has been passed on from one sequence. -/
def System.passedOf (s : System) (idx : Int) : List AmpiMsg :=
  s.passed.filter fun m => m.getSeqIdx = idx

/-- The message that is sent next, with the number of `getSeqNo`. -/
def System.nextMsg (w : Nat) (s : System) (srcRank tag : Int) : AmpiMsg :=
  let idx := AmpiMsg.getSeqIdx ⟨srcRank, tag, 0, 0⟩
  ⟨srcRank, tag, ((s.outgoing idx).incSeqOutgoing w).seqOutgoing, s.sent idx⟩

/-- What happens. -/
inductive Event
  | send (srcRank tag : Int)
  | deliver (msg : AmpiMsg) (rdma : Bool)

/-- The steps: a message is sent under a tag that `getSeqNo` numbers, or one of those on their way
is delivered. -/
inductive Step (w : Nat) : System → Event → System → Prop
  | send {s : System} {srcRank tag : Int} (htag : tag ≤ mpiBcastTag) :
      Step w s (.send srcRank tag) { s with
        outgoing := update s.outgoing (s.nextMsg w srcRank tag).getSeqIdx
          ((s.outgoing (s.nextMsg w srcRank tag).getSeqIdx).incSeqOutgoing w)
        sent := update s.sent (s.nextMsg w srcRank tag).getSeqIdx
          (s.sent (s.nextMsg w srcRank tag).getSeqIdx + 1)
        net := s.net ++ [s.nextMsg w srcRank tag] }
  | deliver {s : System} {before after msgs : List AmpiMsg} {msg : AmpiMsg} {rdma : Bool}
      {q : AmpiSeqQ}
      (hnet : s.net = before ++ msg :: after) (hrdma : rdma = true → msg.getSeqIdx = msg.srcRank)
      (h : (if rdma then genericRdma else generic) w s.queue msg = some (msgs, q)) :
      Step w s (.deliver msg rdma) { s with
        net := before ++ after
        queue := q
        passed := s.passed ++ msgs }

/-- The message comes in the lap of the one that is expected, and if it has to wait, fewer than
65535 of its sequence wait already. -/
def InLap (w : Nat) (s : System) (msg : AmpiMsg) : Prop :=
  msg.number / lap w = (s.passedOf msg.getSeqIdx).length / lap w ∧
    (msg.number ≠ (s.passedOf msg.getSeqIdx).length →
      (s.queue.out.countP fun m => m.getSeqIdx = msg.getSeqIdx) < 65535)

/-- The steps in which a message that is delivered comes in the lap of the one that is expected. -/
def LapStep (w : Nat) (s : System) (e : Event) (s' : System) : Prop :=
  Step w s e s' ∧ ∀ msg rdma, e = .deliver msg rdma → InLap w s msg

/-- The numbers of the messages of one sequence. -/
def numbersOf (idx : Int) (msgs : List AmpiMsg) : List Nat :=
  (msgs.filter fun m => m.getSeqIdx = idx).map AmpiMsg.number

section NumbersOf

variable {msgs msgs' : List AmpiMsg} {n : Nat}

theorem numbersOf_perm (h : msgs.Perm msgs') (idx : Int) :
    (numbersOf idx msgs).Perm (numbersOf idx msgs') :=
  (h.filter _).map _

theorem numbersOf_append : numbersOf idx (msgs ++ msgs') =
    numbersOf idx msgs ++ numbersOf idx msgs' := by
  rw [numbersOf, filter_append, map_append]
  rfl

theorem numbersOf_cons_self : numbersOf msg.getSeqIdx (msg :: msgs) =
    msg.number :: numbersOf msg.getSeqIdx msgs := by
  rw [numbersOf, filter_cons_of_pos (by simp), map_cons]
  rfl

theorem numbersOf_cons_of_ne (h : msg.getSeqIdx ≠ idx) :
    numbersOf idx (msg :: msgs) = numbersOf idx msgs := by
  rw [numbersOf, filter_cons_of_neg (by simpa using h)]
  rfl

theorem mem_numbersOf (hmem : msg ∈ msgs) (hidx : msg.getSeqIdx = idx) :
    msg.number ∈ numbersOf idx msgs :=
  List.mem_map_of_mem (mem_filter.2 ⟨hmem, decide_eq_true hidx⟩)

theorem numbersOf_of_consecutive (h : Consecutive idx n msgs) :
    numbersOf idx msgs = range' n msgs.length := by
  rw [numbersOf, filter_eq_self.2 fun m hm => decide_eq_true (h.1 m hm), h.2]

theorem numbersOf_of_ne {j : Int} (h : Consecutive j n msgs) (hj : idx ≠ j) :
    numbersOf idx msgs = [] := by
  rw [numbersOf, filter_eq_nil_iff.2 fun m hm => by simp [h.1 m hm, hj.symm]]
  rfl

theorem range_add (k : Nat) : List.range (n + k) = List.range n ++ range' n k := by
  rw [range_eq_range', range_eq_range', ← range'_append_1, zero_add]

end NumbersOf

/-- The invariant. -/
structure Ordered (w : Nat) (s : System) : Prop where
  outgoing : ∀ idx, incSeq w (s.outgoing idx).seqOutgoing = seqOf w (s.sent idx)
  waits : Waits w s.queue fun idx => (s.passedOf idx).length
  settled : ∀ idx, Settled s.queue (fun idx => (s.passedOf idx).length) idx
  passed : ∀ idx, (s.passedOf idx).map AmpiMsg.number = List.range (s.passedOf idx).length
  seqs : ∀ m ∈ s.net, m.seq = seqOf w m.number
  numbers : ∀ idx, (numbersOf idx (s.net ++ s.queue.out) ++
    List.range (s.passedOf idx).length).Perm (List.range (s.sent idx))

theorem ordered_init (hw : 0 < w) : Ordered w .init where
  outgoing _ := by
    have hpos : 1 < 2 ^ w := Nat.one_lt_two_pow (by omega)
    show incSeq w 0 = seqOf w 0
    rw [incSeq, seqOf, Nat.zero_mod, zero_add, Nat.mod_eq_of_lt hpos]
    rfl
  waits := waits_init
  settled := nofun
  passed _ := rfl
  seqs := nofun
  numbers _ := Perm.refl _

theorem getSeqIdx_nextMsg (s : System) (srcRank tag : Int) :
    (s.nextMsg w srcRank tag).getSeqIdx = AmpiMsg.getSeqIdx ⟨srcRank, tag, 0, 0⟩ := rfl

variable {s s' : System}

theorem Ordered.send (hw : 0 < w) (h : Ordered w s) {srcRank tag : Int}
    (hstep : Step w s (.send srcRank tag) s') : Ordered w s' := by
  cases hstep with
  | send =>
    generalize hmsg : s.nextMsg w srcRank tag = msg
    have hseq : msg.seq = seqOf w (s.sent msg.getSeqIdx) := by
      rw [← hmsg, getSeqIdx_nextMsg, ← h.outgoing]
      rfl
    have hnum : msg.number = s.sent msg.getSeqIdx := by
      rw [← hmsg]
      rfl
    refine ⟨fun idx => ?_, h.waits, h.settled, h.passed,
      forall_mem_concat h.seqs (by rw [hseq, hnum]), fun idx => ?_⟩
    · by_cases hidx : idx = msg.getSeqIdx
      · rw [hidx]
        dsimp only
        rw [update_self, update_self, ← incSeq_seqOf hw, ← h.outgoing]
        rfl
      · dsimp only
        rw [update_of_ne hidx, update_of_ne hidx]
        exact h.outgoing idx
    · have hperm : (s.net ++ [msg] ++ s.queue.out).Perm (msg :: (s.net ++ s.queue.out)) := by
        rw [append_assoc]
        exact perm_middle
      refine ((numbersOf_perm hperm idx).append_right _).trans ?_
      by_cases hidx : idx = msg.getSeqIdx
      · subst hidx
        dsimp only
        rw [update_self, range_succ, numbersOf_cons_self, hnum]
        exact ((h.numbers _).cons _).trans (perm_append_singleton _ _).symm
      · dsimp only
        rw [update_of_ne hidx, numbersOf_cons_of_ne (Ne.symm hidx)]
        exact h.numbers idx

variable {before after : List AmpiMsg}

/-- A message on its way has not been passed on, and no message that waits is the same. -/
theorem Ordered.net_new (h : Ordered w s) (hnet : s.net = before ++ msg :: after) :
    (s.passedOf msg.getSeqIdx).length ≤ msg.number ∧
      (msg.getSeqIdx, msg.number) ∉ s.queue.out.map fun m => (m.getSeqIdx, m.number) := by
  have hperm : (s.net ++ s.queue.out).Perm (msg :: (before ++ after ++ s.queue.out)) := by
    rw [hnet, append_assoc, append_assoc]
    exact perm_middle
  have hnums := (numbersOf_perm hperm msg.getSeqIdx).append_right
    (List.range (s.passedOf msg.getSeqIdx).length)
  rw [numbersOf_cons_self] at hnums
  have hnd := ((hnums.symm.trans (h.numbers msg.getSeqIdx)).nodup_iff).2 nodup_range
  rw [cons_append, nodup_cons, mem_append, not_or, mem_range, not_lt] at hnd
  refine ⟨hnd.1.2, fun hmem => hnd.1.1 ?_⟩
  obtain ⟨m, hm, heq⟩ := mem_map.1 hmem
  obtain ⟨hidx, hnum⟩ := Prod.mk.inj heq
  rw [← hnum]
  exact mem_numbersOf (mem_append_right _ hm) hidx

/-- The delivery of a message that comes in the lap of the one that is expected. -/
theorem Ordered.generic (hw : 0 < w) (h : Ordered w s)
    (hnet : s.net = before ++ msg :: after) (hlap : InLap w s msg) :
    ∃ msgs q', generic w s.queue msg = some (msgs, q') ∧
      Delivered w s.queue (fun idx => (s.passedOf idx).length) msg msgs q' := by
  obtain ⟨hge, hnew⟩ := h.net_new hnet
  exact h.waits.generic hw (h.settled _) (h.seqs msg (by rw [hnet]; simp)) ⟨hge, hlap.1⟩ hnew hlap.2

theorem Ordered.deliver (h : Ordered w s) (hnet : s.net = before ++ msg :: after)
    (hd : Delivered w s.queue (fun idx => (s.passedOf idx).length) msg msgs q') :
    Ordered w { s with net := before ++ after, queue := q', passed := s.passed ++ msgs } := by
  let s1 : System := { s with net := before ++ after, queue := q', passed := s.passed ++ msgs }
  have hself : s1.passedOf msg.getSeqIdx = s.passedOf msg.getSeqIdx ++ msgs := by
    show (s.passed ++ msgs).filter _ = _
    rw [filter_append, filter_eq_self.2 fun m hm => decide_eq_true (hd.consecutive.1 m hm)]
    rfl
  have hother : ∀ idx, idx ≠ msg.getSeqIdx → s1.passedOf idx = s.passedOf idx := by
    intro idx hidx
    have hnil : msgs.filter (fun m => m.getSeqIdx = idx) = [] :=
      filter_eq_nil_iff.2 fun m hm => by simp [hd.consecutive.1 m hm, hidx.symm]
    show (s.passed ++ msgs).filter _ = _
    rw [filter_append, hnil, append_nil]
    rfl
  have hlen : (fun idx => (s1.passedOf idx).length) =
      update (fun idx => (s.passedOf idx).length) msg.getSeqIdx
        ((s.passedOf msg.getSeqIdx).length + msgs.length) := by
    funext idx
    by_cases hidx : idx = msg.getSeqIdx
    · rw [hidx, hself, length_append, update_self]
    · rw [hother idx hidx, update_of_ne hidx]
  have hperm : (s.net ++ s.queue.out).Perm (msgs ++ (before ++ after ++ q'.out)) := by
    have hfirst : (s.net ++ s.queue.out).Perm (before ++ after ++ (msg :: s.queue.out)) := by
      rw [hnet]
      exact ((@perm_middle _ msg before after).append_right _).trans (perm_middle).symm
    refine hfirst.trans ((hd.perm.append_left _).trans ?_)
    rw [← append_assoc, ← append_assoc]
    exact perm_append_comm.append_right _
  refine ⟨h.outgoing, ?_, fun idx => ?_, fun idx => ?_, fun m hm => ?_, fun idx => ?_⟩
  · rw [hlen]
    exact hd.waits
  · rw [hlen]
    by_cases hidx : idx = msg.getSeqIdx
    · rw [hidx]
      exact hd.settled
    · intro m hm hm'
      have hmem : m ∈ msg :: s.queue.out := hd.perm.mem_iff.2 (mem_append_right _ hm)
      rcases mem_cons.1 hmem with rfl | hmem
      · exact absurd hm'.symm hidx
      · rw [update_of_ne hidx]
        exact h.settled idx m hmem hm'
  · by_cases hidx : idx = msg.getSeqIdx
    · rw [hidx, hself, map_append, h.passed, hd.consecutive.2, length_append, range_add]
    · rw [hother idx hidx]
      exact h.passed idx
  · refine h.seqs m ?_
    rw [hnet]
    exact perm_middle.mem_iff.2 (mem_cons_of_mem _ hm)
  · have hnums : (numbersOf idx msgs ++ numbersOf idx (before ++ after ++ q'.out)).Perm
        (numbersOf idx (s.net ++ s.queue.out)) := by
      rw [← numbersOf_append]
      exact (numbersOf_perm hperm idx).symm
    refine Perm.trans ?_ ((hnums.append_right _).trans (h.numbers idx))
    by_cases hidx : idx = msg.getSeqIdx
    · rw [hidx, hself, length_append, range_add, numbersOf_of_consecutive hd.consecutive]
      refine perm_append_comm.trans ?_
      rw [append_assoc]
      exact perm_append_comm
    · rw [hother idx hidx, numbersOf_of_ne hd.consecutive hidx, nil_append]

theorem Ordered.step (hw : 0 < w) (h : Ordered w s) {e : Event} (hstep : LapStep w s e s') :
    Ordered w s' := by
  obtain ⟨hstep, hlap⟩ := hstep
  cases hstep with
  | send htag => exact h.send hw (.send htag)
  | @deliver before after msgs msg rdma q hnet hrdma hgeneric =>
    obtain ⟨msgs', q', hgeneric', hd⟩ := h.generic hw hnet (hlap msg rdma rfl)
    have hsame : (if rdma then genericRdma else Sequence.generic) w s.queue msg =
        Sequence.generic w s.queue msg := by
      cases hkind : rdma with
      | false => rfl
      | true => exact genericRdma_eq w s.queue (hrdma hkind)
    cases (hsame.symm.trans hgeneric).symm.trans hgeneric'
    exact h.deliver hnet hd

theorem ordered_of_run (hw : 0 < w) {es : List Event} (hrun : Run (LapStep w) .init es s) :
    Ordered w s :=
  hrun.invariant (ordered_init hw) fun _ _ _ h hstep => h.step hw hstep

/-! ## Order of sending -/

/-- When no message of a sequence is on its way, all have been passed on. -/
theorem Ordered.all_passed (h : Ordered w s) (hnet : ∀ m ∈ s.net, m.getSeqIdx ≠ idx) :
    (s.passedOf idx).length = s.sent idx := by
  have hnums := h.numbers idx
  have hnone : numbersOf idx s.net = [] := by
    rw [numbersOf, filter_eq_nil_iff.2 fun m hm => by simpa using hnet m hm]
    rfl
  rw [numbersOf_append, hnone, nil_append] at hnums
  have hle := hnums.length_eq
  rw [length_append, length_range, length_range] at hle
  by_contra hne
  -- the message that is expected would wait
  have hmem : (s.passedOf idx).length ∈ List.range (s.sent idx) := mem_range.2 (by omega)
  rcases mem_append.1 (hnums.mem_iff.2 hmem) with hmem | hmem
  · obtain ⟨m, hm, hnum⟩ := mem_map.1 hmem
    obtain ⟨hm, hidx⟩ := mem_filter.1 hm
    exact h.settled idx m hm (of_decide_eq_true hidx) hnum
  · exact absurd (mem_range.1 hmem) (lt_irrefl _)

/-- As long as every message comes in the lap of the one that is expected, the messages of every
sequence are passed on once and in the order of sending, all of them when none is on its way, and no
delivery aborts. -/
theorem passed_in_send_order {w : Nat} (hw : 8 ≤ w) {es : List Event} {s : System}
    (hrun : Run (LapStep w) .init es s) :
    (∀ idx, (s.passedOf idx).map AmpiMsg.number = List.range (s.passedOf idx).length) ∧
    (∀ idx, (∀ m ∈ s.net, m.getSeqIdx ≠ idx) → (s.passedOf idx).length = s.sent idx) ∧
    ∀ msg ∈ s.net, InLap w s msg → generic w s.queue msg ≠ none ∧
      (msg.getSeqIdx = msg.srcRank → genericRdma w s.queue msg ≠ none) := by
  have hpos : 0 < w := by omega
  have h := ordered_of_run hpos hrun
  refine ⟨h.passed, fun idx => h.all_passed, fun msg hmsg hlap => ?_⟩
  obtain ⟨before, after, hnet⟩ := append_of_mem hmsg
  obtain ⟨msgs, q', hgeneric, -⟩ := h.generic hpos hnet hlap
  refine ⟨hgeneric ▸ some_ne_none _, fun hidx => ?_⟩
  rw [genericRdma_eq w s.queue hidx, hgeneric]
  exact some_ne_none _

/-! ### Runs -/

/-- A message from rank 0 is sent. -/
theorem exists_send (s : System) : ∃ s' msg, LapStep w s (.send 0 0) s' ∧ msg.getSeqIdx = 0 ∧
    msg.number = s.sent 0 ∧ s'.net = s.net ++ [msg] ∧ s'.sent 0 = s.sent 0 + 1 ∧
    s'.passed = s.passed := by
  have hidx : (s.nextMsg w 0 0).getSeqIdx = 0 := rfl
  refine ⟨_, s.nextMsg w 0 0, ⟨.send (by decide), nofun⟩, hidx, rfl, rfl, ?_, rfl⟩
  dsimp only
  rw [hidx, update_self]

/-- A message is delivered that comes in the lap of the one that is expected. -/
theorem Ordered.exists_deliver (hw : 0 < w) (h : Ordered w s)
    (hnet : s.net = before ++ msg :: after) (hlap : InLap w s msg) :
    ∃ s', LapStep w s (.deliver msg false) s' ∧ s'.net = before ++ after ∧ s'.sent = s.sent := by
  obtain ⟨msgs, q', hgeneric, -⟩ := h.generic hw hnet hlap
  refine ⟨_, ⟨.deliver hnet (nofun) hgeneric, fun msg' rdma he => ?_⟩, rfl, rfl⟩
  obtain ⟨rfl, -⟩ := Event.deliver.inj he
  exact hlap

/-- Any number of messages can be sent and delivered one after the other. -/
theorem exists_run (hw : 0 < w) (n : Nat) : ∃ es s,
    Run (LapStep w) .init es s ∧ s.net = [] ∧ s.sent 0 = n := by
  induction n with
  | zero => exact ⟨[], .init, .nil, rfl, rfl⟩
  | succ n ih =>
    obtain ⟨es, s, hrun, hnet, hsent⟩ := ih
    have hall : (s.passedOf 0).length = s.sent 0 :=
      (ordered_of_run hw hrun).all_passed (by rw [hnet]; simp)
    obtain ⟨s1, msg, hsend, hidx, hnum, hnet1, hsent1, hpassed1⟩ := exists_send (w := w) s
    rw [hnet, nil_append] at hnet1
    have hrun1 := hrun.snoc hsend
    have hexpected : msg.number = (s1.passedOf msg.getSeqIdx).length := by
      rw [hidx, System.passedOf, hpassed1, hnum, ← hall]
      rfl
    obtain ⟨s2, hdeliver, hnet2, hsent2⟩ := (ordered_of_run hw hrun1).exists_deliver hw
      (show s1.net = [] ++ msg :: [] from hnet1)
        ⟨by rw [← hexpected], fun hne => absurd hexpected hne⟩
    exact ⟨_, s2, hrun1.snoc hdeliver, hnet2, by rw [hsent2, hsent1, hsent]⟩

/-- The second of two messages overtakes the first one. -/
theorem passed_in_send_order_overtaken : ∃ (m m' : AmpiMsg) (s : System),
    Run (LapStep 8) .init [.send 0 0, .send 0 0, .deliver m false, .deliver m' false] s ∧
      m.number = 1 ∧ m'.number = 0 ∧ (s.passedOf 0).map AmpiMsg.number = [0, 1] := by
  have hlap : ∀ {s : System} {m : AmpiMsg}, InLap 8 s m → ∀ msg rdma,
    .deliver m false = Event.deliver msg rdma →
      InLap 8 s msg := by
    rintro s m h msg rdma ⟨⟩
    exact h
  have hrun : Run (LapStep 8) .init
      [.send 0 0, .send 0 0, .deliver ⟨0, 0, 2, 1⟩ false, .deliver ⟨0, 0, 1, 0⟩ false] _ :=
    (((Run.single ⟨.send (by decide), nofun⟩).snoc ⟨.send (by decide), nofun⟩).snoc
      ⟨.deliver (show _ = [_] ++ _ :: [] from rfl) nofun rfl, hlap ⟨rfl, fun _ => by decide⟩⟩).snoc
      ⟨.deliver (show _ = [] ++ _ :: [] from rfl) nofun rfl, hlap ⟨rfl, fun h => absurd rfl h⟩⟩
  exact ⟨_, _, _, hrun, rfl, rfl, (passed_in_send_order (by decide) hrun).1 0⟩

/-- With a counter of 16 bits, the first message of the second lap overtakes the last one of the
first lap: the delivery aborts. -/
theorem next_lap_aborts : ∃ (es : List Event) (s : System) (m msg : AmpiMsg),
    Run (Step 16) .init es s ∧ s.net = [m, msg] ∧ (s.passedOf 0).length = m.number ∧
      msg.number = m.number + 1 ∧ generic 16 s.queue msg = none := by
  obtain ⟨es, s, hrun, hnet, hsent⟩ := exists_run (w := 16) (by decide) 65534
  have hall : (s.passedOf 0).length = s.sent 0 :=
    (ordered_of_run (by decide) hrun).all_passed (by rw [hnet]; simp)
  obtain ⟨s₁, m1, hsend1, hidx1, hnumber1, hnet₁, hsent₁, hpassed₁⟩ := exists_send (w := 16) s
  obtain ⟨s₂, m2, hsend2, hidx2, hnumber2, hnet₂, hsent₂, hpassed2⟩ := exists_send (w := 16) s₁
  rw [hnet₁, hnet] at hnet₂
  have hrun2 := (hrun.snoc hsend1).snoc hsend2
  have hordered := ordered_of_run (by decide) hrun2
  have hpassed : (s₂.passedOf 0).length = 65534 := by
    rw [System.passedOf, hpassed2, hpassed₁]
    exact hall.trans hsent
  have hseq : m2.seq = 1 := by
    rw [hordered.seqs m2 (by rw [hnet₂]; simp), hnumber2, hsent₁, hsent]
    rfl
  have hincoming : (s₂.queue.elements 0).seqIncoming = 65535 := by
    rw [hordered.waits.incoming, hpassed]
    rfl
  refine ⟨_, s₂, m1, m2, hrun2.mono fun _ _ _ h => h.1, hnet₂, ?_, ?_, ?_⟩
  · rw [hpassed, hnumber1, hsent]
  · rw [hnumber2, hsent₁, hnumber1]
  · rw [generic, if_pos (by rw [hseq]; decide), hidx2, AmpiSeqQ.put, hincoming, hseq,
      if_neg (by decide), AmpiSeqQ.putOutOfOrder, hincoming, hseq, if_pos (by decide)]
    rfl

end CharmRuntime.Ampi.Sequence
