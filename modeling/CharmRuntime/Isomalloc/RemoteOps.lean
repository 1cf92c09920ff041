import CharmRuntime.Isomalloc.FreeSlots
import CharmRuntime.Lib.Run

/-!
# Slot operations on all processors

`all_slotOP` cuts a range of slots at the processor boundaries. `one_slotOP` applies the operation
to the part of the calling processor and sends a message to the others, whose handler applies an
operation to the slot set there. The state of the machine is, for each processor, the list of the
calls of `grab_slots` and `free_slots` made on its slot set, and the messages in flight, which may
be handled in any order (`Machine.Handle`).

`one_slotOP` sets the handler of `freeOP` whatever the operation is. So a range is grabbed as
requested if and only if it lies on the calling processor (`allSlotOP_iff`).
-/

set_option autoImplicit false

namespace CharmRuntime.Isomalloc

open Lib Function List

/-- `slot2pe`. -/
def slot2pe (numslots slot : Int) : Int := slot.tdiv numslots

/-- `pe2slot`. -/
def pe2slot (numslots pe : Int) : Int := pe * numslots

/-- The registered handlers `grab_remote` and `free_remote`. -/
inductive Handler where
  | grabRemote
  | freeRemote
  deriving DecidableEq

/-- The operations `grabOP` and `freeOP`. -/
inductive SlotOP where
  | grabOP
  | freeOP
  deriving DecidableEq

/-- `op->local`. -/
def SlotOP.local : SlotOP → Int → Int → SlotOp
  | grabOP => .grab
  | freeOP => .free

/-- `op->remote`. -/
def SlotOP.remote : SlotOP → Handler
  | grabOP => .grabRemote
  | freeOP => .freeRemote

/-- `slotmsg` with the processor it is sent to and its handler. -/
structure SlotMsg where
  dest : Int
  handler : Handler
  pe : Int
  slot : Int
  nslots : Int

/-- What the handler calls: `grab_remote` and `free_remote`. -/
def SlotMsg.call (m : SlotMsg) : SlotOp :=
  match m.handler with
  | .grabRemote => .grab m.slot m.nslots
  | .freeRemote => .free m.slot m.nslots

/-- The calls made on the slot set of each processor, and the messages in flight. -/
structure Machine where
  calls : Int → List SlotOp
  msgs : List SlotMsg

/-- One more call on the slot set of a processor. -/
def Machine.call (m : Machine) (pe : Int) (c : SlotOp) : Machine :=
  { m with calls := update m.calls pe (m.calls pe ++ [c]) }

/-- `one_slotOP` on processor `myPe`. -/
def oneSlotOP (numslots myPe : Int) (op : SlotOP) (pe s n : Int) (m : Machine) : Machine :=
  let p_s := pe2slot numslots pe
  let p_e := pe2slot numslots (pe + 1)
  let e := s + n
  let s := if s < p_s then p_s else s
  let e := if e > p_e then p_e else e
  let n := e - s
  if pe = myPe then m.call pe (op.local s n)
  else { m with msgs := m.msgs ++ [⟨pe, SlotOP.freeOP.remote, myPe, s, n⟩] }

/-- `all_slotOP` on processor `myPe`. -/
def allSlotOP (numslots myPe : Int) (op : SlotOP) (s n : Int) (m : Machine) : Machine :=
  let spe := slot2pe numslots s
  let epe := slot2pe numslots (s + n - 1)
  (List.range (epe - spe + 1).toNat).foldl
    (fun m (i : Nat) => oneSlotOP numslots myPe op (spe + i) s n m) m

/-- One message is handled. -/
inductive Machine.Handle : Machine → SlotMsg → Machine → Prop
  | deliver {calls : Int → List SlotOp} {l₁ l₂ : List SlotMsg} {m : SlotMsg} :
    Handle ⟨calls, l₁ ++ m :: l₂⟩ m (Machine.call ⟨calls, l₁ ++ l₂⟩ m.dest m.call)

/-- The operation on the part of `[s, s + n)` that is on processor `p`. -/
def part (numslots : Int) (op : SlotOP) (s n p : Int) : SlotOp :=
  op.local (max s (pe2slot numslots p))
    (min (s + n) (pe2slot numslots (p + 1)) - max s (pe2slot numslots p))

/-- The calls that the operation on `[s, s + n)` should make on processor `p`: one, on the part of
the range that is there, if there is one. -/
def requested (numslots : Int) (op : SlotOP) (s n p : Int) : List SlotOp :=
  if max s (pe2slot numslots p) < min (s + n) (pe2slot numslots (p + 1)) then
    [part numslots op s n p] else []

/-- The operation on `[s, s + n)` has been applied once to the slots of each processor in the range,
and no other slot is free that was not, or the other way round. -/
structure Machine.Applied (numslots : Int) (op : SlotOP) (s n : Int) (m m' : Machine) : Prop where
  calls : ∀ p, m'.calls p = m.calls p ++ requested numslots op s n p
  frame : ∀ p x (F : Set Int), x ∉ slots s n ∩ slots (pe2slot numslots p) numslots →
    (x ∈ (m'.calls p).foldl SlotOp.apply F ↔ x ∈ (m.calls p).foldl SlotOp.apply F)

/-! ## The messages in flight -/

/-- The calls that the messages in flight to a processor will make. -/
def Machine.pending (m : Machine) (p : Int) : List SlotOp :=
  (m.msgs.filter fun msg => msg.dest = p).map SlotMsg.call

@[simp] theorem Machine.calls_call_self (m : Machine) (p : Int) (c : SlotOp) :
    (m.call p c).calls p = m.calls p ++ [c] :=
  update_self _ _ _

variable {p : Int} {m m' : Machine} {total : Int → List SlotOp}

theorem Machine.calls_call_of_ne (m : Machine) {p' : Int} (hne : p' ≠ p) (c : SlotOp) :
    (m.call p c).calls p' = m.calls p' :=
  update_of_ne hne _ _

@[simp] theorem Machine.pending_call (m : Machine) (p p' : Int) (c : SlotOp) :
    (m.call p c).pending p' = m.pending p' :=
  rfl

/-- The calls on a processor with those in flight to it, of which there is at most one. -/
def Machine.Awaits (m : Machine) (total : Int → List SlotOp) : Prop :=
  ∀ p, m.calls p ++ m.pending p = total p ∧ (m.pending p).length ≤ 1

theorem Machine.Awaits.congr {total' : Int → List SlotOp} (h : m.Awaits total)
    (heq : ∀ p, total p = total' p) : m.Awaits total' :=
  fun p => ⟨(h p).1.trans (heq p), (h p).2⟩

/-- Handling a message does not change what a processor awaits. -/
theorem Machine.Awaits.handle {msg : SlotMsg}
    (h : m.Awaits total) (hstep : Machine.Handle m msg m') : m'.Awaits total := by
  obtain ⟨⟩ := hstep
  rename_i calls l1 l2
  intro p
  obtain ⟨htotal, hlen⟩ := h p
  simp only [Machine.pending, Machine.call, filter_append] at htotal hlen ⊢
  by_cases hp : msg.dest = p
  · -- it was the only message in flight to `p`
    rw [filter_cons_of_pos (by simpa using hp)] at htotal hlen
    have hnil : l1.filter (fun m => m.dest = p) = [] ∧ l2.filter (fun m => m.dest = p) = [] := by
      simp only [List.length_map, length_append, length_cons] at hlen
      exact ⟨length_eq_zero_iff.1 (by omega), length_eq_zero_iff.1 (by omega)⟩
    rw [hnil.1, hnil.2] at htotal ⊢
    subst hp
    exact ⟨by simpa using htotal, by simp⟩
  · rw [filter_cons_of_neg (by simpa using hp)] at htotal hlen
    rw [update_of_ne (Ne.symm hp)]
    exact ⟨htotal, hlen⟩

/-- What is awaited when no message is in flight has been called. -/
theorem Machine.Awaits.calls_eq (h : m.Awaits total)
    (hm : m.msgs = []) (p : Int) : m.calls p = total p := by
  have := (h p).1
  rwa [Machine.pending, hm, filter_nil, map_nil, append_nil] at this

/-- All messages can be handled. -/
theorem Machine.exists_quiet (m : Machine) : ∃ es m',
    Run Machine.Handle m es m' ∧ m'.msgs = [] := by
  obtain ⟨calls, msgs⟩ := m
  induction msgs generalizing calls with
  | nil => exact ⟨[], _, .nil, rfl⟩
  | cons msg msgs ih =>
    have hstep : Machine.Handle ⟨calls, [] ++ msg :: msgs⟩ msg _ := .deliver
    obtain ⟨es, m', hrun, hm'⟩ := ih (update calls msg.dest (calls msg.dest ++ [msg.call]))
    exact ⟨msg :: es, m', (Run.single hstep).append hrun, hm'⟩

/-! ## The loop over the processors -/

/-- The operation that reaches processor `p`. -/
def reaching (myPe : Int) (op : SlotOP) (p : Int) : SlotOP := if p = myPe then op else .freeOP

section Loop

variable {numslots myPe s n pe : Int} {op : SlotOP} {m : Machine} {total : Int → List SlotOp}

theorem clip_low (s p : Int) : (if s < p then p else s) = max s p := by
  split <;> omega

theorem clip_high (e p : Int) : (if e > p then p else e) = min e p := by
  split <;> omega

/-- `one_slotOP` makes one call or sends one message. -/
theorem Machine.Awaits.oneSlotOP (h : m.Awaits total) (hnone : m.pending pe = []) :
    (oneSlotOP numslots myPe op pe s n m).Awaits (update total pe
      (total pe ++ [part numslots (reaching myPe op pe) s n pe])) := by
  intro p
  obtain ⟨htotal, hlen⟩ := h p
  rw [Isomalloc.oneSlotOP, clip_low, clip_high, reaching, part]
  by_cases hme : pe = myPe
  · rw [if_pos hme, if_pos hme]
    by_cases hp : p = pe
    · subst hp
      rw [hnone, append_nil] at htotal
      rw [Machine.calls_call_self, Machine.pending_call, hnone, update_self, htotal]
      exact ⟨append_nil _, Nat.zero_le _⟩
    · rw [Machine.calls_call_of_ne _ hp, Machine.pending_call, update_of_ne hp]
      exact ⟨htotal, hlen⟩
  · rw [if_neg hme, if_neg hme]
    simp only [Machine.pending, filter_append, map_append] at htotal hlen hnone ⊢
    by_cases hp : p = pe
    · subst hp
      rw [hnone, append_nil] at htotal
      rw [hnone, update_self, nil_append, filter_cons_of_pos (by simp), htotal]
      exact ⟨rfl, le_rfl⟩
    · rw [update_of_ne hp, filter_cons_of_neg (by simpa using Ne.symm hp)]
      simpa using ⟨htotal, by simpa using hlen⟩

theorem Machine.dest_lt_of_oneSlotOP {k : Int} (h : ∀ msg ∈ m.msgs, msg.dest < k)
    (hpe : pe < k) : ∀ msg ∈ (oneSlotOP numslots myPe op pe s n m).msgs, msg.dest < k := by
  rw [Isomalloc.oneSlotOP]
  split
  · exact h
  · exact forall_mem_concat h hpe

theorem Machine.pending_eq_nil (h : ∀ msg ∈ m.msgs, msg.dest < p) : m.pending p = [] := by
  rw [Machine.pending, filter_eq_nil_iff.2, map_nil]
  intro msg hmsg
  have := h msg hmsg
  simp only [decide_eq_true_eq]
  omega

variable (hN : 0 < numslots) (hs : 0 ≤ s) (hn : 1 ≤ n)

include hN hs hn

/-- The range meets the processors of the loop. -/
theorem lt_of_mem_loop (h1 : slot2pe numslots s ≤ p) (h2 : p ≤ slot2pe numslots (s + n - 1)) :
    max s (pe2slot numslots p) < min (s + n) (pe2slot numslots (p + 1)) := by
  rw [slot2pe, Int.tdiv_eq_ediv_of_nonneg hs] at h1
  rw [slot2pe, Int.tdiv_eq_ediv_of_nonneg (by omega), Int.le_ediv_iff_mul_le hN] at h2
  have h1' : s < (p + 1) * numslots := (Int.ediv_lt_iff_lt_mul hN).1 (by omega)
  have h3 : (p + 1) * numslots = p * numslots + numslots := by rw [Int.add_mul, Int.one_mul]
  simp only [pe2slot]
  omega

/-- The range does not meet the other processors. -/
theorem le_of_not_mem_loop (h : p < slot2pe numslots s ∨ slot2pe numslots (s + n - 1) < p) :
    min (s + n) (pe2slot numslots (p + 1)) ≤ max s (pe2slot numslots p) := by
  rw [slot2pe, slot2pe, Int.tdiv_eq_ediv_of_nonneg hs,
    Int.tdiv_eq_ediv_of_nonneg (show 0 ≤ s + n - 1 by omega)] at h
  simp only [pe2slot]
  rcases h with h | h
  · have : (p + 1) * numslots ≤ s := (Int.le_ediv_iff_mul_le hN).1 h
    omega
  · have : s + n - 1 < p * numslots := (Int.ediv_lt_iff_lt_mul hN).1 h
    omega

variable (hm : m.msgs = [])

include hm

omit hN hs hn in
/-- The first `k` iterations of the loop from processor `spe` on. -/
theorem loop_awaits (spe : Int) (k : Nat) :
    let m' := (List.range k).foldl (fun m (i : Nat) => oneSlotOP numslots myPe op (spe + i) s n m) m
    (m'.Awaits fun p => m.calls p ++
      if spe ≤ p ∧ p < spe + k then [part numslots (reaching myPe op p) s n p] else []) ∧
    ∀ msg ∈ m'.msgs, msg.dest < spe + k := by
  induction k with
  | zero =>
    refine ⟨fun p => ?_, by simp [hm]⟩
    simp [Machine.pending, hm]
  | succ k ih =>
    obtain ⟨hawaits, hdest⟩ := ih
    simp only [range_succ, foldl_append, foldl_cons, foldl_nil]
    constructor
    · -- only processor `spe + k` gains a call
      apply (hawaits.oneSlotOP (Machine.pending_eq_nil hdest)).congr
      intro p
      by_cases hp : p = spe + k
      · subst hp
        rw [update_self, if_neg (by omega), if_pos (by omega), append_nil]
      · have hiff : spe ≤ p ∧ p < spe + (k + 1 : Nat) ↔ spe ≤ p ∧ p < spe + k := by omega
        rw [update_of_ne hp]
        simp only [hiff]
    · apply Machine.dest_lt_of_oneSlotOP
      · intro msg hmsg
        have := hdest msg hmsg
        omega
      · omega

/-- After the loop every processor awaits one call on its part of the range. -/
theorem allSlotOP_awaits : (allSlotOP numslots myPe op s n m).Awaits fun p =>
      m.calls p ++ requested numslots (reaching myPe op p) s n p := by
  apply (loop_awaits hm (slot2pe numslots s) _).1.congr
  intro p
  rw [requested]
  by_cases hp : slot2pe numslots s ≤ p ∧ p ≤ slot2pe numslots (s + n - 1)
  · rw [if_pos (lt_of_mem_loop hN hs hn hp.1 hp.2), if_pos (by omega)]
  · have hempty := le_of_not_mem_loop hN hs hn (p := p) (by omega)
    rw [if_neg (by omega), if_neg (by omega)]

/-- What has been called when all messages are handled, in whatever order. -/
theorem calls_allSlotOP {es : List SlotMsg}
    (hrun : Run Machine.Handle (allSlotOP numslots myPe op s n m) es m') (hquiet : m'.msgs = [])
    (p : Int) : m'.calls p = m.calls p ++ requested numslots (reaching myPe op p) s n p := by
  have hend : m'.Awaits fun p => m.calls p ++ requested numslots (reaching myPe op p) s n p := by
    apply hrun.invariant (allSlotOP_awaits hN hs hn hm)
    intro _ _ _ h hstep
    exact h.handle hstep
  exact hend.calls_eq hquiet p

end Loop

/-! ## Which operations are applied -/

section Applied

variable {numslots s n : Int} {op op' : SlotOP} {m m' : Machine}

/-- The operations change only the slots of their range. -/
theorem SlotOP.mem_apply_local {lo k x : Int} {F : Set Int} (hx : x ∉ slots lo k) :
    x ∈ (op.local lo k).apply F ↔ x ∈ F := by
  cases op with
  | grabOP => exact ⟨fun h => h.1, fun h => ⟨h, hx⟩⟩
  | freeOP => exact ⟨fun h => h.resolve_right hx, .inl⟩

/-- The calls are enough: what they do not touch stays as it is. -/
theorem Machine.applied_iff : Machine.Applied numslots op s n m m' ↔
    ∀ p, m'.calls p = m.calls p ++ requested numslots op s n p := by
  refine ⟨Machine.Applied.calls, fun h => ⟨h, fun p x F hx => ?_⟩⟩
  rw [h p, foldl_append, requested]
  split
  · apply SlotOP.mem_apply_local
    rintro ⟨hlo, hhi⟩
    have hsplit : pe2slot numslots (p + 1) = pe2slot numslots p + numslots := by
      simp only [pe2slot, Int.add_mul, Int.one_mul]
    exact hx ⟨⟨by omega, by omega⟩, ⟨by omega, by omega⟩⟩
  · rfl

section

variable (hN : 0 < numslots) (hs : 0 ≤ s) (hn : 1 ≤ n)

include hN hs hn

theorem requested_eq_nil (h : p < slot2pe numslots s ∨ slot2pe numslots (s + n - 1) < p) :
    requested numslots op s n p = [] := by
  have hempty := le_of_not_mem_loop hN hs hn h
  rw [requested, if_neg (by omega)]

omit hN hs hn in
theorem SlotOP.local_injective {a b : Int} (h : op.local a b = op'.local a b) : op = op' := by
  cases op <;> cases op' <;> first | rfl | cases h

/-- On a processor of the loop the operation can be read off the call. -/
theorem eq_of_requested_eq (h1 : slot2pe numslots s ≤ p) (h2 : p ≤ slot2pe numslots (s + n - 1))
    (h : requested numslots op s n p = requested numslots op' s n p) : op = op' := by
  have hlt := lt_of_mem_loop hN hs hn h1 h2
  rw [requested, requested, if_pos hlt, if_pos hlt] at h
  exact SlotOP.local_injective (singleton_inj.1 h)

theorem slot2pe_mono : slot2pe numslots s ≤ slot2pe numslots (s + n - 1) := by
  rw [slot2pe, slot2pe, Int.tdiv_eq_ediv_of_nonneg hs,
    Int.tdiv_eq_ediv_of_nonneg (show 0 ≤ s + n - 1 by omega)]
  exact Int.ediv_le_ediv hN (by omega)

end

/-- The requested operation is applied, for every order in which the messages are handled, exactly
if it is `freeOP`, or the range lies on the calling processor. -/
theorem allSlotOP_iff (hN : 0 < numslots) (hs : 0 ≤ s) (hn : 1 ≤ n) (myPe : Int) (op : SlotOP)
    (hm : m.msgs = []) {es : List SlotMsg}
    (hrun : Run Machine.Handle (allSlotOP numslots myPe op s n m) es m') (hquiet : m'.msgs = []) :
    Machine.Applied numslots op s n m m' ↔
      op = .freeOP ∨ slot2pe numslots s = myPe ∧ slot2pe numslots (s + n - 1) = myPe := by
  have hcalls := calls_allSlotOP hN hs hn hm hrun hquiet
  have hle := slot2pe_mono hN hs hn
  rw [Machine.applied_iff]
  constructor
  · intro h
    by_contra hnot
    push Not at hnot
    obtain ⟨hop, hpe⟩ := hnot
    -- a processor of the loop that is not the calling one gets the other operation
    obtain ⟨p, h1, h2, hp⟩ : ∃ p, slot2pe numslots s ≤ p ∧ p ≤ slot2pe numslots (s + n - 1) ∧
        p ≠ myPe := by
      by_cases hfirst : slot2pe numslots s = myPe
      · exact ⟨_, hle, le_rfl, hpe hfirst⟩
      · exact ⟨_, le_rfl, hle, hfirst⟩
    have heq := append_cancel_left ((h p).symm.trans (hcalls p))
    rw [reaching, if_neg hp] at heq
    exact hop (eq_of_requested_eq hN hs hn h1 h2 heq)
  · rintro h p
    rw [hcalls p, reaching]
    split
    · rfl
    · rename_i hp
      rcases h with rfl | ⟨hfirst, hlast⟩
      · rfl
      · have hout : p < slot2pe numslots s ∨ slot2pe numslots (s + n - 1) < p := by omega
        rw [requested_eq_nil hN hs hn hout, requested_eq_nil hN hs hn hout]

end Applied

/-- Slots 2 to 5 of two processors of four slots each are freed on processor 0. -/
theorem allSlotOP_iff_free_two_pes : ∃ es m',
    Run Machine.Handle (allSlotOP 4 0 .freeOP 2 4 ⟨fun _ => [], []⟩) es m' ∧ m'.msgs = [] ∧
      Machine.Applied 4 .freeOP 2 4 ⟨fun _ => [], []⟩ m' := by
  obtain ⟨es, m', hrun, hquiet⟩ :=
    Machine.exists_quiet (allSlotOP 4 0 .freeOP 2 4 ⟨fun _ => [], []⟩)
  exact ⟨es, m', hrun, hquiet,
    (allSlotOP_iff (by decide) (by decide) (by decide) 0 _ rfl hrun hquiet).2 (.inl rfl)⟩

/-- Slots 2 to 5 of two processors of four slots each are grabbed on processor 0, as after a
restart: processor 1 frees its slots 4 and 5. -/
theorem allSlotOP_frees_remote_slots : ∃ es m',
    Run Machine.Handle (allSlotOP 4 0 .grabOP 2 4 ⟨fun _ => [], []⟩) es m' ∧ m'.msgs = [] ∧
      m'.calls 0 = [.grab 2 2] ∧ m'.calls 1 = [.free 4 2] ∧
      ¬ Machine.Applied 4 .grabOP 2 4 ⟨fun _ => [], []⟩ m' := by
  obtain ⟨es, m', hrun, hquiet⟩ :=
    Machine.exists_quiet (allSlotOP 4 0 .grabOP 2 4 ⟨fun _ => [], []⟩)
  have hcalls := calls_allSlotOP (by decide) (by decide) (by decide) rfl hrun hquiet
  have h1 : m'.calls 1 = [.free 4 2] := hcalls 1
  refine ⟨es, m', hrun, hquiet, hcalls 0, h1, fun h => ?_⟩
  have hgrab : m'.calls 1 = [.grab 4 2] := h.calls 1
  rw [h1] at hgrab
  cases hgrab

end CharmRuntime.Isomalloc
