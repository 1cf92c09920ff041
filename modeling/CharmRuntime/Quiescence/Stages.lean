import CharmRuntime.Quiescence.State

/-!
# The stages of the detection

Between a processor and its parent at most one thing is outstanding: a message of the parent that
the processor has not handled, its own work in stage 1 or 2, or its report. The phase of such a
message follows from the stage of the parent, and a processor that is not in stage 0 has counted the
reports that are not outstanding (`Staged`). All that handling a message can do is said once
(`Reaction`). Hence a processor can tell the messages apart by its own stage, and no assertion fails
(`detection_never_fails`).
-/

set_option autoImplicit false

namespace CharmRuntime.Quiescence

open Lib List Option Wire Function

variable {Cb : Type} {t : SpanTree} {w w' : System Cb} {p q : Nat}

/-! ## The invariant -/

/-- The message goes between the processor and its parent. -/
def Wire.onEdge (q : Nat) (wire : Wire Cb) : Bool :=
  wire.origin = .parent ∧ wire.dest = q ∨ wire.origin = .child q

/-- The message goes from the processor to itself. -/
def Wire.isSelf (p : Nat) (wire : Wire Cb) : Bool := wire.origin = .self ∧ wire.dest = p

/-- The message asks for the counts. -/
def Wire.asks (q : Nat) (wire : Wire Cb) : Bool :=
  wire.origin = .parent ∧ wire.dest = q ∧ wire.msg.phase = 0

/-- The message is a report. -/
def Wire.Reports (wire : Wire Cb) : Prop := (∃ q, wire.origin = .child q) ∨ wire.origin = .self

/-- The callback that a message of `CkStartQD` brings to processor 0. -/
def Wire.request (wire : Wire Cb) : Option Cb :=
  if wire.origin = .start then some wire.msg.cb else none

variable {wire : Wire Cb} {busy : Nat → Bool}

theorem Wire.onEdge_of_child (h : wire.origin = .child q) (r : Nat) :
    wire.onEdge r = decide (r = q) := by
  rw [onEdge, decide_eq_decide, h]
  simp [eq_comm]

theorem Wire.isSelf_of_child (h : wire.origin = .child q) (r : Nat) : wire.isSelf r = false := by
  rw [isSelf, decide_eq_false_iff_not, h]
  simp

theorem Wire.onEdge_of_self (h : wire.origin = .self) (r : Nat) : wire.onEdge r = false := by
  rw [onEdge, decide_eq_false_iff_not, h]
  simp

theorem Wire.isSelf_of_self (h : wire.origin = .self) : wire.isSelf wire.dest = true := by
  rw [isSelf, decide_eq_true_iff]
  exact ⟨h, rfl⟩

/-- What is outstanding between a processor and its parent. -/
def System.load (w : System Cb) (q : Nat) : Nat :=
  w.qd.countP (onEdge q) + if (w.pes q).stage = 0 then 0 else 1

/-- The messages that a processor has sent to itself. -/
def System.selfLoad (w : System Cb) (p : Nat) : Nat := w.qd.countP (isSelf p)

/-- The phase of a message follows from the stage of the processor that gathers the reports. -/
def Lawful (t : SpanTree) (w : System Cb) (wire : Wire Cb) : Prop :=
  match wire.origin with
  | .start => wire.dest = 0 ∧ wire.msg.phase = 0
  | .parent => wire.dest ≠ 0 ∧ wire.dest < t.size ∧
      wire.msg.phase + 1 = (w.pes (t.parent wire.dest)).stage
  | .child q => q ≠ 0 ∧ q < t.size ∧ wire.dest = t.parent q ∧ wire.msg.phase ≠ 0 ∧
      wire.msg.phase = (w.pes wire.dest).stage
  | .self => wire.dest < t.size ∧ wire.msg.phase ≠ 0 ∧ wire.msg.phase = (w.pes wire.dest).stage

/-- The invariant of the stages. -/
structure Staged (t : SpanTree) (w : System Cb) : Prop where
  wires : ∀ wire ∈ w.qd, Lawful t w wire
  stage_le : ∀ p, (w.pes p).stage ≤ 2
  stages : ∀ q, q ≠ 0 → q < t.size → (w.pes q).stage ≠ 0 →
    (w.pes q).stage = (w.pes (t.parent q)).stage
  load_le : ∀ q, q ≠ 0 → q < t.size → w.load q ≤ 1
  tally : ∀ p < t.size, (w.pes p).stage ≠ 0 →
    (w.pes p).nReported + ∑ q ∈ t.childSet p, w.load q + w.selfLoad p = (t.children p).length + 1
  rest : ∀ p, (w.pes p).stage = 0 → (w.pes p).nReported = 0
  callbacks : (w.pes 0).callbacks ≠ [] → (w.pes 0).stage ≠ 0

theorem staged_initial (busy : Nat → Bool) : Staged t (initialSystem busy : System Cb) where
  wires _ h := nomatch h
  stage_le _ := Nat.zero_le 2
  stages _ _ _ h := absurd rfl h
  load_le _ _ _ := Nat.zero_le 1
  tally _ _ h := absurd rfl h
  rest _ _ := rfl
  callbacks h := absurd rfl h

/-! ### Consequences -/

/-- Nothing is outstanding between a processor in stage 0 and its children. -/
theorem Staged.load_child (h : Staged t w) (hp : (w.pes p).stage = 0) (hq : q ∈ t.childSet p) :
    w.load q = 0 := by
  obtain ⟨hne, hlt, rfl⟩ := t.mem_childSet.1 hq
  have hst : (w.pes q).stage = 0 := by
    by_contra hst
    exact hst ((h.stages q hne hlt hst).trans hp)
  rw [System.load, if_pos hst, add_zero, countP_eq_zero]
  intro wire hwire hedge
  have hlaw := h.wires wire hwire
  obtain ⟨dest, origin, msg⟩ := wire
  rcases of_decide_eq_true hedge with ⟨rfl, rfl⟩ | rfl
  · obtain ⟨-, -, hphase⟩ := hlaw
    omega
  · obtain ⟨-, -, hdest, hphase, hst⟩ := hlaw
    rw [hdest] at hst
    omega

theorem Staged.selfLoad_eq (h : Staged t w) (hp : (w.pes p).stage = 0) : w.selfLoad p = 0 := by
  rw [System.selfLoad, countP_eq_zero]
  intro wire hwire hself
  have hlaw := h.wires wire hwire
  obtain ⟨dest, origin, msg⟩ := wire
  obtain ⟨rfl, rfl⟩ := of_decide_eq_true hself
  obtain ⟨-, hphase, hst⟩ := hlaw
  exact hphase (hst.trans hp)

/-- A processor that has a message of its parent is in stage 0. -/
theorem Staged.stage_of_parent (h : Staged t w) (hwire : wire ∈ w.qd)
    (horg : wire.origin = .parent) : (w.pes wire.dest).stage = 0 := by
  have hlaw := h.wires wire hwire
  rw [Lawful, horg] at hlaw
  obtain ⟨hne, hlt, -⟩ := hlaw
  have hload := h.load_le _ hne hlt
  have hcount : 0 < w.qd.countP (onEdge wire.dest) :=
    countP_pos_iff.2 ⟨wire, hwire, decide_eq_true (.inl ⟨horg, rfl⟩)⟩
  by_contra hst
  rw [System.load, if_neg hst] at hload
  omega

/-! ## One processor changes -/

theorem child_ne (hq : q ∈ t.childSet p) : q ≠ p := by
  obtain ⟨hne, hlt, hpar⟩ := t.mem_childSet.1 hq
  exact fun hqp => t.parent_ne hne hlt (hpar.trans hqp.symm)

/-- A message that is neither between the processor and its children nor from it to itself. -/
theorem Lawful.frame (h : Lawful t w wire) (hpes : ∀ r, r ≠ p → w'.pes r = w.pes r)
    (hedge : ∀ q ∈ t.childSet p, wire.onEdge q = false) (hself : wire.isSelf p = false) :
    Lawful t w' wire := by
  obtain ⟨dest, origin, msg⟩ := wire
  cases origin with
  | start => exact h
  | parent =>
    obtain ⟨hne, hlt, hphase⟩ := h
    have hpar : t.parent dest ≠ p := by
      intro hpar
      exact of_decide_eq_false (hedge dest (t.mem_childSet.2 ⟨hne, hlt, hpar⟩)) (.inl ⟨rfl, rfl⟩)
    exact ⟨hne, hlt, by rw [hpes _ hpar]; exact hphase⟩
  | child q =>
    obtain ⟨hne, hlt, hdest, hphase, hst⟩ := h
    have hpar : dest ≠ p := by
      intro hpar
      exact of_decide_eq_false (hedge q (t.mem_childSet.2 ⟨hne, hlt, hdest.symm.trans hpar⟩))
        (.inr rfl)
    exact ⟨hne, hlt, hdest, hphase, by rw [hpes _ hpar]; exact hst⟩
  | self =>
    obtain ⟨hlt, hphase, hst⟩ := h
    have hpar : dest ≠ p := fun hpar => of_decide_eq_false hself ⟨rfl, hpar⟩
    exact ⟨hlt, hphase, by rw [hpes _ hpar]; exact hst⟩

theorem Lawful.same (h : Lawful t w wire)
    (hst : ∀ r, (w'.pes r).stage = (w.pes r).stage) : Lawful t w' wire := by
  simp only [Lawful, hst] at h ⊢
  exact h

/-- The edges that a message to a processor can be on. -/
theorem Lawful.elsewhere (h : Lawful t w wire) :
    (∀ q, q ≠ wire.dest → t.parent q ≠ wire.dest → wire.onEdge q = false) ∧
      ∀ r, r ≠ wire.dest → wire.isSelf r = false := by
  obtain ⟨dest, origin, msg⟩ := wire
  refine ⟨fun q hq hpar => decide_eq_false ?_, fun r hr => decide_eq_false ?_⟩
  · rintro (⟨-, rfl⟩ | rfl)
    · exact hq rfl
    · exact hpar h.2.2.1.symm
  · rintro ⟨-, rfl⟩
    exact hr rfl

/-! ## The steps of a handler -/

section Handling

variable {rest : List (Wire Cb)} {wire : Wire Cb} {o : Outcome Cb} {k : Nat}

theorem qd_perm {before after : List (Wire Cb)} (hqd : w.qd = before ++ wire :: after) :
    w.qd.Perm (wire :: (before ++ after)) :=
  (Perm.of_eq hqd).trans perm_middle

section

variable (hqd : w.qd.Perm (wire :: rest))

include hqd

theorem mem_qd : wire ∈ w.qd :=
  hqd.mem_iff.2 mem_cons_self

theorem mem_qd_of_rest {wire' : Wire Cb} (h : wire' ∈ rest) : wire' ∈ w.qd :=
  hqd.mem_iff.2 (mem_cons_of_mem _ h)

/-- A message counts once. -/
theorem countP_wire (f : Wire Cb → Bool) :
    w.qd.countP f = rest.countP f + if f wire then 1 else 0 := by
  rw [hqd.countP_eq, countP_cons]

theorem countP_of_off {f : Wire Cb → Bool} (hf : f wire = false) :
    w.qd.countP f = rest.countP f := by
  rw [countP_wire hqd, hf, if_neg Bool.false_ne_true, add_zero]

end

theorem load_put : (w.put p rest o).load q = rest.countP (onEdge q) + o.sent.countP (onEdge q) +
      if ((w.put p rest o).pes q).stage = 0 then 0 else 1 := by
  show (rest ++ o.sent).countP _ + _ = _
  rw [countP_append]

theorem selfLoad_put (r : Nat) :
    (w.put p rest o).selfLoad r = rest.countP (isSelf r) + o.sent.countP (isSelf r) :=
  countP_append

theorem put_pes_self : (w.put p rest o).pes p = o.state :=
  update_self ..

theorem put_pes_of_ne (hq : q ≠ p) : (w.put p rest o).pes q = w.pes q :=
  update_of_ne hq ..

/-- What holds of the new state and of the other processors. -/
theorem forall_put {P : Nat → QdState Cb → Prop} (rest : List (Wire Cb)) (hself : P p o.state)
    (hother : ∀ r, r ≠ p → P r (w.pes r)) (r : Nat) : P r ((w.put p rest o).pes r) := by
  by_cases hr : r = p
  · rw [hr, put_pes_self]
    exact hself
  · rw [put_pes_of_ne hr]
    exact hother r hr

/-- What the new state has in common with the old one. -/
theorem apply_put {β : Type} (f : QdState Cb → β) (rest : List (Wire Cb))
    (h : f o.state = f (w.pes p)) (r : Nat) : f ((w.put p rest o).pes r) = f (w.pes r) :=
  forall_put (P := fun r s => f s = f (w.pes r)) rest h (fun _ _ => rfl) r

/-- The outcome of `bcastQD1` and of `bcastQD2`. -/
structure Broadcasts (t : SpanTree) (p k : Nat) (o : Outcome Cb) : Prop where
  pos : k = 1 ∨ k = 2
  stage : o.state.stage = k
  nReported : o.state.nReported = 0
  sent : ∃ m m' : QdMsg Cb, m.phase + 1 = k ∧ m'.phase = k ∧
    o.sent = (t.children p).map (fun q => ⟨q, .parent, m⟩) ++ [⟨p, .self, m'⟩]

theorem bcastQD1_broadcasts (s : QdState Cb) (msg : QdMsg Cb) :
    Broadcasts t p 1 (bcastQD1 t p s msg) :=
  ⟨.inl rfl, rfl, rfl, _, _, rfl, rfl, rfl⟩

variable {s : QdState Cb} {msg : QdMsg Cb}

theorem bcastQD2_broadcasts : Broadcasts t p 2 (bcastQD2 t p s msg) :=
  ⟨.inr rfl, rfl, rfl, _, _, rfl, rfl, rfl⟩

/-- A broadcast puts one message on the edge to each child. -/
theorem Broadcasts.countP_edge (h : Broadcasts t p k o) (q : Nat) :
    o.sent.countP (onEdge q) = if q ∈ t.childSet p then 1 else 0 := by
  obtain ⟨m, m', -, -, hsent⟩ := h.sent
  have hmap : ((t.children p).map fun q => (⟨q, .parent, m⟩ : Wire Cb)).countP (onEdge q) =
      (t.children p).count q := by
    rw [countP_map, count_eq_countP]
    refine countP_congr fun r _ => ?_
    simp [onEdge]
  have hself : onEdge q (⟨p, .self, m'⟩ : Wire Cb) = false := rfl
  rw [hsent, countP_append, hmap, countP_singleton, hself, if_neg Bool.false_ne_true, add_zero]
  by_cases hq : q ∈ t.children p
  · have hmem : q ∈ t.childSet p := mem_toFinset.2 hq
    rw [count_eq_one_of_mem (t.nodup p) hq, if_pos hmem]
  · have hmem : q ∉ t.childSet p := fun h => hq (mem_toFinset.1 h)
    rw [count_eq_zero_of_not_mem hq, if_neg hmem]

theorem Broadcasts.countP_self (h : Broadcasts t p k o) (r : Nat) :
    o.sent.countP (isSelf r) = if r = p then 1 else 0 := by
  obtain ⟨m, m', -, -, hsent⟩ := h.sent
  have hmap : ((t.children p).map fun q => (⟨q, .parent, m⟩ : Wire Cb)).countP (isSelf r) = 0 := by
    rw [countP_eq_zero]
    intro wire hwire
    obtain ⟨q, -, rfl⟩ := mem_map.1 hwire
    exact Bool.false_ne_true
  rw [hsent, countP_append, hmap, countP_singleton, zero_add]
  simp [isSelf, eq_comm]

variable (t w rest) in
/-- The message that is handled is the only thing outstanding around its receiver. -/
structure Clear (p : Nat) : Prop where
  edge : ∀ q ∈ t.childSet p, rest.countP (onEdge q) = 0 ∧ (w.pes q).stage = 0
  self : rest.countP (isSelf p) = 0

/-- A report does not go between its receiver and the parent of its receiver. -/
theorem Lawful.report_not_own (h : Lawful t w wire) (hrep : wire.Reports) :
    wire.onEdge wire.dest = false := by
  rcases hrep with ⟨q, horg⟩ | horg
  · rw [Lawful, horg] at h
    obtain ⟨hne, hlt, hdest, -⟩ := h
    rw [onEdge_of_child horg, decide_eq_false_iff_not]
    exact fun hq => t.parent_ne hne hlt (hdest.symm.trans hq)
  · exact onEdge_of_self horg _

theorem Lawful.report_dest (h : Lawful t w wire) (hrep : wire.Reports) :
    wire.dest < t.size ∧ wire.msg.phase ≠ 0 ∧ wire.msg.phase = (w.pes wire.dest).stage := by
  rcases hrep with ⟨q, horg⟩ | horg
  · rw [Lawful, horg] at h
    obtain ⟨hne, hlt, hdest, hphase⟩ := h
    exact ⟨hdest ▸ t.parent_lt hne hlt, hphase⟩
  · rw [Lawful, horg] at h
    exact h

/-- Nothing that the invariant is about changes. -/
theorem Staged.congr (h : Staged t w) (hqd : ∀ wire ∈ w'.qd, Lawful t w wire)
    (hst : ∀ r, (w'.pes r).stage = (w.pes r).stage)
    (hreported : ∀ r, (w'.pes r).nReported = (w.pes r).nReported)
    (hedge : ∀ q, w'.qd.countP (onEdge q) = w.qd.countP (onEdge q))
    (hself : ∀ r, w'.qd.countP (isSelf r) = w.qd.countP (isSelf r))
    (hcbs : (w'.pes 0).callbacks ≠ [] → (w.pes 0).stage ≠ 0) : Staged t w' := by
  have hload : ∀ q, w'.load q = w.load q := fun q => by rw [System.load, System.load, hedge, hst]
  have hselfs : ∀ r, w'.selfLoad r = w.selfLoad r := hself
  refine ⟨fun wire hwire => (hqd wire hwire).same hst, fun r => ?_, fun q => ?_, fun q => ?_,
    fun r => ?_, fun r => ?_, fun hcb => ?_⟩
  · rw [hst]
    exact h.stage_le r
  · rw [hst, hst]
    exact h.stages q
  · rw [hload]
    exact h.load_le q
  · simp only [hst, hreported, hload, hselfs]
    exact h.tally r
  · rw [hst, hreported]
    exact h.rest r
  · rw [hst]
    exact hcbs hcb

/-- The state with one more report of the counts. -/
def QdState.counted (s : QdState Cb) (msg : QdMsg Cb) : QdState Cb :=
  { s with
    cCreated := s.cCreated + msg.created
    cProcessed := s.cProcessed + msg.processed
    nReported := s.nReported + 1 }

/-- The state with one more answer of stage 2. -/
def QdState.answered (s : QdState Cb) (msg : QdMsg Cb) : QdState Cb :=
  { s with cDirty := s.cDirty || msg.dirty, nReported := s.nReported + 1 }

/-- The state of processor 0 from which a round begins: the counts are those of `s`, a callback may
have come, and the sum of the last round is remembered if it agreed. -/
def RoundFrom (s s1 : QdState Cb) (wire : Wire Cb) : Prop :=
  s1.mCreated = s.mCreated ∧ s1.mProcessed = s.mProcessed ∧ s1.rounds = s.rounds ∧
    s1.callbacks = s.callbacks ++ wire.request.toList ∧
    (s1.oldCount = s.oldCount ∨ s.stage = 1 ∧ wire.Reports ∧
      s.cCreated + wire.msg.created = s.cProcessed + wire.msg.processed ∧
      s1.oldCount = s.cProcessed + wire.msg.processed)

variable (t w rest wire) in
/-- All that handling a message can do. -/
inductive Reaction : Outcome Cb → Prop
  /-- `CkStartQD` while a detection is going on. -/
  | noted (hdest : wire.dest = 0) (horigin : wire.origin = .start) :
      Reaction ⟨{ w.pes wire.dest with
        callbacks := (w.pes wire.dest).callbacks ++ [wire.msg.cb] }, [], []⟩
  /-- Processor 0 begins a round. -/
  | begun (s : QdState Cb) (hdest : wire.dest = 0) (horigin : wire.origin = .start ∨ wire.Reports)
      (hclear : Clear t w rest 0) (hs : RoundFrom (w.pes wire.dest) s wire) :
      Reaction (bcastQD1 t wire.dest s wire.msg)
  /-- The round reaches another processor. -/
  | asked (hdest : wire.dest ≠ 0) (hasks : wire.asks wire.dest = true)
      (hstage : (w.pes wire.dest).stage = 0) :
      Reaction (bcastQD1 t wire.dest (w.pes wire.dest) wire.msg)
  /-- The sums are those of an earlier round. -/
  | matched (hdest : wire.dest = 0) (hreport : wire.Reports) (hstage : (w.pes wire.dest).stage = 1)
      (hclear : Clear t w rest 0)
      (hequal : (w.pes wire.dest).cCreated + wire.msg.created =
        (w.pes wire.dest).cProcessed + wire.msg.processed)
      (hold : (w.pes wire.dest).oldCount = (w.pes wire.dest).cProcessed + wire.msg.processed) :
      Reaction (bcastQD2 t wire.dest ((w.pes wire.dest).counted wire.msg) wire.msg)
  /-- The last question reaches another processor. -/
  | checked (hdest : wire.dest ≠ 0) (horigin : wire.origin = .parent) (hphase : wire.msg.phase = 1)
      (hstage : (w.pes wire.dest).stage = 0) :
      Reaction (bcastQD2 t wire.dest (w.pes wire.dest) wire.msg)
  /-- A report that is not the last one. -/
  | counted (hreport : wire.Reports) (hphase : wire.msg.phase = 1)
      (hstage : (w.pes wire.dest).stage = 1) :
      Reaction ⟨(w.pes wire.dest).counted wire.msg, [], []⟩
  | answered (hreport : wire.Reports) (hphase : wire.msg.phase = 2)
      (hstage : (w.pes wire.dest).stage = 2) :
      Reaction ⟨(w.pes wire.dest).answered wire.msg, [], []⟩
  /-- The last report of a processor that is not processor 0. -/
  | reported (hreport : wire.Reports) (hphase : wire.msg.phase = 1) (hdest : wire.dest ≠ 0)
      (hstage : (w.pes wire.dest).stage = 1) :
      Reaction ⟨{ ((w.pes wire.dest).counted wire.msg).reset with stage := 0 },
        [⟨t.parent wire.dest, .child wire.dest, { wire.msg with
          created := ((w.pes wire.dest).counted wire.msg).cCreated
          processed := ((w.pes wire.dest).counted wire.msg).cProcessed }⟩], []⟩
  | replied (hreport : wire.Reports) (hphase : wire.msg.phase = 2) (hdest : wire.dest ≠ 0)
      (hstage : (w.pes wire.dest).stage = 2) :
      Reaction ⟨{ ((w.pes wire.dest).answered wire.msg).reset with stage := 0 },
        [⟨t.parent wire.dest, .child wire.dest, { wire.msg with
          dirty := ((w.pes wire.dest).answered wire.msg).isDirty }⟩], []⟩
  /-- Quiescence is detected. -/
  | detected (hreport : wire.Reports) (hdest : wire.dest = 0)
      (hstage : (w.pes wire.dest).stage = 2) :
      Reaction
        ⟨{ ((w.pes wire.dest).answered wire.msg).reset with stage := 0, callbacks := [] }, [],
          ((w.pes wire.dest).answered wire.msg).callbacks⟩

theorem Wire.Reports.request (h : wire.Reports) : wire.request = none := by
  rcases h with ⟨q, h⟩ | h <;> simp [Wire.request, h]

theorem Wire.Reports.append_request (h : wire.Reports) (cbs : List Cb) :
    cbs = cbs ++ wire.request.toList := by
  rw [h.request, Option.toList, append_nil]

theorem Broadcasts.request (h : Broadcasts t p k o) : o.sent.filterMap Wire.request = [] := by
  obtain ⟨m, m', -, -, hsent⟩ := h.sent
  simp [hsent, Wire.request]

/-- The callbacks of a message and those that wait on processor 0 wait there or are sent. -/
theorem Reaction.callbacks (hr : Reaction t w rest wire o) : (w.put wire.dest rest o).called ++
      ((w.put wire.dest rest o).pes 0).callbacks =
        w.called ++ (w.pes 0).callbacks ++ wire.request.toList ∧
      o.sent.filterMap Wire.request = [] := by
  have hkept (hcalled : o.called = []) (hcbs : o.state.callbacks = (w.pes wire.dest).callbacks)
      (hreq : wire.request = none) : (w.put wire.dest rest o).called ++
        ((w.put wire.dest rest o).pes 0).callbacks =
            w.called ++ (w.pes 0).callbacks ++ wire.request.toList := by
    rw [apply_put QdState.callbacks rest hcbs 0, hreq]
    simp [System.put, hcalled]
  cases hr with
  | noted hdest horg => exact ⟨by simp [System.put, hdest, Wire.request, horg], rfl⟩
  | begun s hdest horg hclear hs =>
    refine ⟨?_, (bcastQD1_broadcasts ..).request⟩
    simp [System.put, hdest, bcastQD1, QdState.reset, hs.2.2.2.1]
  | asked hdest hasks =>
    have horg : wire.origin = .parent := (of_decide_eq_true hasks).1
    exact ⟨hkept rfl rfl (by simp [Wire.request, horg]), (bcastQD1_broadcasts ..).request⟩
  | matched hdest hrep => exact ⟨hkept rfl rfl hrep.request, bcastQD2_broadcasts.request⟩
  | checked hdest horg =>
    exact ⟨hkept rfl rfl (by simp [Wire.request, horg]), bcastQD2_broadcasts.request⟩
  | counted hrep | answered hrep | reported hrep | replied hrep =>
    exact ⟨hkept rfl rfl hrep.request, rfl⟩
  | detected hrep hdest => exact ⟨by simp [System.put, hdest, QdState.answered, hrep.request], rfl⟩

variable (t w rest wire) in
/-- A message is handled without a failure, `Reaction` says how, and the invariant stays. -/
def Handles : Prop :=
  ∃ o, callWhenIdle t wire.dest (w.pes wire.dest) wire.msg = some o ∧ Reaction t w rest wire o ∧
    Staged t (w.put wire.dest rest o)

theorem callWhenIdle_start (hp : p = 0) (hphase : msg.phase = 0) : callWhenIdle t p s msg = some (
      if s.stage = 0 then bcastQD1 t p { s with callbacks := s.callbacks ++ [msg.cb] } msg
      else ⟨{ s with callbacks := s.callbacks ++ [msg.cb] }, [], []⟩) := by
  rw [callWhenIdle, hphase]
  simp [handlePhase0, QdMsg.getCb, hp, hphase]

theorem Wire.onEdge_of_start (horg : wire.origin = .start) (q : Nat) : wire.onEdge q = false := by
  simp [onEdge, horg]

theorem Wire.isSelf_of_start (horg : wire.origin = .start) (r : Nat) : wire.isSelf r = false := by
  simp [isSelf, horg]

theorem callWhenIdle_parent_zero (hne : p ≠ 0) (hst : s.stage = 0) (hphase : msg.phase = 0) :
    callWhenIdle t p s msg = some (bcastQD1 t p s msg) := by
  rw [callWhenIdle, hphase]
  simp [handlePhase0, hne, hst]

theorem callWhenIdle_parent_one (hne : p ≠ 0) (hst : s.stage = 0) (hphase : msg.phase = 1) :
    callWhenIdle t p s msg = some (bcastQD2 t p s msg) := by
  rw [callWhenIdle, hphase]
  simp [handlePhase1, hne, hst]

theorem handlePhase1_report (hst : s.stage = 1)
    (hphase : msg.phase = 1) : callWhenIdle t p s msg = some (
      if s.nReported = (t.children p).length then if p = 0 then endRound t p (s.counted msg) msg
        else ⟨{ (s.counted msg).reset with stage := 0 }, [⟨t.parent p, .child p, { msg with
          created := (s.counted msg).cCreated
          processed := (s.counted msg).cProcessed }⟩], []⟩
      else ⟨s.counted msg, [], []⟩) := by
  cases s with
  | mk stage =>
    cases hst
    rw [callWhenIdle, hphase]
    simp only [handlePhase1, QdMsg.getCreated, hphase, if_true, bind_some,
      QdMsg.getProcessed, map_some, allReported, add_left_inj]
    rfl

theorem handlePhase2_report (s : QdState Cb) (msg : QdMsg Cb) (hst : s.stage = 2)
    (hphase : msg.phase = 2) : callWhenIdle t p s msg = some (
      if s.nReported = (t.children p).length then if p = 0 then
          if (s.answered msg).isDirty then bcastQD1 t p (s.answered msg) msg
          else ⟨{ (s.answered msg).reset with stage := 0, callbacks := [] }, [],
            (s.answered msg).callbacks⟩
        else ⟨{ (s.answered msg).reset with stage := 0 }, [⟨t.parent p, .child p, { msg with
          dirty := (s.answered msg).isDirty }⟩], []⟩
      else ⟨s.answered msg, [], []⟩) := by
  cases s with
  | mk stage =>
    cases hst
    rw [callWhenIdle, hphase]
    simp only [handlePhase2, QdMsg.getDirty, hphase, if_true, map_some, allReported, add_left_inj]
    rfl

/-- The end of a round at processor 0 is a broadcast. -/
theorem endRound_broadcasts (hdest : wire.dest = 0) (hrep : wire.Reports)
    (hst : (w.pes wire.dest).stage = 1) (hclear : Clear t w rest 0) : Reaction t w rest wire
        (endRound t wire.dest ((w.pes wire.dest).counted wire.msg) wire.msg) ∧
      ∃ k, Broadcasts t wire.dest k
        (endRound t wire.dest ((w.pes wire.dest).counted wire.msg) wire.msg) := by
  have hcbs := hrep.append_request (w.pes wire.dest).callbacks
  rw [endRound]
  split
  · next hequal =>
    split
    · next hold => exact ⟨.matched hdest hrep hst hclear hequal hold, 2, bcastQD2_broadcasts ..⟩
    · exact ⟨.begun _ hdest (.inr hrep) hclear
        ⟨rfl, rfl, rfl, hcbs, .inr ⟨hst, hrep, hequal, rfl⟩⟩, 1, bcastQD1_broadcasts ..⟩
  · exact ⟨.begun _ hdest (.inr hrep) hclear ⟨rfl, rfl, rfl, hcbs, .inl rfl⟩, 1,
      bcastQD1_broadcasts ..⟩

/-! ### A message is handled -/

variable (h : Staged t w) (hqd : w.qd.Perm (wire :: rest))

include h hqd

theorem Staged.lawful : Lawful t w wire :=
  h.wires wire (mem_qd hqd)

/-- The rest of the messages stays lawful. -/
theorem Staged.rest_lawful (hclear : Clear t w rest p) (hpes : ∀ r, r ≠ p → w'.pes r = w.pes r) :
    ∀ wire' ∈ rest, Lawful t w' wire' := by
  intro wire' hwire'
  refine (h.wires wire' (mem_qd_of_rest hqd hwire')).frame hpes (fun q hq => ?_) ?_
  · exact Bool.eq_false_iff.2 (countP_eq_zero.1 (hclear.edge q hq).1 wire' hwire')
  · exact Bool.eq_false_iff.2 (countP_eq_zero.1 hclear.self wire' hwire')

/-- What has to be shown of the outcome when one processor handles a message. -/
theorem Staged.change (hle : o.state.stage ≤ 2) (hown : wire.dest ≠ 0 → o.state.stage ≠ 0 →
      o.state.stage = (w.pes (t.parent wire.dest)).stage)
    (hchild : ∀ q ∈ t.childSet wire.dest, (w.pes q).stage ≠ 0 → (w.pes q).stage = o.state.stage)
    (hwires : ∀ wire' ∈ rest ++ o.sent, Lawful t (w.put wire.dest rest o) wire')
    (hedge : ∀ q, q ≠ wire.dest → t.parent q ≠ wire.dest → o.sent.countP (onEdge q) = 0)
    (hload : wire.dest ≠ 0 → (w.put wire.dest rest o).load wire.dest = w.load wire.dest)
    (hload_le : ∀ q ∈ t.childSet wire.dest, (w.put wire.dest rest o).load q ≤ 1)
    (hself : ∀ r, r ≠ wire.dest → o.sent.countP (isSelf r) = 0)
    (htally : o.state.stage ≠ 0 → o.state.nReported +
      ∑ q ∈ t.childSet wire.dest, (w.put wire.dest rest o).load q +
        (w.put wire.dest rest o).selfLoad wire.dest = (t.children wire.dest).length + 1)
    (hrest : o.state.stage = 0 → o.state.nReported = 0)
    (hcbs : wire.dest = 0 → o.state.callbacks ≠ [] → o.state.stage ≠ 0) :
    Staged t (w.put wire.dest rest o) := by
  have hlaw := h.lawful hqd
  have hloads : ∀ q, q ≠ 0 → t.parent q ≠ wire.dest →
      (w.put wire.dest rest o).load q = w.load q := by
    intro q hne hpar
    by_cases hq : q = wire.dest
    · exact hq ▸ hload (hq ▸ hne)
    · rw [load_put, hedge q hq hpar, put_pes_of_ne hq, System.load,
        countP_of_off hqd (hlaw.elsewhere.1 q hq hpar), add_zero]
  refine ⟨hwires, forall_put (P := fun _ s => s.stage ≤ 2) _ hle fun r _ => h.stage_le r,
    fun q hne hlt hst => ?_, fun q hne hlt => ?_, fun r hr hst => ?_,
    forall_put (P := fun _ s => s.stage = 0 → s.nReported = 0) _ hrest fun r _ => h.rest r,
    fun hcb => ?_⟩
  · by_cases hqp : q = wire.dest
    · rw [hqp] at hne hlt hst ⊢
      rw [put_pes_self] at hst ⊢
      rw [put_pes_of_ne (t.parent_ne hne hlt)]
      exact hown hne hst
    · rw [put_pes_of_ne hqp] at hst ⊢
      by_cases hpar : t.parent q = wire.dest
      · rw [hpar, put_pes_self]
        exact hchild q (t.mem_childSet.2 ⟨hne, hlt, hpar⟩) hst
      · rw [put_pes_of_ne hpar]
        exact h.stages q hne hlt hst
  · by_cases hpar : t.parent q = wire.dest
    · exact hload_le q (t.mem_childSet.2 ⟨hne, hlt, hpar⟩)
    · rw [hloads q hne hpar]
      exact h.load_le q hne hlt
  · by_cases hrp : r = wire.dest
    · rw [hrp, put_pes_self] at hst ⊢
      exact htally hst
    · rw [put_pes_of_ne hrp] at hst ⊢
      have hsum : ∑ q ∈ t.childSet r, (w.put wire.dest rest o).load q = ∑ q ∈ t.childSet r,
          w.load q := by
        refine Finset.sum_congr rfl fun q hq => ?_
        obtain ⟨hne, -, hpar⟩ := t.mem_childSet.1 hq
        exact hloads q hne (hpar ▸ hrp)
      rw [hsum, selfLoad_put, hself r hrp, ← h.tally r hr hst, System.selfLoad,
        countP_of_off hqd (hlaw.elsewhere.2 r hrp), add_zero]
  · by_cases hroot : wire.dest = 0
    · have hput : (w.put wire.dest rest o).pes 0 = o.state := by
        rw [← hroot, put_pes_self]
      rw [hput] at hcb ⊢
      exact hcbs hroot hcb
    · rw [put_pes_of_ne (Ne.symm hroot)] at hcb ⊢
      exact h.callbacks hcb

/-- A message that is on no edge does not change what is outstanding. -/
theorem Staged.clear_of_off (hst : (w.pes p).stage = 0)
    (hedge : ∀ q ∈ t.childSet p, wire.onEdge q = false)
    (hself : wire.isSelf p = false) : Clear t w rest p := by
  refine ⟨fun q hq => ?_, ?_⟩
  · have hload := h.load_child hst hq
    rw [System.load, countP_of_off hqd (hedge q hq)] at hload
    split at hload
    · next hs => exact ⟨by omega, hs⟩
    · omega
  · have hload := h.selfLoad_eq hst
    rw [System.selfLoad, countP_of_off hqd hself] at hload
    exact hload

/-- The receiver asks its children. -/
theorem Staged.broadcast (hp : wire.dest < t.size) (hclear : Clear t w rest wire.dest)
    (hb : Broadcasts t wire.dest k o)
    (hown : wire.dest ≠ 0 → k = (w.pes (t.parent wire.dest)).stage ∧ w.load wire.dest = 1 ∧
      rest.countP (onEdge wire.dest) = 0) : Staged t (w.put wire.dest rest o) := by
  have hk : k ≠ 0 := by
    rcases hb.pos with rfl | rfl <;> decide
  have hload : ∀ q ∈ t.childSet wire.dest, (w.put wire.dest rest o).load q = 1 := by
    intro q hq
    rw [load_put, put_pes_of_ne (child_ne hq), (hclear.edge q hq).1, (hclear.edge q hq).2,
      hb.countP_edge, if_pos hq, if_pos rfl]
  refine h.change hqd ?_ (fun hne _ => ?_) (fun q hq hst => ?_) (fun wire' hwire' => ?_)
    (fun q _ hpar => ?_) (fun hne => ?_) (fun q hq => (hload q hq).le) (fun r hr => ?_)
    (fun _ => ?_) (fun hst => ?_) (fun _ _ => ?_)
  · rw [hb.stage]
    rcases hb.pos with rfl | rfl <;> decide
  · rw [hb.stage]
    exact (hown hne).1
  · exact absurd (hclear.edge q hq).2 hst
  · rcases mem_append.1 hwire' with hwire' | hwire'
    · exact h.rest_lawful hqd hclear (fun _ => put_pes_of_ne) wire' hwire'
    · obtain ⟨m, m', hm, hm', hsent⟩ := hb.sent
      rw [hsent] at hwire'
      rcases mem_append.1 hwire' with hwire' | hwire'
      · obtain ⟨q, hq, rfl⟩ := mem_map.1 hwire'
        obtain ⟨hne, hlt, hpar⟩ := t.mem_children.1 hq
        refine ⟨hne, hlt, ?_⟩
        rw [hpar, put_pes_self, hb.stage]
        exact hm
      · obtain rfl := mem_singleton.1 hwire'
        refine ⟨hp, hm'.trans_ne hk, ?_⟩
        rw [put_pes_self, hb.stage]
        exact hm'
  · rw [hb.countP_edge, if_neg fun hq => hpar (t.mem_childSet.1 hq).2.2]
  · rw [load_put, (hown hne).2.2, hb.countP_edge, if_neg fun hq => child_ne hq rfl, put_pes_self,
      hb.stage, if_neg hk, (hown hne).2.1]
  · rw [hb.countP_self, if_neg hr]
  · rw [hb.nReported, Finset.sum_congr rfl hload, ← Finset.card_eq_sum_ones, t.card_childSet,
      selfLoad_put, hclear.self, hb.countP_self, if_pos rfl]
    omega
  · rw [hb.stage] at hst
    exact absurd hst hk
  · rw [hb.stage]
    exact hk

section Report

variable (hrep : wire.Reports)

include hrep

/-- A report is on the edge to one child of its receiver, or from the receiver to itself; without it
the sum of what is outstanding there is one less. -/
theorem Staged.outstanding (hpes : ∀ q ∈ t.childSet wire.dest, (w'.pes q).stage = (w.pes q).stage)
    (hqd' : w'.qd = rest) : ∑ q ∈ t.childSet wire.dest, w'.load q + w'.selfLoad wire.dest + 1 =
      ∑ q ∈ t.childSet wire.dest, w.load q + w.selfLoad wire.dest := by
  have hlaw := h.lawful hqd
  have hload : ∀ q ∈ t.childSet wire.dest,
      w.load q = w'.load q + if wire.onEdge q then 1 else 0 := by
    intro q hq
    rw [System.load, System.load, countP_wire hqd, hqd', hpes q hq]
    omega
  have hself : w.selfLoad wire.dest = w'.selfLoad wire.dest + if wire.isSelf wire.dest then 1
      else 0 := by
    rw [System.selfLoad, System.selfLoad, countP_wire hqd, hqd']
  rcases hrep with ⟨q, horg⟩ | horg
  · rw [Lawful, horg] at hlaw
    obtain ⟨hne, hlt, hdest, -⟩ := hlaw
    have hq : q ∈ t.childSet wire.dest := t.mem_childSet.2 ⟨hne, hlt, hdest.symm⟩
    rw [isSelf_of_child horg, if_neg Bool.false_ne_true] at hself
    have hoff : ∀ r ∈ t.childSet wire.dest, r ≠ q → w'.load r = w.load r := by
      intro r hr hrq
      rw [hload r hr, onEdge_of_child horg, decide_eq_false hrq,
        if_neg Bool.false_ne_true, add_zero]
    have hqload : w.load q = w'.load q + 1 := by
      rw [hload q hq, onEdge_of_child horg, decide_eq_true rfl, if_pos rfl]
    have hsum := sum_add_of_eq_off hq hoff
    omega
  · rw [isSelf_of_self horg, if_pos rfl] at hself
    have hsum : ∑ q ∈ t.childSet wire.dest, w'.load q = ∑ q ∈ t.childSet wire.dest, w.load q := by
      refine Finset.sum_congr rfl fun q hq => ?_
      rw [hload q hq, onEdge_of_self horg, if_neg Bool.false_ne_true, add_zero]
    omega

/-- The receiver counts a report and waits for others. -/
theorem Staged.absorb (hst : o.state.stage = (w.pes wire.dest).stage)
    (hreported : o.state.nReported = (w.pes wire.dest).nReported + 1)
    (hcbs : o.state.callbacks = (w.pes wire.dest).callbacks) (hsent : o.sent = []) :
    Staged t (w.put wire.dest rest o) := by
  have hlaw := h.lawful hqd
  obtain ⟨hp, hphase, hphase'⟩ := hlaw.report_dest hrep
  have hstages := apply_put QdState.stage rest hst
  have hcount : ∀ f : Wire Cb → Bool, o.sent.countP f = 0 := fun f => by rw [hsent, countP_nil]
  have hload : ∀ q, (w.put wire.dest rest o).load q +
      (if wire.onEdge q then 1 else 0) = w.load q := by
    intro q
    rw [load_put, hcount, hstages, System.load, countP_wire hqd]
    omega
  have hqd' : (w.put wire.dest rest o).qd = rest := by
    show rest ++ o.sent = _
    rw [hsent, append_nil]
  refine h.change hqd (hst ▸ h.stage_le _) (fun hne hs => ?_) (fun q hq hs => ?_)
    (fun wire' hwire' => ?_) (fun q _ _ => hcount _) (fun _ => ?_) (fun q hq => ?_)
    (fun r _ => hcount _) (fun hs => ?_) (fun hs => ?_) (fun h0 hcb => ?_)
  · rw [hst] at hs ⊢
    exact h.stages _ hne hp hs
  · obtain ⟨hne, hlt, hpar⟩ := t.mem_childSet.1 hq
    rw [hst, ← hpar]
    exact h.stages q hne hlt hs
  · rw [hsent, append_nil] at hwire'
    exact (h.wires wire' (mem_qd_of_rest hqd hwire')).same hstages
  · have hown := hload wire.dest
    rwa [hlaw.report_not_own hrep, if_neg Bool.false_ne_true] at hown
  · obtain ⟨hne, hlt, -⟩ := t.mem_childSet.1 hq
    have hq := hload q
    have hle := h.load_le q hne hlt
    omega
  · have hout := h.outstanding hqd hrep (fun q _ => hstages q) hqd'
    have htally := h.tally _ hp (hst ▸ hs)
    omega
  · exact absurd (hphase'.trans (hst.symm.trans hs)) hphase
  · rw [hcbs, h0] at hcb
    rw [hst, h0]
    exact h.callbacks hcb

/-- With the last report nothing is outstanding around the receiver. -/
theorem Staged.clear_of_all (hall : (w.pes wire.dest).nReported = (t.children wire.dest).length) :
    Clear t w rest wire.dest := by
  have hlaw := h.lawful hqd
  obtain ⟨hp, hphase, hphase'⟩ := hlaw.report_dest hrep
  have htally := h.tally _ hp (hphase' ▸ hphase)
  let w1 : System Cb := { w with qd := rest }
  have hout : ∑ q ∈ t.childSet wire.dest, w1.load q + w1.selfLoad wire.dest + 1 = _ :=
    h.outstanding hqd hrep (fun _ _ => rfl) rfl
  have hzero : ∑ q ∈ t.childSet wire.dest, w1.load q = 0 := by omega
  refine ⟨fun q hq => ?_, ?_⟩
  · have hq' := Finset.sum_eq_zero_iff.1 hzero q hq
    change rest.countP (onEdge q) + (if (w.pes q).stage = 0 then 0 else 1) = 0 at hq'
    split at hq'
    · next hst => exact ⟨by omega, hst⟩
    · omega
  · change w1.selfLoad wire.dest = 0
    omega

/-- The receiver goes back to stage 0, after its report to its parent. -/
theorem Staged.retire (hclear : Clear t w rest wire.dest) (hst : o.state.stage = 0)
    (hreported : o.state.nReported = 0)
    (hroot : wire.dest = 0 → o.sent = [] ∧ o.state.callbacks = [])
    (hsent : wire.dest ≠ 0 → ∃ m : QdMsg Cb,
      o.sent = [⟨t.parent wire.dest, .child wire.dest, m⟩] ∧ m.phase = (w.pes wire.dest).stage) :
    Staged t (w.put wire.dest rest o) := by
  have hlaw := h.lawful hqd
  obtain ⟨hp, hphase, hphase'⟩ := hlaw.report_dest hrep
  -- only the edge to the parent gets a message
  have hedge : ∀ q, q ≠ wire.dest → o.sent.countP (onEdge q) = 0 := by
    intro q hq
    by_cases h0 : wire.dest = 0
    · rw [(hroot h0).1, countP_nil]
    · obtain ⟨m, hm, -⟩ := hsent h0
      rw [hm, countP_singleton, onEdge_of_child rfl, decide_eq_false hq, if_neg Bool.false_ne_true]
  have hselfs : ∀ r, o.sent.countP (isSelf r) = 0 := by
    intro r
    by_cases h0 : wire.dest = 0
    · rw [(hroot h0).1, countP_nil]
    · obtain ⟨m, hm, -⟩ := hsent h0
      rw [hm, countP_singleton, isSelf_of_child rfl, if_neg Bool.false_ne_true]
  refine h.change hqd (hst ▸ Nat.zero_le 2) (fun _ hs => absurd hst hs)
    (fun q hq hs => absurd (hclear.edge q hq).2 hs) (fun wire' hwire' => ?_)
    (fun q hq _ => hedge q hq) (fun hne => ?_) (fun q hq => ?_) (fun r _ => hselfs r)
    (fun hs => absurd hst hs) (fun _ => hreported) (fun h0 hcb => absurd (hroot h0).2 hcb)
  · rcases mem_append.1 hwire' with hwire' | hwire'
    · exact h.rest_lawful hqd hclear (fun _ => put_pes_of_ne) wire' hwire'
    · by_cases h0 : wire.dest = 0
      · rw [(hroot h0).1] at hwire'
        cases hwire'
      · obtain ⟨m, hsent, hm⟩ := hsent h0
        rw [hsent] at hwire'
        obtain rfl := mem_singleton.1 hwire'
        refine ⟨h0, hp, rfl, ?_, ?_⟩
        · rw [hm, ← hphase']
          exact hphase
        · rw [put_pes_of_ne (t.parent_ne h0 hp)]
          exact hm.trans (h.stages _ h0 hp (hphase' ▸ hphase))
  · -- the report takes the place of the stage
    obtain ⟨m, hm, -⟩ := hsent hne
    rw [load_put, put_pes_self, hst, hm, countP_singleton, onEdge_of_child rfl,
      decide_eq_true rfl, if_pos rfl, if_pos rfl, System.load,
      countP_of_off hqd (hlaw.report_not_own hrep), if_neg (hphase' ▸ hphase)]
  · rw [load_put, (hclear.edge q hq).1, hedge q (child_ne hq), put_pes_of_ne (child_ne hq),
      (hclear.edge q hq).2, if_pos rfl]
    exact Nat.zero_le 1

/-- A report: it is counted, and the last one ends the stage. -/
theorem Staged.handle_report : Handles t w rest wire := by
  obtain ⟨hp, hphase, hphase'⟩ := (h.lawful hqd).report_dest hrep
  have hle := h.stage_le wire.dest
  rcases (by omega : wire.msg.phase = 1 ∨ wire.msg.phase = 2) with h1 | h2
  · have hst : (w.pes wire.dest).stage = 1 := by omega
    refine ⟨_, handlePhase1_report hst h1, ?_⟩
    split
    · next hall =>
      have hclear := h.clear_of_all hqd hrep hall
      split
      · next h0 =>
        obtain ⟨hreact, k, hb⟩ := endRound_broadcasts h0 hrep hst (h0 ▸ hclear)
        exact ⟨hreact, h.broadcast hqd hp hclear hb fun hne => absurd h0 hne⟩
      · next hne =>
        refine ⟨.reported hrep h1 hne hst, ?_⟩
        exact h.retire hqd hrep hclear rfl rfl hne.elim
          fun _ => ⟨_, rfl, h1.trans hst.symm⟩
    · exact ⟨.counted hrep h1 hst, h.absorb hqd hrep rfl rfl rfl rfl⟩
  · have hst : (w.pes wire.dest).stage = 2 := by omega
    refine ⟨_, handlePhase2_report _ _ hst h2, ?_⟩
    split
    · next hall =>
      have hclear := h.clear_of_all hqd hrep hall
      split
      · next h0 =>
        split
        · refine ⟨.begun _ h0 (.inr hrep) (h0 ▸ hclear)
            ⟨rfl, rfl, rfl, hrep.append_request _, .inl rfl⟩, ?_⟩
          exact h.broadcast hqd hp hclear (bcastQD1_broadcasts ..) fun hne => absurd h0 hne
        · refine ⟨.detected hrep h0 hst, ?_⟩
          exact h.retire hqd hrep hclear rfl rfl (fun _ => ⟨rfl, rfl⟩) fun hne => absurd h0 hne
      · next hne =>
        refine ⟨.replied hrep h2 hne hst, ?_⟩
        exact h.retire hqd hrep hclear rfl rfl hne.elim
          fun _ => ⟨_, rfl, h2.trans hst.symm⟩
    · exact ⟨.answered hrep h2 hst, h.absorb hqd hrep rfl rfl rfl rfl⟩

end Report

/-- `CkStartQD` reaches processor 0. -/
theorem Staged.handle_start (horg : wire.origin = .start) : Handles t w rest wire := by
  have hlaw := h.lawful hqd
  rw [Lawful, horg] at hlaw
  obtain ⟨hdest, hphase⟩ := hlaw
  refine ⟨_, callWhenIdle_start hdest hphase, ?_⟩
  split
  · next hst =>
    have hclear : Clear t w rest wire.dest := h.clear_of_off hqd hst
      (fun q _ => onEdge_of_start horg q) (isSelf_of_start horg _)
    have hcbs : wire.request.toList = [wire.msg.cb] := by simp [Wire.request, horg]
    refine ⟨.begun _ hdest (.inl horg) (hdest ▸ hclear) ⟨rfl, rfl, rfl, hcbs ▸ rfl, .inl rfl⟩, ?_⟩
    exact h.broadcast hqd (hdest ▸ t.size_pos) hclear (bcastQD1_broadcasts ..) fun hne =>
      absurd hdest hne
  · next hst =>
    refine ⟨.noted hdest horg, ?_⟩
    refine h.congr (fun wire' hwire' => h.wires wire' (mem_qd_of_rest hqd ?_))
      (apply_put QdState.stage _ rfl) (apply_put QdState.nReported _ rfl) (fun q => ?_)
      (fun r => ?_) fun _ => hdest ▸ hst
    · rwa [System.put, append_nil] at hwire'
    · show (rest ++ []).countP _ = _
      rw [append_nil, countP_of_off hqd (onEdge_of_start horg q)]
    · show (rest ++ []).countP _ = _
      rw [append_nil, countP_of_off hqd (isSelf_of_start horg r)]

/-- A message of the parent: the next stage begins here too. -/
theorem Staged.handle_parent (horg : wire.origin = .parent) : Handles t w rest wire := by
  have hlaw := h.lawful hqd
  have hst := h.stage_of_parent (mem_qd hqd) horg
  rw [Lawful, horg] at hlaw
  obtain ⟨hne, hlt, hphase⟩ := hlaw
  have hle := h.stage_le (t.parent wire.dest)
  have hself : ∀ r, wire.isSelf r = false := fun r => by simp [isSelf, horg]
  have hedge : wire.onEdge wire.dest = true := decide_eq_true (.inl ⟨horg, rfl⟩)
  have hothers : ∀ q, q ≠ wire.dest → wire.onEdge q = false := by
    intro q hq
    simp [onEdge, horg, Ne.symm hq]
  have hclear : Clear t w rest wire.dest :=
    h.clear_of_off hqd hst (fun q hq => hothers q (child_ne hq)) (hself _)
  have hown : w.load wire.dest = 1 ∧ rest.countP (onEdge wire.dest) = 0 := by
    have hload := h.load_le _ hne hlt
    rw [System.load, countP_wire hqd, hedge, if_pos rfl, if_pos hst] at hload ⊢
    omega
  rcases (by omega : wire.msg.phase = 0 ∨ wire.msg.phase = 1) with h0 | h1
  · refine ⟨_, callWhenIdle_parent_zero hne hst h0,
      .asked hne (decide_eq_true ⟨horg, rfl, h0⟩) hst, ?_⟩
    exact h.broadcast hqd hlt hclear (bcastQD1_broadcasts ..) fun _ => ⟨by omega, hown⟩
  · refine ⟨_, callWhenIdle_parent_one hne hst h1, .checked hne horg h1 hst, ?_⟩
    exact h.broadcast hqd hlt hclear (bcastQD2_broadcasts ..) fun _ => ⟨by omega, hown⟩

/-- Every message of the detection is handled. -/
theorem Staged.handle : Handles t w rest wire := by
  cases horg : wire.origin with
  | start => exact h.handle_start hqd horg
  | parent => exact h.handle_parent hqd horg
  | child q => exact h.handle_report hqd (.inl ⟨q, horg⟩)
  | self => exact h.handle_report hqd (.inr horg)

end Handling

/-! ## Runs -/

theorem user_same {β : Type} (g : QdState Cb → β) (f : QdState Cb → QdState Cb)
    (hg : ∀ s, g (f s) = g s) (r : Nat) : g (update w.pes p (f (w.pes p)) r) = g (w.pes r) := by
  by_cases hr : r = p
  · rw [hr, update_self, hg]
  · rw [update_of_ne hr]

/-- The user's program does not touch the state of the detection. -/
theorem Staged.user (h : Staged t w) {f : QdState Cb → QdState Cb} {net : List Nat}
    (hst : ∀ s, (f s).stage = s.stage) (hreported : ∀ s, (f s).nReported = s.nReported)
    (hcbs : ∀ s, (f s).callbacks = s.callbacks) :
    Staged t { w with pes := update w.pes p (f (w.pes p)), busy := busy, net := net } := by
  refine h.congr h.wires (user_same _ f hst) (user_same _ f hreported) (fun _ => rfl)
    (fun _ => rfl) fun hcb => h.callbacks ?_
  rwa [user_same _ f hcbs] at hcb

theorem Staged.step (h : Staged t w) {e : Event Cb} (hstep : Step t w e w') : Staged t w' := by
  cases hstep with
  | send | process => exact h.user (fun _ => rfl) (fun _ => rfl) fun _ => rfl
  | finish =>
    exact h.congr h.wires (fun _ => rfl) (fun _ => rfl) (fun _ => rfl) (fun _ => rfl) h.callbacks
  | @startQD cb =>
    refine h.congr (forall_mem_concat h.wires ⟨rfl, rfl⟩) (fun _ => rfl) (fun _ => rfl)
      (fun q => ?_) (fun r => ?_)
      h.callbacks
    · rw [countP_append, countP_singleton]
      rfl
    · rw [countP_append, countP_singleton]
      rfl
  | handle hqd hidle ho =>
    obtain ⟨o, ho', -, hstaged⟩ := h.handle (qd_perm hqd)
    rw [ho'] at ho
    cases ho
    exact hstaged

theorem staged_of_run {es : List (Event Cb)}
    (hrun : Run (Step t) (initialSystem busy) es w) : Staged t w :=
  hrun.invariant (staged_initial busy) fun _ _ _ h hstep => h.step hstep

/-! ### What a processor can receive -/

section Kinds

variable (h : Staged t w) (hwire : wire ∈ w.qd)

include h hwire

/-- The messages by phase and stage of the receiver. -/
theorem Staged.kinds : wire.origin = .start ∧ wire.dest = 0 ∧ wire.msg.phase = 0 ∨
      wire.origin = .parent ∧ (w.pes wire.dest).stage = 0 ∧ wire.msg.phase ≤ 1 ∨
      wire.Reports ∧ wire.msg.phase ≠ 0 ∧ wire.msg.phase = (w.pes wire.dest).stage := by
  have hlaw := h.wires wire hwire
  cases horg : wire.origin with
  | start =>
    rw [Lawful, horg] at hlaw
    exact .inl ⟨rfl, hlaw⟩
  | parent =>
    have hst := h.stage_of_parent hwire horg
    rw [Lawful, horg] at hlaw
    have hle := h.stage_le (t.parent wire.dest)
    exact .inr (.inl ⟨rfl, hst, by omega⟩)
  | child q => exact .inr (.inr ⟨.inl ⟨q, horg⟩, (hlaw.report_dest (.inl ⟨q, horg⟩)).2⟩)
  | self => exact .inr (.inr ⟨.inr horg, (hlaw.report_dest (.inr horg)).2⟩)

theorem Staged.phase_one (hphase : wire.msg.phase = 1) :
    (w.pes wire.dest).stage = 1 ∧ ((∃ q ∈ t.children wire.dest, wire.origin = .child q) ∨
        wire.origin = .self) ∨ (w.pes wire.dest).stage = 0 ∧ wire.origin = .parent := by
  rcases h.kinds hwire with ⟨-, -, h0⟩ | ⟨horg, hst, -⟩ | ⟨hrep, -, hst⟩
  · omega
  · exact .inr ⟨hst, horg⟩
  · refine .inl ⟨hst.symm.trans hphase, hrep.imp_left ?_⟩
    rintro ⟨q, horg⟩
    have hlaw := h.wires wire hwire
    rw [Lawful, horg] at hlaw
    exact ⟨q, t.mem_children.2 ⟨hlaw.1, hlaw.2.1, hlaw.2.2.1.symm⟩, horg⟩

theorem Staged.phase_zero (hne : wire.dest ≠ 0) (hphase : wire.msg.phase = 0) :
    (w.pes wire.dest).stage = 0 := by
  rcases h.kinds hwire with ⟨-, hdest, -⟩ | ⟨-, hst, -⟩ | ⟨-, hpos, -⟩
  · exact absurd hdest hne
  · exact hst
  · exact absurd hphase hpos

theorem Staged.phase_two (hphase : wire.msg.phase = 2) : (w.pes wire.dest).stage = 2 := by
  rcases h.kinds hwire with ⟨-, -, h0⟩ | ⟨-, -, hle⟩ | ⟨-, -, hst⟩
  · omega
  · omega
  · exact hst.symm.trans hphase

end Kinds

theorem Staged.nReported_le (h : Staged t w) (hp : p < t.size) :
    (w.pes p).nReported ≤ (t.children p).length + 1 := by
  by_cases hst : (w.pes p).stage = 0
  · rw [h.rest p hst]
    exact Nat.zero_le _
  · have htally := h.tally p hp hst
    omega

/-- A report that is on its way has not been counted. -/
theorem Staged.nReported_lt (h : Staged t w) (hwire : wire ∈ w.qd)
    (hst : (w.pes wire.dest).stage ≠ 0) (hphase : wire.msg.phase ≠ 0) :
    (w.pes wire.dest).nReported + 1 ≤ (t.children wire.dest).length + 1 := by
  have hlaw := h.wires wire hwire
  have hrep : wire.Reports := by
    rcases h.kinds hwire with ⟨-, -, h0⟩ | ⟨-, h0, -⟩ | ⟨hrep, -⟩
    · exact absurd h0 hphase
    · exact absurd h0 hst
    · exact hrep
  obtain ⟨before, after, hqd⟩ := append_of_mem hwire
  let w1 : System Cb := { w with qd := before ++ after }
  have hout : ∑ q ∈ t.childSet wire.dest, w1.load q + w1.selfLoad wire.dest + 1 = _ :=
    h.outstanding (qd_perm hqd) hrep (fun _ _ => rfl) rfl
  have htally := h.tally _ (hlaw.report_dest hrep).1 hst
  omega

/-- The callback of a call of `CkStartQD`. -/
def Event.request : Event Cb → Option Cb
  | .startQD cb => some cb
  | _ => none

/-- Every callback that was asked for is on its way to processor 0, waits there or has been sent,
and only once. -/
theorem callbacks_accounted {es : List (Event Cb)} (hrun : Run (Step t) (initialSystem busy) es w) :
    (w.called ++ (w.pes 0).callbacks ++ w.qd.filterMap Wire.request).Perm
      (es.filterMap Event.request) := by
  induction hrun with
  | nil => exact .nil
  | @snoc es x y e hrun hlast ih =>
    rw [filterMap_append]
    refine .trans ?_ (ih.append_right _)
    cases hlast with
    | send =>
      simp only [user_same QdState.callbacks QdState.create fun _ => rfl]
      exact .of_eq (append_nil _).symm
    | process =>
      simp only [user_same QdState.callbacks QdState.process fun _ => rfl]
      exact .of_eq (append_nil _).symm
    | finish => exact .of_eq (append_nil _).symm
    | startQD =>
      rw [filterMap_append, ← append_assoc]
      exact .refl _
    | @handle before after wire o hqd hidle ho =>
      obtain ⟨o', ho', hreact, -⟩ := (staged_of_run hrun).handle (qd_perm hqd)
      cases ho'.symm.trans ho
      obtain ⟨hcbs, hsent⟩ := hreact.callbacks
      have hrest : wire.request.toList ++ (x.put wire.dest (before ++ after) o).qd.filterMap
        Wire.request =
          (wire :: (before ++ after)).filterMap Wire.request := by
        cases hreq : wire.request <;> simp [System.put, hsent, hreq]
      rw [hcbs, append_assoc, hrest]
      exact (((qd_perm hqd).filterMap _).symm.append_left _).trans (.of_eq (append_nil _).symm)

/-- No assertion of the detection fails and no abort is reached, whatever message is handled next; a
processor tells the messages apart by its stage; no more reports are counted than there are children
and the processor itself; every callback that was asked for is on its way to processor 0, waits
there or has been sent, once; and while a callback waits processor 0 is in stage 1 or 2. -/
theorem detection_never_fails (t : SpanTree) (busy : Nat → Bool) {es : List (Event Cb)}
    {w : System Cb} (hrun : Run (Step t) (initialSystem busy) es w) :
    (∀ wire ∈ w.qd, callWhenIdle t wire.dest (w.pes wire.dest) wire.msg ≠ none) ∧
    (∀ wire ∈ w.qd, wire.dest ≠ 0 → wire.msg.phase = 0 → (w.pes wire.dest).stage = 0) ∧
    (∀ wire ∈ w.qd, wire.msg.phase = 1 →
      (w.pes wire.dest).stage = 1 ∧ ((∃ q ∈ t.children wire.dest, wire.origin = .child q) ∨
          wire.origin = .self) ∨ (w.pes wire.dest).stage = 0 ∧ wire.origin = .parent) ∧
    (∀ wire ∈ w.qd, wire.msg.phase = 2 → (w.pes wire.dest).stage = 2) ∧
    (∀ p < t.size, (w.pes p).nReported ≤ (t.children p).length + 1) ∧
    (∀ wire ∈ w.qd, (w.pes wire.dest).stage ≠ 0 → wire.msg.phase ≠ 0 →
      (w.pes wire.dest).nReported + 1 ≤ (t.children wire.dest).length + 1) ∧
    (w.called ++ (w.pes 0).callbacks ++ w.qd.filterMap Wire.request).Perm
      (es.filterMap Event.request) ∧
    ((w.pes 0).callbacks ≠ [] → (w.pes 0).stage = 1 ∨ (w.pes 0).stage = 2) := by
  have h := staged_of_run hrun
  refine ⟨fun wire hwire => ?_, fun wire => h.phase_zero, fun wire => h.phase_one,
    fun wire => h.phase_two, fun p => h.nReported_le, fun wire => h.nReported_lt,
    callbacks_accounted hrun, fun hcb => ?_⟩
  · obtain ⟨before, after, hqd⟩ := append_of_mem hwire
    obtain ⟨o, ho, -⟩ := h.handle (qd_perm hqd)
    rw [ho]
    exact some_ne_none o
  · have hne := h.callbacks hcb
    have hle := h.stage_le 0
    omega

/-- Two processors. -/
def pairTree : SpanTree where
  size := 2
  parent _ := 0
  children p := if p = 0 then [1] else []
  depth p := p
  size_pos := by decide
  nodup p := by split <;> simp
  mem_children {p q} := by
    split
    · simp only [mem_singleton]
      omega
    · simp only [not_mem_nil, false_iff]
      omega
  parent_lt _ _ := by decide
  depth_parent hq _ := Nat.pos_of_ne_zero hq

/-- Three requests, of which two have been handled: a round has begun, and two callbacks wait. -/
theorem detection_never_fails_pair :
    ∃ (es : List (Event Nat)) (w : System Nat), Run (Step pairTree)
    (initialSystem fun _ => false) es w ∧
      (w.pes 0).callbacks = [7, 8] ∧ (w.pes 0).stage = 1 ∧ w.qd.length = 3 ∧
      (∀ wire ∈ w.qd, callWhenIdle pairTree wire.dest (w.pes wire.dest) wire.msg ≠ none) ∧
      (w.called ++ (w.pes 0).callbacks ++ w.qd.filterMap Wire.request).Perm [7, 8, 9] := by
  have hrun : Run (Step pairTree) (initialSystem fun _ => false)
      [.startQD 7, .startQD 8, .startQD 9, .handle _, .handle _] _ :=
    .cons .startQD <| .cons .startQD <| .cons .startQD <|
      .cons (.handle (show _ = [] ++ _ from rfl) rfl rfl) <|
      .single (.handle (show _ = [] ++ _ from rfl) rfl rfl)
  have h := detection_never_fails pairTree _ hrun
  exact ⟨_, _, hrun, rfl, rfl, rfl, h.1, h.2.2.2.2.2.2.1⟩

end CharmRuntime.Quiescence
