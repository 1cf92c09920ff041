import CharmRuntime.Quiescence.Stages
import Mathlib.Tactic.Abel
import Mathlib.Algebra.Order.Group.Int

/-!
# The counts of the detection

The counts that processor 0 adds up were sampled at different times. A processor takes part in the
rounds one after another, at most one round behind its parent (`InStep`), and what a round has
gathered so far, on all processors and in the reports on their way, is the sum of the samples of the
processors that it has reached (`Gathered`).
-/

set_option autoImplicit false

namespace CharmRuntime.Quiescence

open Lib Finset Wire

variable {Cb : Type} {t : SpanTree} {w w' : System Cb} {p q : Nat}

/-! ## Rounds -/

/-- A processor is one round behind its parent as long as it has not been asked. -/
def InStep (t : SpanTree) (w : System Cb) : Prop :=
  ∀ q, q ≠ 0 → q < t.size →
    (w.pes q).rounds + w.qd.countP (asks q) = (w.pes (t.parent q)).rounds

variable {wire : Wire Cb}

theorem Wire.onEdge_of_asks (h : wire.asks q = true) : wire.onEdge q = true := by
  obtain ⟨horg, hdest, -⟩ := of_decide_eq_true h
  exact decide_eq_true (.inl ⟨horg, hdest⟩)

/-- Where nothing is on the edge, nobody is asked. -/
theorem countP_asks_eq_zero {qd : List (Wire Cb)} (h : qd.countP (onEdge q) = 0) :
    qd.countP (asks q) = 0 :=
  Nat.le_zero.1 (h ▸ List.countP_mono_left fun _ _ => onEdge_of_asks)

/-- A processor that is not in stage 0 has been reached by the round, and is in the stage of the
root. -/
theorem Staged.reached (h : Staged t w) (hr : InStep t w) (hp : p < t.size)
    (hst : (w.pes p).stage ≠ 0) :
    (w.pes p).rounds = (w.pes 0).rounds ∧ (w.pes p).stage = (w.pes 0).stage := by
  refine t.node_induction (P := fun p => (w.pes p).stage ≠ 0 →
    (w.pes p).rounds = (w.pes 0).rounds ∧ (w.pes p).stage = (w.pes 0).stage) (fun _ => ⟨rfl, rfl⟩)
    (fun q hne hlt ih hst => ?_) hp hst
  have heq := h.stages q hne hlt hst
  have hload := h.load_le q hne hlt
  rw [System.load, if_neg hst] at hload
  have hasks := countP_asks_eq_zero (by omega : w.qd.countP (onEdge q) = 0)
  have hstep := hr q hne hlt
  obtain ⟨hrounds, hstages⟩ := ih (heq ▸ hst)
  exact ⟨by omega, heq.trans hstages⟩

variable {rest : List (Wire Cb)} {o : Outcome Cb}

theorem bcastQD1_countP_asks (s : QdState Cb) (msg : QdMsg Cb) (q : Nat) :
    (bcastQD1 t p s msg).sent.countP (asks q) = if q ∈ t.childSet p then 1 else 0 := by
  rw [← (bcastQD1_broadcasts (t := t) s msg).countP_edge q]
  refine List.countP_congr fun wire hwire => ?_
  rcases List.mem_append.1 hwire with hwire | hwire
  · obtain ⟨r, -, rfl⟩ := List.mem_map.1 hwire
    simp [asks, onEdge]
  · obtain rfl := List.mem_singleton.1 hwire
    simp [asks, onEdge]

theorem bcastQD2_countP_asks (s : QdState Cb) (msg : QdMsg Cb) (q : Nat) :
    (bcastQD2 t p s msg).sent.countP (asks q) = 0 := by
  rw [List.countP_eq_zero]
  intro wire hwire
  rcases List.mem_append.1 hwire with hwire | hwire
  · obtain ⟨r, -, rfl⟩ := List.mem_map.1 hwire
    simp [asks]
  · obtain rfl := List.mem_singleton.1 hwire
    simp [asks]

theorem Wire.Reports.asks_eq (h : wire.Reports) (q : Nat) : wire.asks q = false := by
  rcases h with ⟨r, horg⟩ | horg <;> simp [asks, horg]

theorem countP_put (rest : List (Wire Cb)) (f : Wire Cb → Bool) :
    (w.put p rest o).qd.countP f = rest.countP f + o.sent.countP f := List.countP_append

/-! ## Sums -/

/-- What the processor has added up in this round. -/
def QdState.gathered (s : QdState Cb) : Int × Int := (s.cCreated, s.cProcessed)

/-- The counts at the last `bcastQD1`. -/
def QdState.sample (s : QdState Cb) : Int × Int := (s.sampled, s.oProcessed)

/-- The counts in a report of stage 1. -/
def Wire.counts (wire : Wire Cb) : Int × Int :=
  match wire.origin with
  | .child _ | .self =>
    if wire.msg.phase = 1 then (wire.msg.created, wire.msg.processed) else 0
  | _ => 0

/-- All that a round has added up so far. -/
def System.gathered (t : SpanTree) (w : System Cb) : Int × Int :=
  ∑ p ∈ range t.size, (w.pes p).gathered + (w.qd.map counts).sum

/-- The samples of the processors that the round has reached. -/
def System.sampled (t : SpanTree) (w : System Cb) : Int × Int :=
  ∑ p ∈ range t.size, if (w.pes p).rounds = (w.pes 0).rounds then (w.pes p).sample else 0

/-- The sums of a round. -/
structure Gathered (t : SpanTree) (w : System Cb) : Prop where
  idle : ∀ p, (w.pes p).stage ≠ 1 → (w.pes p).gathered = 0
  sums : (w.pes 0).stage = 1 → w.gathered t = w.sampled t

theorem Wire.Reports.counts_eq (h : wire.Reports) (hphase : wire.msg.phase = 1) :
    wire.counts = (wire.msg.created, wire.msg.processed) := by
  rcases h with ⟨q, horg⟩ | horg <;> rw [counts, horg] <;> simp [hphase]

theorem Wire.counts_of_parent (h : wire.origin = .parent) : wire.counts = 0 := by
  rw [counts, h]

theorem Wire.counts_of_start (h : wire.origin = .start) : wire.counts = 0 := by
  rw [counts, h]

theorem bcastQD1_counts (s : QdState Cb) (msg : QdMsg Cb) :
    ((bcastQD1 t p s msg).sent.map counts).sum = (s.mCreated, s.mProcessed) := by
  have hdown : ((propagate t p { msg with phase := 0 }).map counts).sum = 0 := by
    refine List.sum_eq_zero fun c hc => ?_
    obtain ⟨wire, hwire, rfl⟩ := List.mem_map.1 hc
    obtain ⟨q, -, rfl⟩ := List.mem_map.1 hwire
    rfl
  show ((propagate t p { msg with phase := 0 } ++ [_]).map counts).sum = _
  rw [List.map_append, List.sum_append, hdown, zero_add]
  simp [counts]

/-- The samples stay as they are. -/
theorem sampled_put_keep (rest : List (Wire Cb)) (hrounds : o.state.rounds = (w.pes p).rounds)
    (hsample : o.state.sample = (w.pes p).sample) : (w.put p rest o).sampled t = w.sampled t := by
  refine sum_congr rfl fun r _ => ?_
  rw [apply_put QdState.rounds rest hrounds r, apply_put QdState.rounds rest hrounds 0,
    apply_put QdState.sample rest hsample r]

/-- A round reaches one more processor. -/
theorem sampled_put_reach (rest : List (Wire Cb)) (hne : p ≠ 0) (hp : p < t.size)
    (hbefore : (w.pes p).rounds ≠ (w.pes 0).rounds) (hafter : o.state.rounds = (w.pes 0).rounds) :
    (w.put p rest o).sampled t = w.sampled t + o.state.sample := by
  have hroot : (w.put p rest o).pes 0 = w.pes 0 := put_pes_of_ne hne.symm
  have hoff := sum_add_of_eq_off
    (f := fun r => if (w.pes r).rounds = (w.pes 0).rounds then (w.pes r).sample else 0)
    (g := fun r => if ((w.put p rest o).pes r).rounds = ((w.put p rest o).pes 0).rounds then
      ((w.put p rest o).pes r).sample else 0) (mem_range.2 hp)
    fun r _ hr => by rw [hroot, put_pes_of_ne hr]
  rw [if_neg hbefore, add_zero, hroot, put_pes_self, if_pos hafter] at hoff
  rw [System.sampled, System.sampled, hroot]
  exact hoff

theorem Lawful.dest_lt (h : Lawful t w wire) : wire.dest < t.size := by
  cases horg : wire.origin with
  | start =>
    rw [Lawful, horg] at h
    exact h.1 ▸ t.size_pos
  | parent =>
    rw [Lawful, horg] at h
    exact h.2.1
  | child q => exact (h.report_dest (.inl ⟨q, horg⟩)).1
  | self => exact (h.report_dest (.inr horg)).1

/-! ## A handled message -/

variable (hqd : w.qd.Perm (wire :: rest))

include hqd

/-- A handler that begins no round. -/
theorem InStep.keep (h : InStep t w)
    (hrounds : o.state.rounds = (w.pes wire.dest).rounds) (hwire : ∀ q, wire.asks q = false)
    (hsent : ∀ q, o.sent.countP (asks q) = 0) : InStep t (w.put wire.dest rest o) := by
  have hsame := apply_put QdState.rounds rest hrounds
  intro q hne hlt
  have hq := h q hne hlt
  rw [countP_of_off hqd (hwire q)] at hq
  rw [hsame, hsame, countP_put, hsent, add_zero]
  exact hq

/-- A handler that begins a round or passes it on. -/
theorem InStep.pass (h : InStep t w) (hrounds : o.state.rounds = (w.pes wire.dest).rounds + 1)
    (hwire : ∀ q, q ≠ 0 → (wire.asks q = true ↔ q = wire.dest))
    (hsent : ∀ q, o.sent.countP (asks q) = if q ∈ t.childSet wire.dest then 1 else 0) :
    InStep t (w.put wire.dest rest o) := by
  intro q hne hlt
  have hq := h q hne hlt
  rw [countP_wire hqd] at hq
  rw [countP_put, hsent]
  by_cases hqp : q = wire.dest
  · subst hqp
    have hpar : t.parent wire.dest ≠ wire.dest := t.parent_ne hne hlt
    rw [if_pos ((hwire _ hne).2 rfl)] at hq
    rw [put_pes_self, hrounds, put_pes_of_ne hpar,
      if_neg fun hmem => hpar (t.mem_childSet.1 hmem).2.2]
    omega
  · rw [if_neg fun hasks => hqp ((hwire q hne).1 hasks)] at hq
    rw [put_pes_of_ne hqp]
    by_cases hpar : t.parent q = wire.dest
    · rw [hpar, put_pes_self, hrounds, if_pos (t.mem_childSet.2 ⟨hne, hlt, hpar⟩)]
      rw [hpar] at hq
      omega
    · rw [put_pes_of_ne hpar, if_neg fun hmem => hpar (t.mem_childSet.1 hmem).2.2]
      omega

theorem InStep.react (h : InStep t w) (hr : Reaction t w rest wire o) :
    InStep t (w.put wire.dest rest o) := by
  have hnil : ∀ q, ([] : List (Wire Cb)).countP (asks q) = 0 := fun _ => rfl
  cases hr with
  | noted hdest horg => exact h.keep hqd rfl (fun q => by simp [asks, horg]) hnil
  | begun s hdest horg hclear hs =>
    refine h.pass hqd (congrArg (· + 1) hs.2.2.1) (fun q hne => ?_)
      (bcastQD1_countP_asks s wire.msg)
    have hfalse : wire.asks q = false := by
      rcases horg with horg | hrep
      · simp [asks, horg]
      · exact hrep.asks_eq q
    rw [hfalse, hdest]
    exact ⟨Bool.false_ne_true.elim, hne.elim⟩
  | asked hdest hasks hst =>
    refine h.pass hqd rfl (fun q _ => ?_) (bcastQD1_countP_asks _ wire.msg)
    obtain ⟨horg, -, hphase⟩ := of_decide_eq_true hasks
    simp [asks, horg, hphase, eq_comm]
  | matched hdest hrep => exact h.keep hqd rfl hrep.asks_eq (bcastQD2_countP_asks _ wire.msg)
  | checked hdest horg hphase =>
    exact h.keep hqd rfl (fun q => by simp [asks, hphase]) (bcastQD2_countP_asks _ wire.msg)
  | counted hrep | answered hrep | detected hrep => exact h.keep hqd rfl hrep.asks_eq hnil
  | reported hrep | replied hrep =>
    exact h.keep hqd rfl hrep.asks_eq fun q => by simp [asks]

theorem sum_counts_wire : (w.qd.map counts).sum = (rest.map counts).sum + wire.counts := by
  rw [(hqd.map counts).sum_eq, List.map_cons, List.sum_cons, add_comm]

/-- What a handler takes out of the sum and what it puts in. -/
theorem gathered_put (hp : wire.dest < t.size) :
    (w.put wire.dest rest o).gathered t + ((w.pes wire.dest).gathered + wire.counts) =
      w.gathered t + (o.state.gathered + (o.sent.map counts).sum) := by
  have hsum : ∑ p ∈ range t.size, ((w.put wire.dest rest o).pes p).gathered +
      (w.pes wire.dest).gathered = ∑ p ∈ range t.size, (w.pes p).gathered + o.state.gathered := by
    have hoff := sum_add_of_eq_off (f := fun p => (w.pes p).gathered)
      (g := fun p => ((w.put wire.dest rest o).pes p).gathered) (mem_range.2 hp)
      fun q _ hq => by rw [put_pes_of_ne hq]
    rwa [put_pes_self] at hoff
  have hqd' : ((w.put wire.dest rest o).qd.map counts).sum =
      (rest.map counts).sum + (o.sent.map counts).sum := by
    show ((rest ++ o.sent).map counts).sum = _
    rw [List.map_append, List.sum_append]
  rw [System.gathered, System.gathered, hqd', sum_counts_wire hqd, add_add_add_comm, hsum]
  abel

variable (h : Staged t w)

include h

theorem Staged.reaction (ho : callWhenIdle t wire.dest (w.pes wire.dest) wire.msg = some o) :
    Reaction t w rest wire o := by
  obtain ⟨o', ho', hreact, -⟩ := h.handle hqd
  rw [ho'] at ho
  cases ho
  exact hreact

section Clear

variable (hdest : wire.dest = 0) (hclear : Clear t w rest 0)

include hdest hclear

/-- Everything below a processor around which nothing is outstanding is at rest. -/
theorem Staged.at_rest (hne : q ≠ 0) (hlt : q < t.size) :
    (w.pes q).stage = 0 ∧ rest.countP (onEdge q) = 0 ∧ rest.countP (isSelf q) = 0 := by
  have hlaw := h.lawful hqd
  have hself : ∀ q, q ≠ 0 → (w.pes q).stage = 0 → rest.countP (isSelf q) = 0 := by
    intro q hne hst
    have hq := h.selfLoad_eq hst
    rw [System.selfLoad, countP_of_off hqd (hlaw.elsewhere.2 q (hdest ▸ hne))] at hq
    exact hq
  refine t.node_induction (P := fun q => q ≠ 0 → (w.pes q).stage = 0 ∧
    rest.countP (onEdge q) = 0 ∧ rest.countP (isSelf q) = 0)
    (fun h => absurd rfl h) (fun q hne hlt ih _ => ?_) hlt hne
  by_cases hpar : t.parent q = 0
  · obtain ⟨hedge, hst⟩ := hclear.edge q (t.mem_childSet.2 ⟨hne, hlt, hpar⟩)
    exact ⟨hst, hedge, hself q hne hst⟩
  · have hload := h.load_child (ih hpar).1 (t.mem_childSet.2 ⟨hne, hlt, rfl⟩)
    rw [System.load, countP_of_off hqd (hlaw.elsewhere.1 q (hdest ▸ hne) (hdest ▸ hpar))] at hload
    split at hload
    · next hst => exact ⟨hst, by omega, hself q hne hst⟩
    · omega

/-- Then all processors have taken part in the same number of rounds. -/
theorem InStep.eq_root (hr : InStep t w) (hlt : q < t.size) :
    (w.pes q).rounds = (w.pes 0).rounds := by
  refine t.node_induction (P := fun q => (w.pes q).rounds = (w.pes 0).rounds) rfl
    (fun q hne hlt ih => ?_) hlt
  have hasks : w.qd.countP (asks q) = 0 := by
    have hfalse : wire.asks q = false := by
      refine Bool.eq_false_iff.2 fun hasks => hne ?_
      rw [← hdest]
      exact (of_decide_eq_true hasks).2.1.symm
    rw [countP_of_off hqd hfalse]
    exact countP_asks_eq_zero (h.at_rest hqd hdest hclear hne hlt).2.1
  have hstep := hr q hne hlt
  omega

theorem Staged.rest_counts : (rest.map counts).sum = 0 := by
  refine List.sum_eq_zero fun c hc => ?_
  obtain ⟨wire', hwire', rfl⟩ := List.mem_map.1 hc
  have hlaw := h.wires wire' (mem_qd_of_rest hqd hwire')
  have hoff : ∀ {f : Wire Cb → Bool}, rest.countP f = 0 → f wire' = false :=
    fun hf => Bool.eq_false_iff.2 (List.countP_eq_zero.1 hf wire' hwire')
  rw [counts]
  split
  · next q horg =>
    rw [Lawful, horg] at hlaw
    have hedge := hoff (h.at_rest hqd hdest hclear hlaw.1 hlaw.2.1).2.1
    rw [onEdge_of_child horg] at hedge
    exact absurd rfl (of_decide_eq_false hedge)
  · next horg =>
    rw [Lawful, horg] at hlaw
    have hself : wire'.isSelf wire'.dest = false := by
      by_cases h0 : wire'.dest = 0
      · rw [h0]
        exact hoff hclear.self
      · exact hoff (h.at_rest hqd hdest hclear h0 hlaw.1).2.2
    rw [isSelf_of_self horg] at hself
    cases hself
  · rfl

variable (hg : Gathered t w)

include hg

theorem Gathered.idle_rest (hq : q ∈ range t.size) (hne : q ≠ 0) : (w.pes q).gathered = 0 := by
  refine hg.idle q ?_
  rw [(h.at_rest hqd hdest hclear hne (mem_range.1 hq)).1]
  decide

/-- With its last report the round has added up the samples of all processors. -/
theorem Gathered.total (hr : InStep t w) (hrep : wire.Reports) (hphase : wire.msg.phase = 1)
    (hst : (w.pes 0).stage = 1) : (w.pes 0).gathered + (wire.msg.created, wire.msg.processed) =
      ∑ p ∈ range t.size, (w.pes p).sample := by
  have hsums := hg.sums hst
  have hgath : ∑ p ∈ range t.size, (w.pes p).gathered = (w.pes 0).gathered :=
    sum_eq_single_of_mem 0 (mem_range.2 t.size_pos) fun q => hg.idle_rest hqd h hdest hclear
  have hsampled : w.sampled t = ∑ p ∈ range t.size, (w.pes p).sample := by
    refine sum_congr rfl fun q hq => ?_
    rw [if_pos (hr.eq_root hqd h hdest hclear (mem_range.1 hq))]
  rw [System.gathered, hgath, sum_counts_wire hqd, h.rest_counts hqd hdest hclear, zero_add,
    hrep.counts_eq hphase, hsampled] at hsums
  exact hsums

/-- Processor 0 begins a round. -/
theorem Gathered.begin (hr : InStep t w) {s : QdState Cb}
    (hrounds : s.rounds = (w.pes wire.dest).rounds) :
    Gathered t (w.put wire.dest rest (bcastQD1 t wire.dest s wire.msg)) := by
  rw [hdest] at hrounds ⊢
  refine ⟨forall_put (P := fun _ s => s.stage ≠ 1 → s.gathered = 0) _ (fun _ => rfl)
    fun r _ => hg.idle r, fun _ => ?_⟩
  · have hgath : ∑ q ∈ range t.size,
        ((w.put 0 rest (bcastQD1 t 0 s wire.msg)).pes q).gathered = 0 := by
      refine sum_eq_zero fun q hq => ?_
      by_cases h0 : q = 0
      · rw [h0, put_pes_self]
        rfl
      · rw [put_pes_of_ne h0]
        exact hg.idle_rest hqd h hdest hclear hq h0
    -- the others are one round behind
    have hsampled : (w.put 0 rest (bcastQD1 t 0 s wire.msg)).sampled t =
        (s.mCreated, s.mProcessed) := by
      rw [System.sampled, sum_eq_single_of_mem 0 (mem_range.2 t.size_pos), if_pos rfl, put_pes_self]
      · rfl
      · intro q hq hne
        rw [put_pes_self, put_pes_of_ne hne, hr.eq_root hqd h hdest hclear (mem_range.1 hq)]
        refine if_neg ?_
        show (w.pes 0).rounds ≠ s.rounds + 1
        omega
    have hcounts : ((w.put 0 rest (bcastQD1 t 0 s wire.msg)).qd.map counts).sum =
        (s.mCreated, s.mProcessed) := by
      show ((rest ++ _).map counts).sum = _
      rw [List.map_append, List.sum_append, h.rest_counts hqd hdest hclear, zero_add]
      exact bcastQD1_counts s wire.msg
    rw [System.gathered, hgath, zero_add, hcounts, hsampled]

end Clear

variable (hg : Gathered t w)

include hg

/-- A handler that begins no round and whose sums balance. -/
theorem Gathered.keep (hidle : o.state.stage ≠ 1 → o.state.gathered = 0)
    (hroot : wire.dest = 0 → o.state.stage = 1 → (w.pes 0).stage = 1)
    (hrounds : o.state.rounds = (w.pes wire.dest).rounds)
    (hsample : o.state.sample = (w.pes wire.dest).sample)
    (hsum : (w.pes 0).stage = 1 → (wire.dest = 0 → o.state.stage = 1) →
      o.state.gathered + (o.sent.map counts).sum = (w.pes wire.dest).gathered + wire.counts) :
    Gathered t (w.put wire.dest rest o) := by
  have hp := (h.lawful hqd).dest_lt
  refine ⟨forall_put (P := fun _ s => s.stage ≠ 1 → s.gathered = 0) _ hidle fun r _ => hg.idle r,
    fun hst => ?_⟩
  · have hstage' : (w.pes 0).stage = 1 := by
      by_cases h0 : 0 = wire.dest
      · refine hroot h0.symm ?_
        rwa [← h0, put_pes_self] at hst
      · rwa [put_pes_of_ne h0] at hst
    have hput := gathered_put (o := o) hqd hp
    rw [hsum hstage' fun h0 => by rwa [← h0, put_pes_self] at hst] at hput
    rw [sampled_put_keep _ hrounds hsample, ← hg.sums hstage']
    exact add_right_cancel hput

/-- The round reaches another processor. -/
theorem Gathered.reach (hr : InStep t w) (hdest : wire.dest ≠ 0)
    (hasks : wire.asks wire.dest = true) (hst : (w.pes wire.dest).stage = 0) :
    Gathered t (w.put wire.dest rest (bcastQD1 t wire.dest (w.pes wire.dest) wire.msg)) := by
  have hlaw := h.lawful hqd
  have hp := hlaw.dest_lt
  obtain ⟨horg, -, hphase⟩ := of_decide_eq_true hasks
  rw [Lawful, horg] at hlaw
  have hreached := (h.reached hr (t.parent_lt hdest hp) (by omega)).1
  have hload := h.load_le _ hdest hp
  have hedge := onEdge_of_asks hasks
  rw [System.load, countP_wire hqd, hedge, if_pos rfl] at hload
  have hzero := countP_asks_eq_zero (by omega : rest.countP (onEdge wire.dest) = 0)
  have hstep := hr _ hdest hp
  rw [countP_wire hqd, hasks, if_pos rfl, hzero] at hstep
  refine ⟨forall_put (P := fun _ s => s.stage ≠ 1 → s.gathered = 0) _ (fun _ => rfl)
    fun r _ => hg.idle r, fun hs => ?_⟩
  · rw [put_pes_of_ne hdest.symm] at hs
    have hput := gathered_put (o := bcastQD1 t wire.dest (w.pes wire.dest) wire.msg) hqd hp
    rw [bcastQD1_counts, hg.idle _ (by rw [hst]; decide), counts_of_parent horg, add_zero,
      add_zero, hg.sums hs] at hput
    rw [hput, sampled_put_reach _ hdest hp (by omega)]
    · exact congrArg _ (zero_add _)
    · show (w.pes wire.dest).rounds + 1 = (w.pes 0).rounds
      omega

theorem Gathered.react (hr : InStep t w) (hreact : Reaction t w rest wire o) :
    Gathered t (w.put wire.dest rest o) := by
  have hlaw := h.lawful hqd
  have hp := hlaw.dest_lt
  -- a processor in stage 2 is there because processor 0 is
  have hnot : ∀ p, p < t.size → (w.pes p).stage = 2 → (w.pes 0).stage ≠ 1 := by
    intro p hp hst h1
    have hreached := (h.reached hr hp (by rw [hst]; decide)).2
    omega
  cases hreact with
  | noted hdest horg =>
    refine hg.keep hqd h (hg.idle _) (fun h0 hs => h0 ▸ hs) rfl rfl fun _ _ => ?_
    rw [counts_of_start horg]
    rfl
  | begun s hdest horg hclear hs => exact hg.begin hqd h hdest hclear hr hs.2.2.1
  | asked hdest hasks hst => exact hg.reach hqd h hr hdest hasks hst
  | matched hdest hrep hst hclear hequal hold =>
    refine hg.keep hqd h (fun _ => rfl) (fun _ hs => ?_) rfl rfl fun _ hs => ?_
    · cases hs
    · cases hs hdest
  | checked hdest horg hphase hst =>
    refine hg.keep hqd h (fun _ => rfl) hdest.elim rfl rfl fun h1 => ?_
    rw [Lawful, horg, hphase] at hlaw
    exact absurd h1 (hnot _ (t.parent_lt hdest hp) hlaw.2.2.symm)
  | counted hrep hphase hst =>
    refine hg.keep hqd h (fun hne => absurd hst hne) (fun h0 hs => h0 ▸ hst) rfl rfl fun _ _ => ?_
    rw [hrep.counts_eq hphase]
    exact add_zero _
  | answered hrep hphase hst =>
    exact hg.keep hqd h (hg.idle _) (fun h0 hs => h0 ▸ hs) rfl rfl
      fun h1 => absurd h1 (hnot _ hp hst)
  | reported hrep hphase hdest hst =>
    refine hg.keep hqd h (fun _ => rfl) hdest.elim rfl rfl fun _ _ => ?_
    rw [hrep.counts_eq hphase, List.map_singleton, List.sum_singleton, counts]
    rw [if_pos hphase]
    exact zero_add _
  | replied hrep hphase hdest hst =>
    exact hg.keep hqd h (fun _ => rfl) hdest.elim rfl rfl
      fun h1 => absurd h1 (hnot _ hp hst)
  | detected hrep hdest hst =>
    refine hg.keep hqd h (fun _ => rfl) (fun _ hs => ?_) rfl rfl fun h1 => absurd h1 (hnot _ hp hst)
    cases hs

end CharmRuntime.Quiescence
