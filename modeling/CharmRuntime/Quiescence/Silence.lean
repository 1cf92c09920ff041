import CharmRuntime.Quiescence.Counts
import Mathlib.Algebra.BigOperators.Pi
import Mathlib.Algebra.Order.Group.Defs
import Mathlib.Algebra.Order.Monoid.Prod

/-!
# Detected quiescence

When a round ends with the sums of an earlier one, no processor has created or processed anything
between its samples in the two rounds. The beginning of the later round lies between them, so that
nothing was in flight or being processed then, and nothing can be created from then on until
processor 0 sends the callbacks (`callbacks_only_when_silent`).

What is known of the beginning of the round is kept as a snapshot (`Since`); the invariant of the
detection is `Sound`.
-/

set_option autoImplicit false

namespace CharmRuntime.Quiescence

open Lib Finset Function

variable {Cb : Type} {t : SpanTree} {w w' : System Cb} {p q : Nat}

/-! ## The invariant -/

/-- What the processor has created and processed. -/
def QdState.total (s : QdState Cb) : Int × Int := (s.mCreated, s.mProcessed)

/-- The counters of the processors and the messages in flight. -/
structure Tally (t : SpanTree) (w : System Cb) : Prop where
  conserved : (∑ q ∈ range t.size, (w.pes q).total).1 =
    (∑ q ∈ range t.size, (w.pes q).total).2 + w.net.length
  sample_le : ∀ q, (w.pes q).sample ≤ (w.pes q).total
  nonneg : ∀ q, 0 ≤ (w.pes q).oProcessed
  round : (w.pes 0).stage ≠ 0 → 0 < (w.pes 0).rounds
  /-- A sample is taken by an idle processor, which becomes busy only by processing a message.
  Processor 0 is also made busy by callbacks. -/
  busy : ∀ q, q ≠ 0 → 0 < (w.pes q).rounds → w.busy q = true →
    (w.pes q).oProcessed < (w.pes q).mProcessed

/-- The user's program at some moment. -/
structure Snapshot where
  total : Nat → Int × Int
  net : Nat
  busy : Nat → Bool

/-- No message is in flight or being processed. -/
def Snapshot.Silent (t : SpanTree) (u : Snapshot) : Prop :=
  u.net = 0 ∧ ∀ q < t.size, u.busy q = false

/-- An earlier round whose sums agreed: its samples `b` were taken before the moment `u`. -/
def Earlier (t : SpanTree) (u : Snapshot) (old : Int) (b : Nat → Int × Int) : Prop :=
  ∑ q ∈ range t.size, b q = (old, old) ∧
    ∀ q < t.size, b q ≤ u.total q ∧ (q ≠ 0 → u.busy q = true → (b q).2 < (u.total q).2)

/-- The last round began at the moment `u`. -/
structure Since (t : SpanTree) (w : System Cb) (u : Snapshot) : Prop where
  conserved : (∑ q ∈ range t.size, u.total q).1 = (∑ q ∈ range t.size, u.total q).2 + u.net
  root : u.busy 0 = false
  le : ∀ q, u.total q ≤ (w.pes q).total
  sample : ∀ q < t.size, (w.pes q).rounds = (w.pes 0).rounds → u.total q ≤ (w.pes q).sample
  earlier : (w.pes 0).oldCount = -1 ∨
    0 < (w.pes 0).rounds ∧ ∃ b, Earlier t u (w.pes 0).oldCount b
  silent : u.Silent t → (w.pes 0).stage ≠ 0 → w.Silent t

/-- The invariant of the detection. -/
structure Sound (t : SpanTree) (w : System Cb) : Prop where
  staged : Staged t w
  inStep : InStep t w
  gathered : Gathered t w
  tally : Tally t w
  since : ∃ u, Since t w u
  silent : (w.pes 0).stage = 2 → w.Silent t

section

variable (busy : Nat → Bool)

include busy

theorem tally_initial : Tally t (initialSystem busy : System Cb) where
  conserved := by simp [initialSystem, QdState.init, QdState.total]
  sample_le _ := le_rfl
  nonneg _ := le_rfl
  round h := absurd rfl h
  busy _ _ h := absurd h (lt_irrefl 0)

theorem since_initial :
    Since t (initialSystem busy : System Cb) ⟨fun _ => 0, 0, fun _ => false⟩ where
  conserved := by simp
  root := rfl
  le _ := le_rfl
  sample _ _ _ := le_rfl
  earlier := .inl rfl
  silent _ h := absurd rfl h

theorem gathered_initial : Gathered t (initialSystem busy : System Cb) :=
  ⟨fun _ _ => rfl, nofun⟩

theorem sound_initial : Sound t (initialSystem busy : System Cb) where
  staged := staged_initial busy
  inStep _ _ _ := rfl
  gathered := gathered_initial busy
  tally := tally_initial busy
  since := ⟨_, since_initial busy⟩
  silent h := nomatch h

end

/-! ## Handlers -/

variable {u : Snapshot}

section Handle

variable {rest : List (Wire Cb)} {wire : Wire Cb} {o : Outcome Cb}

/-- The counters that outlive a round are the same. -/
structure Steady (s s' : QdState Cb) : Prop where
  total : s'.total = s.total
  sample : s'.sample = s.sample
  oldCount : s'.oldCount = s.oldCount
  rounds : s'.rounds = s.rounds

theorem Steady.refl (s : QdState Cb) : Steady s s := ⟨rfl, rfl, rfl, rfl⟩

theorem Steady.put (h : Steady (w.pes p) o.state) (rest : List (Wire Cb)) (r : Nat) :
    Steady (w.pes r) ((w.put p rest o).pes r) :=
  forall_put (P := fun r s => Steady (w.pes r) s) rest h (fun _ _ => .refl _) r

theorem put_busy_of_nil (h : o.called = []) : (w.put p rest o).busy = w.busy :=
  if_pos h

theorem put_busy_of_ne (hq : q ≠ p) : (w.put p rest o).busy q = w.busy q := by
  show (if o.called = [] then w.busy else update w.busy p true) q = _
  split
  · rfl
  · exact update_of_ne hq _ _

theorem System.Silent.put (h : w.Silent t) (hcalled : o.called = []) :
    (w.put p rest o).Silent t := by
  refine ⟨h.1, ?_⟩
  rw [put_busy_of_nil hcalled]
  exact h.2

theorem Tally.conserved_put (h : Tally t w) (htotal : o.state.total = (w.pes p).total) :
    (∑ q ∈ range t.size, ((w.put p rest o).pes q).total).1 =
      (∑ q ∈ range t.size, ((w.put p rest o).pes q).total).2 + (w.put p rest o).net.length := by
  rw [sum_congr rfl fun q _ => apply_put QdState.total rest htotal q]
  exact h.conserved

/-- Only processor 0 sends callbacks, and its round is over then. -/
def Calls (p : Nat) (o : Outcome Cb) : Prop := o.called = [] ∨ p = 0 ∧ o.state.stage = 0

theorem Calls.none (hcalls : Calls p o) (hs : ((w.put p rest o).pes 0).stage ≠ 0) :
    o.called = [] := by
  rcases hcalls with hcalled | ⟨rfl, hzero⟩
  · exact hcalled
  · exact absurd hzero hs

section Keep

variable (hsame : Steady (w.pes p) o.state) (hcalls : Calls p o)
  (hst : p = 0 → o.state.stage ≠ 0 → (w.pes 0).stage ≠ 0)

include hst in
/-- Processor 0 was in a round before. -/
theorem stage_ne_of_put (hs : ((w.put p rest o).pes 0).stage ≠ 0) : (w.pes 0).stage ≠ 0 := by
  by_cases h0 : 0 = p
  · rw [← h0, put_pes_self] at hs
    exact hst h0.symm hs
  · rwa [put_pes_of_ne h0] at hs

include hsame hcalls hst

theorem Tally.keep (h : Tally t w) : Tally t (w.put p rest o) := by
  have hput := hsame.put rest
  have hproc : ∀ q, ((w.put p rest o).pes q).oProcessed = (w.pes q).oProcessed :=
    fun q => congrArg Prod.snd (hput q).sample
  refine ⟨h.conserved_put hsame.total, fun q => ?_, fun q => ?_, fun hs => ?_,
    fun q hne hr hb => ?_⟩
  · rw [(hput q).sample, (hput q).total]
    exact h.sample_le q
  · rw [hproc]
    exact h.nonneg q
  · rw [(hput 0).rounds]
    exact h.round (stage_ne_of_put hst hs)
  · rw [(hput q).rounds] at hr
    rw [hproc, show ((w.put p rest o).pes q).mProcessed = (w.pes q).mProcessed from
      congrArg Prod.snd (hput q).total]
    refine h.busy q hne hr ?_
    rcases hcalls with hcalled | ⟨h0, -⟩
    · rwa [put_busy_of_nil hcalled] at hb
    · rwa [put_busy_of_ne (h0 ▸ hne)] at hb

theorem Since.keep (h : Since t w u) : Since t (w.put p rest o) u := by
  have hput := hsame.put rest
  refine ⟨h.conserved, h.root, fun q => ?_, fun q hlt hr => ?_, ?_, fun hu hs => ?_⟩
  · rw [(hput q).total]
    exact h.le q
  · rw [(hput q).rounds, (hput 0).rounds] at hr
    rw [(hput q).sample]
    exact h.sample q hlt hr
  · rw [(hput 0).oldCount, (hput 0).rounds]
    exact h.earlier
  · exact (h.silent hu (stage_ne_of_put hst hs)).put (hcalls.none hs)

end Keep

variable {s : QdState Cb} {b : Nat → Int × Int} {old : Int}

/-- A sample is taken. -/
theorem Tally.take (h : Tally t w) (msg : QdMsg Cb)
    (htotal : s.total = (w.pes p).total) (hidle : w.busy p = false) :
    Tally t (w.put p rest (bcastQD1 t p s msg)) := by
  have hnonneg : 0 ≤ s.mProcessed := by
    rw [show s.mProcessed = (w.pes p).mProcessed from congrArg Prod.snd htotal]
    exact (h.nonneg p).trans (h.sample_le p).2
  refine ⟨h.conserved_put htotal,
    forall_put (P := fun _ s => s.sample ≤ s.total) rest le_rfl fun q _ => h.sample_le q,
    forall_put (P := fun _ s => 0 ≤ s.oProcessed) rest hnonneg fun q _ => h.nonneg q,
    fun hs => ?_, fun q hne hr hb => ?_⟩
  · by_cases h0 : 0 = p
    · rw [← h0, put_pes_self]
      exact Nat.succ_pos _
    · rw [put_pes_of_ne h0] at hs ⊢
      exact h.round hs
  · rw [put_busy_of_nil rfl] at hb
    by_cases hq : q = p
    · rw [hq, hidle] at hb
      cases hb
    · rw [put_pes_of_ne hq] at hr ⊢
      exact h.busy q hne hr hb

/-- The round that began at `u` reaches one more processor. -/
theorem Since.take (h : Since t w u) (msg : QdMsg Cb) (hp : p ≠ 0) :
    Since t (w.put p rest (bcastQD1 t p (w.pes p) msg)) u := by
  have hroot : (w.put p rest (bcastQD1 t p (w.pes p) msg)).pes 0 = w.pes 0 := put_pes_of_ne hp.symm
  refine ⟨h.conserved, h.root, fun q => ?_, fun q hlt hr => ?_, ?_, fun hu hs => ?_⟩
  · rw [apply_put QdState.total rest (o := bcastQD1 t p (w.pes p) msg) rfl]
    exact h.le q
  · by_cases hq : q = p
    · rw [hq, put_pes_self]
      exact h.le p
    · rw [hroot, put_pes_of_ne hq] at hr
      rw [put_pes_of_ne hq]
      exact h.sample q hlt hr
  · rw [hroot]
    exact h.earlier
  · rw [hroot] at hs
    exact (h.silent hu hs).put rfl

/-! ### A new round -/

/-- The user's program now. -/
def System.snapshot (w : System Cb) : Snapshot := ⟨fun q => (w.pes q).total, w.net.length, w.busy⟩

theorem System.silent_snapshot (h : w.snapshot.Silent t) : w.Silent t :=
  ⟨List.length_eq_zero_iff.1 h.1, h.2⟩

/-- Samples of the last round were taken before the present moment. -/
theorem Tally.earlier (h : Tally t w)
    (hsum : ∑ q ∈ range t.size, b q = (old, old)) (hle : ∀ q < t.size, b q ≤ (w.pes q).sample)
    (hrounds : ∀ q < t.size, 0 < (w.pes q).rounds) : Earlier t w.snapshot old b := by
  refine ⟨hsum, fun q hlt => ⟨(hle q hlt).trans (h.sample_le q), fun hne hbusy => ?_⟩⟩
  exact lt_of_le_of_lt (hle q hlt).2 (h.busy q hne (hrounds q hlt) hbusy)

/-- Terms between those of two equal sums leave no room for anything in flight. -/
theorem Since.silent_of_equal (h : Since t w u)
    (hb : Earlier t u old b) (hsample : ∀ q < t.size, u.total q ≤ (w.pes q).sample)
    (hsum : ∑ q ∈ range t.size, (w.pes q).sample = (old, old)) : u.Silent t := by
  have hle : ∑ q ∈ range t.size, u.total q ≤ ∑ q ∈ range t.size, b q := by
    rw [hb.1, ← hsum]
    exact sum_le_sum fun q hq => hsample q (mem_range.1 hq)
  have heq : ∀ q ∈ range t.size, b q = u.total q :=
    eq_of_sum_le_sum (fun q hq => (hb.2 q (mem_range.1 hq)).1) hle
  refine ⟨?_, fun q hlt => ?_⟩
  · have hconserved := h.conserved
    rw [← sum_congr rfl heq, hb.1] at hconserved
    omega
  · by_cases hq : q = 0
    · rw [hq]
      exact h.root
    · refine Bool.eq_false_iff.2 fun hbusy => ?_
      have hlt' := (hb.2 q hlt).2 hq hbusy
      rw [heq q (mem_range.2 hlt)] at hlt'
      exact lt_irrefl _ hlt'

section Clear

variable (h : Sound t w) (hqd : w.qd.Perm (wire :: rest)) (hdest : wire.dest = 0)
  (hclear : Clear t w rest 0)

include h hqd hdest hclear

/-- With its last report the round has the sums of its samples. -/
theorem Sound.sample_sum (hrep : wire.Reports) (hst : (w.pes 0).stage = 1)
    (hequal : (w.pes 0).cCreated + wire.msg.created = (w.pes 0).cProcessed + wire.msg.processed)
    (hold : old = (w.pes 0).cProcessed + wire.msg.processed) :
    ∑ q ∈ range t.size, (w.pes q).sample = (old, old) := by
  have hphase : wire.msg.phase = 1 := by
    have hlaw := (h.staged.lawful hqd).report_dest hrep
    rw [hlaw.2.2, hdest, hst]
  rw [← h.gathered.total hqd h.staged hdest hclear h.inStep hrep hphase hst, hold]
  exact Prod.ext hequal rfl

/-- What processor 0 remembers when it begins a round. -/
theorem Sound.remembers (hs : RoundFrom (w.pes wire.dest) s wire) :
    s.oldCount = -1 ∨ ∃ b, Earlier t w.snapshot s.oldCount b := by
  have hrounds : ∀ q < t.size, (w.pes q).rounds = (w.pes 0).rounds :=
    fun q => h.inStep.eq_root hqd h.staged hdest hclear
  obtain ⟨u, hu⟩ := h.since
  rw [hdest] at hs
  rcases hs.2.2.2.2 with hold | ⟨hst, hrep, hequal, hold⟩
  · rw [hold]
    rcases hu.earlier with hnone | ⟨hpos, b, hsum, hb⟩
    · exact .inl hnone
    · refine .inr ⟨b, h.tally.earlier hsum (fun q hlt => ?_) fun q hlt => hrounds q hlt ▸ hpos⟩
      exact (hb q hlt).1.trans (hu.sample q hlt (hrounds q hlt))
  · have hpos := h.tally.round (by rw [hst]; decide)
    have hsum := h.sample_sum hqd hdest hclear hrep hst hequal hold
    exact .inr ⟨_, h.tally.earlier hsum (fun _ _ => le_rfl) fun q hlt => hrounds q hlt ▸ hpos⟩

theorem Sound.begin (hs : RoundFrom (w.pes wire.dest) s wire) (hidle : w.busy wire.dest = false) :
    Since t (w.put wire.dest rest (bcastQD1 t wire.dest s wire.msg)) w.snapshot := by
  have htotal : s.total = (w.pes wire.dest).total := Prod.ext hs.1 hs.2.1
  have hremembers := h.remembers hqd hdest hclear hs
  have hnext : s.rounds = (w.pes 0).rounds := by rw [hs.2.2.1, hdest]
  rw [hdest] at hidle htotal ⊢
  refine ⟨h.tally.conserved, hidle, fun q => ?_, fun q hlt hr => ?_, ?_, fun hu _ => ?_⟩
  · rw [apply_put QdState.total _ (o := bcastQD1 t 0 s wire.msg) htotal]
    exact le_rfl
  · by_cases hq : q = 0
    · rw [hq, put_pes_self]
      exact (htotal ▸ le_rfl : (w.pes 0).total ≤ s.total)
    · -- nobody else has been reached yet
      rw [put_pes_self, put_pes_of_ne hq, h.inStep.eq_root hqd h.staged hdest hclear hlt] at hr
      have hr' : (w.pes 0).rounds = s.rounds + 1 := hr
      omega
  · exact hremembers.imp_right fun hb => ⟨Nat.succ_pos _, hb⟩
  · exact (System.silent_snapshot hu).put rfl

/-- The sums are those of an earlier round. -/
theorem Sound.silent_of_matched (hrep : wire.Reports) (hst : (w.pes 0).stage = 1)
    (hequal : (w.pes 0).cCreated + wire.msg.created = (w.pes 0).cProcessed + wire.msg.processed)
    (hold : (w.pes 0).oldCount = (w.pes 0).cProcessed + wire.msg.processed) : w.Silent t := by
  obtain ⟨u, hu⟩ := h.since
  have hsum := h.sample_sum hqd hdest hclear hrep hst hequal hold
  rcases hu.earlier with hnone | ⟨-, b, hb⟩
  · -- the sum of what was processed is not negative
    have hnonneg : 0 ≤ (∑ q ∈ range t.size, (w.pes q).sample).2 := by
      rw [Prod.snd_sum]
      exact sum_nonneg fun q _ => h.tally.nonneg q
    rw [hsum, hnone] at hnonneg
    exact absurd hnonneg (by decide)
  · refine hu.silent (hu.silent_of_equal hb (fun q hlt => ?_) hsum) (by rw [hst]; decide)
    exact hu.sample q hlt (h.inStep.eq_root hqd h.staged hdest hclear hlt)

end Clear

/-- A handler that takes no sample. -/
theorem Sound.keep (h : Sound t w) (hstaged : Staged t (w.put p rest o))
    (hinStep : InStep t (w.put p rest o))
    (hgath : Gathered t (w.put p rest o)) (hsame : Steady (w.pes p) o.state)
    (hcalls : Calls p o) (hst : p = 0 → o.state.stage ≠ 0 → (w.pes 0).stage ≠ 0)
    (hsilent : p = 0 → o.state.stage = 2 → w.Silent t) : Sound t (w.put p rest o) := by
  refine ⟨hstaged, hinStep, hgath, .keep hsame hcalls hst h.tally,
    h.since.imp fun u hu => .keep hsame hcalls hst hu, fun hs => ?_⟩
  have hcalled := hcalls.none (by rw [hs]; decide)
  by_cases h0 : 0 = p
  · rw [← h0, put_pes_self] at hs
    exact (hsilent h0.symm hs).put hcalled
  · rw [put_pes_of_ne h0] at hs
    exact (h.silent hs).put hcalled

theorem Sound.handle (h : Sound t w) (hqd : w.qd.Perm (wire :: rest))
    (hidle : w.busy wire.dest = false)
    (ho : callWhenIdle t wire.dest (w.pes wire.dest) wire.msg = some o)
    (hstaged : Staged t (w.put wire.dest rest o)) : Sound t (w.put wire.dest rest o) := by
  have hreact := h.staged.reaction hqd ho
  have hinStep := h.inStep.react hqd hreact
  have hgath := h.gathered.react hqd h.staged h.inStep hreact
  cases hreact with
  | noted | counted | answered =>
    exact h.keep hstaged hinStep hgath ⟨rfl, rfl, rfl, rfl⟩ (.inl rfl) (fun h0 hs => h0 ▸ hs)
      fun h0 hs => h.silent (h0 ▸ hs)
  | begun s hdest horg hclear hs =>
    refine ⟨hstaged, hinStep, hgath, h.tally.take _ (Prod.ext hs.1 hs.2.1) hidle,
      ⟨_, h.begin hqd hdest hclear hs hidle⟩, fun h2 => ?_⟩
    rw [hdest, put_pes_self] at h2
    cases h2
  | asked hdest hasks hst =>
    refine ⟨hstaged, hinStep, hgath, h.tally.take _ rfl hidle,
      h.since.imp fun u hu => hu.take _ hdest, fun h2 => ?_⟩
    rw [put_pes_of_ne hdest.symm] at h2
    exact (h.silent h2).put rfl
  | matched hdest hrep hst hclear hequal hold =>
    have hroot : (w.pes 0).stage = 1 := hdest ▸ hst
    refine h.keep hstaged hinStep hgath ⟨rfl, rfl, rfl, rfl⟩ (.inl rfl) (fun _ _ => ?_) fun _ _ =>
      ?_
    · rw [hroot]
      decide
    · rw [hdest] at hequal hold
      exact h.silent_of_matched hqd hdest hclear hrep hroot hequal hold
  | checked hdest | reported _ _ hdest | replied _ _ hdest =>
    exact h.keep hstaged hinStep hgath ⟨rfl, rfl, rfl, rfl⟩ (.inl rfl) hdest.elim hdest.elim
  | detected hrep hdest hst =>
    exact h.keep hstaged hinStep hgath ⟨rfl, rfl, rfl, rfl⟩ (.inr ⟨hdest, rfl⟩)
      (fun _ hs => absurd rfl hs) nofun

end Handle

/-! ## The user's program -/

/-- What the user's program leaves alone. -/
structure Aside (s s' : QdState Cb) : Prop where
  stage : s'.stage = s.stage
  rounds : s'.rounds = s.rounds
  oldCount : s'.oldCount = s.oldCount
  sample : s'.sample = s.sample
  gathered : s'.gathered = s.gathered
  total_le : s.total ≤ s'.total

theorem Aside.refl (s : QdState Cb) : Aside s s := ⟨rfl, rfl, rfl, rfl, rfl, le_rfl⟩

variable {s : QdState Cb} {e : Event Cb}

theorem Aside.update (h : Aside (w.pes p) s) (r : Nat) : Aside (w.pes r) (update w.pes p s r) := by
  by_cases hr : r = p
  · rw [hr, update_self]
    exact h
  · rw [update_of_ne hr]
    exact .refl _

theorem aside_create (s : QdState Cb) : Aside s s.create :=
  ⟨rfl, rfl, rfl, rfl, rfl, Int.le_add_one le_rfl, le_rfl⟩

theorem aside_process (s : QdState Cb) : Aside s s.process :=
  ⟨rfl, rfl, rfl, rfl, rfl, le_rfl, Int.le_add_one le_rfl⟩

theorem Tally.user (h : Tally t w) (hpes : ∀ q, Aside (w.pes q) (w'.pes q))
    (hconserved : (∑ q ∈ range t.size, (w'.pes q).total).1 =
      (∑ q ∈ range t.size, (w'.pes q).total).2 + w'.net.length) (hbusy : ∀ q, w'.busy q = true →
      w.busy q = true ∨ (w.pes q).mProcessed < (w'.pes q).mProcessed) : Tally t w' := by
  have hproc : ∀ q, (w'.pes q).oProcessed = (w.pes q).oProcessed :=
    fun q => congrArg Prod.snd (hpes q).sample
  refine ⟨hconserved, fun q => ?_, fun q => ?_, fun hs => ?_, fun q hne hr hb => ?_⟩
  · rw [(hpes q).sample]
    exact (h.sample_le q).trans (hpes q).total_le
  · rw [hproc]
    exact h.nonneg q
  · rw [(hpes 0).stage] at hs
    rw [(hpes 0).rounds]
    exact h.round hs
  · rw [(hpes q).rounds] at hr
    rw [hproc]
    rcases hbusy q hb with hbusy | hmore
    · exact lt_of_lt_of_le (h.busy q hne hr hbusy) (hpes q).total_le.2
    · exact lt_of_le_of_lt (h.sample_le q).2 hmore

theorem Since.user (h : Since t w u) (hpes : ∀ q, Aside (w.pes q) (w'.pes q))
    (hsilent : w.Silent t → w'.Silent t) : Since t w' u := by
  refine ⟨h.conserved, h.root, fun q => (h.le q).trans (hpes q).total_le, fun q hlt hr => ?_, ?_,
    fun hu hs => ?_⟩
  · rw [(hpes q).rounds, (hpes 0).rounds] at hr
    rw [(hpes q).sample]
    exact h.sample q hlt hr
  · rw [(hpes 0).oldCount, (hpes 0).rounds]
    exact h.earlier
  · rw [(hpes 0).stage] at hs
    exact hsilent (h.silent hu hs)

theorem Gathered.user (h : Gathered t w) (hpes : ∀ q, Aside (w.pes q) (w'.pes q))
    (hcounts : (w'.qd.map Wire.counts).sum = (w.qd.map Wire.counts).sum) : Gathered t w' := by
  refine ⟨fun q hq => ?_, fun hs => ?_⟩
  · rw [(hpes q).stage] at hq
    rw [(hpes q).gathered]
    exact h.idle q hq
  · rw [(hpes 0).stage] at hs
    have hgath : w'.gathered t = w.gathered t := by
      rw [System.gathered, System.gathered, hcounts, sum_congr rfl fun q _ => (hpes q).gathered]
    have hsampled : w'.sampled t = w.sampled t := by
      refine sum_congr rfl fun q _ => ?_
      rw [(hpes q).rounds, (hpes 0).rounds, (hpes q).sample]
    rw [hgath, hsampled]
    exact h.sums hs

theorem Sound.user (h : Sound t w) (hstaged : Staged t w') (htally : Tally t w')
    (hpes : ∀ q, Aside (w.pes q) (w'.pes q))
    (hasks : ∀ q, w'.qd.countP (Wire.asks q) = w.qd.countP (Wire.asks q))
    (hcounts : (w'.qd.map Wire.counts).sum = (w.qd.map Wire.counts).sum)
    (hsilent : w.Silent t → w'.Silent t) : Sound t w' where
  staged := hstaged
  inStep q hne hlt := by
    rw [(hpes q).rounds, (hpes _).rounds, hasks]
    exact h.inStep q hne hlt
  gathered := h.gathered.user hpes hcounts
  tally := htally
  since := h.since.imp fun _ hu => hu.user hpes hsilent
  silent hs := hsilent (h.silent ((hpes 0).stage ▸ hs))

/-! ## Runs -/

theorem sum_total_update {d : Int × Int} (hp : p < t.size) (hs : s.total = (w.pes p).total + d) :
    ∑ q ∈ range t.size, (update w.pes p s q).total = ∑ q ∈ range t.size, (w.pes q).total + d := by
  have hoff := sum_add_of_eq_off (f := fun q => (w.pes q).total)
    (g := fun q => (update w.pes p s q).total) (mem_range.2 hp)
    fun q _ hq => by rw [update_of_ne hq]
  rw [update_self, hs, add_comm _ d, ← add_assoc] at hoff
  exact add_right_cancel hoff

theorem Sound.step (h : Sound t w) (hstep : Step t w e w') : Sound t w' := by
  have hstaged := h.staged.step hstep
  have hconserved := h.tally.conserved
  cases hstep with
  | @send pe dest hpe hdest hbusy =>
    have hpes := (aside_create (w.pes pe)).update
    refine h.user hstaged (h.tally.user hpes ?_ fun q hb => .inl hb) hpes (fun _ => rfl) rfl
      fun hs => ?_
    · have hcreate : (w.pes pe).create.total = (w.pes pe).total + (1, 0) :=
        Prod.ext rfl (add_zero _).symm
      simp only [sum_total_update hpe hcreate, Prod.fst_add, Prod.snd_add, List.length_append,
        List.length_singleton]
      omega
    · rw [hs.2 pe hpe] at hbusy
      cases hbusy
  | @process pe hpe hidle hmem =>
    have hpes := (aside_process (w.pes pe)).update
    refine h.user hstaged (h.tally.user hpes ?_ fun q hb => ?_) hpes (fun _ => rfl) rfl fun hs => ?_
    · have hprocess : (w.pes pe).process.total = (w.pes pe).total + (0, 1) :=
        Prod.ext (add_zero _).symm rfl
      have hlen := List.length_erase_of_mem hmem
      have hpos := List.length_pos_of_mem hmem
      simp only [sum_total_update hpe hprocess, Prod.fst_add, Prod.snd_add]
      omega
    · dsimp only at hb ⊢
      by_cases hq : q = pe
      · rw [hq, update_self]
        exact .inr (Int.lt_succ _)
      · rw [update_of_ne hq] at hb
        exact .inl hb
    · rw [hs.1] at hmem
      exact absurd hmem List.not_mem_nil
  | @finish pe =>
    refine h.user hstaged (h.tally.user (fun _ => .refl _) hconserved fun q hb => .inl ?_)
      (fun _ => .refl _) (fun _ => rfl) rfl fun hs => ⟨hs.1, fun q hlt => ?_⟩
    · dsimp only at hb
      by_cases hq : q = pe
      · rw [hq, update_self] at hb
        cases hb
      · rwa [update_of_ne hq] at hb
    · dsimp only
      by_cases hq : q = pe
      · rw [hq, update_self]
      · rw [update_of_ne hq]
        exact hs.2 q hlt
  | startQD =>
    refine h.user hstaged (h.tally.user (fun _ => .refl _) hconserved fun q hb => .inl hb)
      (fun _ => .refl _) (fun q => ?_) ?_ id
    · rw [List.countP_append, List.countP_singleton]
      rfl
    · rw [List.map_append, List.sum_append]
      exact add_zero _
  | handle hqd hidle ho => exact h.handle (qd_perm hqd) hidle ho hstaged

variable {es : List (Event Cb)} {busy : Nat → Bool}

theorem sound_of_run (hrun : Run (Step t) (initialSystem busy) es w) : Sound t w :=
  hrun.invariant (sound_initial busy) fun _ _ _ h hstep => h.step hstep

variable {o : Outcome Cb}

/-- Processor 0 enters stage 2 when it ends a round. -/
theorem Reaction.enters {rest : List (Wire Cb)} {wire : Wire Cb} (h : Reaction t w rest wire o)
    (hst : ((w.put wire.dest rest o).pes 0).stage = 2) :
    ((w.put wire.dest rest o).pes 0).rounds = (w.pes 0).rounds ∧
      ((w.pes 0).stage = 1 ∨ (w.pes 0).stage = 2) := by
  by_cases h0 : 0 = wire.dest
  · rw [h0, put_pes_self] at hst ⊢
    cases h with
    | noted => exact ⟨rfl, .inr hst⟩
    | begun | asked | detected => cases hst
    | matched _ _ hone | counted _ _ hone => exact ⟨rfl, .inl hone⟩
    | checked hdest | reported _ _ hdest | replied _ _ hdest => exact absurd h0.symm hdest
    | answered _ _ htwo => exact ⟨rfl, .inr htwo⟩
  · rw [put_pes_of_ne h0] at hst ⊢
    exact ⟨rfl, .inr hst⟩

theorem Staged.enters (h : Staged t w) (hstep : Step t w e w') (hst : (w'.pes 0).stage = 2) :
    (w'.pes 0).rounds = (w.pes 0).rounds ∧ ((w.pes 0).stage = 1 ∨ (w.pes 0).stage = 2) := by
  cases hstep with
  | @send pe dest =>
    have hpes := (aside_create (w.pes pe)).update 0
    exact ⟨hpes.rounds, .inr (hpes.stage.symm.trans hst)⟩
  | @process pe =>
    have hpes := (aside_process (w.pes pe)).update 0
    exact ⟨hpes.rounds, .inr (hpes.stage.symm.trans hst)⟩
  | finish | startQD => exact ⟨rfl, .inr hst⟩
  | handle hqd hidle ho => exact (h.reaction (qd_perm hqd) ho).enters hst

/-- The step that ended the last round, of a run to a state in which processor 0 is in stage 2. -/
def RoundEnd (t : SpanTree) (w₀ : System Cb) (es : List (Event Cb)) (w v u : System Cb) : Prop :=
  ∃ es₁ e es₂, es = es₁ ++ e :: es₂ ∧ Run (Step t) w₀ es₁ v ∧ Step t v e u ∧ Run (Step t) u es₂ w ∧
    (v.pes 0).stage = 1 ∧ (u.pes 0).stage = 2 ∧ (u.pes 0).rounds = (w.pes 0).rounds

/-- By induction on the run: processor 0 enters stage 2 from stage 1 only. -/
theorem exists_roundEnd
    (hrun : Run (Step t) (initialSystem busy) es w) (hst : (w.pes 0).stage = 2) :
    ∃ v u, RoundEnd t (initialSystem busy) es w v u := by
  induction hrun with
  | nil => cases hst
  | @snoc es x y e hrun hlast ih =>
    obtain ⟨hrounds, hone | htwo⟩ := (staged_of_run hrun).enters hlast hst
    · exact ⟨x, y, es, e, [], rfl, hrun, hlast, .nil, hone, hst, rfl⟩
    · obtain ⟨v, u, es1, e1, es2, rfl, hv, hstep, hu, hone, htwo, hsame⟩ := ih htwo
      exact ⟨v, u, es1, e1, es2 ++ [e], by simp, hv, hstep, hu.snoc hlast, hone, htwo,
        hsame.trans hrounds.symm⟩

variable {msg : QdMsg Cb}

theorem handlePhase0_called (h : handlePhase0 t p s msg = some o) : o.called = [] := by
  rw [handlePhase0] at h
  split at h
  · obtain ⟨s', -, rfl⟩ := Option.map_eq_some_iff.1 h
    split <;> rfl
  · cases h

theorem handlePhase1_called (h : handlePhase1 t p s msg = some o) : o.called = [] := by
  rw [handlePhase1] at h
  split at h
  · split at h <;> cases h
    rfl
  · obtain ⟨created, -, h⟩ := Option.bind_eq_some_iff.1 h
    obtain ⟨processed, -, rfl⟩ := Option.map_eq_some_iff.1 h
    dsimp only [endRound]
    -- neither the end of a round nor a report sends callbacks
    repeat' split
    all_goals rfl
  · cases h

theorem handlePhase2_called
    (hphase : msg.phase = 2) (h : handlePhase2 t p s msg = some o) (hcalled : o.called ≠ []) :
    detects t p s msg ∧ s.callbacks ≠ [] := by
  have hst : s.stage = 2 := by
    by_contra hst
    rw [handlePhase2, if_neg hst] at h
    cases h
  have hrep := handlePhase2_report (t := t) (p := p) s msg hst hphase
  rw [callWhenIdle, hphase] at hrep
  cases hrep.symm.trans h
  split at hcalled
  · next hreported =>
    split at hcalled
    · next hp =>
      split at hcalled
      · exact absurd rfl hcalled
      · next hclean =>
        have hclean' : (s.answered msg).isDirty = false := Bool.eq_false_iff.2 hclean
        simp only [QdState.isDirty, QdState.answered, Bool.or_eq_false_iff] at hclean'
        exact ⟨⟨hphase, hst, hp, hreported, Bool.or_eq_false_iff.2 ⟨hclean'.1, hclean'.2.1⟩,
          hclean'.2.2⟩, hcalled⟩
    · exact absurd rfl hcalled
  · exact absurd rfl hcalled

/-- The branch that sends the callbacks is the one that `detects` describes. -/
theorem calls_iff_detects :
    (∃ o, callWhenIdle t p s msg = some o ∧ o.called ≠ []) ↔
    detects t p s msg ∧ s.callbacks ≠ [] := by
  constructor
  · rintro ⟨o, ho, hcalled⟩
    rw [callWhenIdle] at ho
    split at ho
    · exact absurd (handlePhase0_called ho) hcalled
    · exact absurd (handlePhase1_called ho) hcalled
    · next hphase => exact handlePhase2_called hphase ho hcalled
    · cases ho
  · rintro ⟨⟨hphase, hst, hp, hreported, hclean, hdirty⟩, hcbs⟩
    have hclean' : (s.answered msg).isDirty = false := by
      rw [QdState.isDirty, Bool.or_eq_false_iff] at hclean
      simp [QdState.isDirty, QdState.answered, hclean.1, hclean.2, hdirty]
    refine ⟨_, handlePhase2_report _ _ hst hphase, ?_⟩
    rw [if_pos hreported, if_pos hp, hclean']
    exact hcbs

/-- When processor 0 comes to the branch that sends the callbacks, no message of the user is in
flight or being processed on any processor, nor was there any when its last round of questions for
the counts had ended. -/
theorem callbacks_only_when_silent (t : SpanTree) (busy : Nat → Bool) {es : List (Event Cb)}
    {w : System Cb} (hrun : Run (Step t) (initialSystem busy) es w) {wire : Wire Cb}
    (hdetects : detects t wire.dest (w.pes wire.dest) wire.msg) :
    (∃ v u, RoundEnd t (initialSystem busy) es w v u ∧ u.Silent t) ∧ w.Silent t := by
  have hstage : (w.pes 0).stage = 2 := by
    rw [← hdetects.2.2.1]
    exact hdetects.2.1
  refine ⟨?_, (sound_of_run hrun).silent hstage⟩
  obtain ⟨v, u, hend⟩ := exists_roundEnd hrun hstage
  refine ⟨v, u, hend, ?_⟩
  obtain ⟨es₁, e, es₂, -, hv, hstep, -, -, htwo, -⟩ := hend
  exact (sound_of_run (hv.snoc hstep)).silent htwo

/-- The first message of the detection is handled. -/
def handleFirst (t : SpanTree) (w : System Cb) : Option (System Cb) :=
  match w.qd with
  | [] => none
  | wire :: rest =>
    if w.busy wire.dest then none
    else (callWhenIdle t wire.dest (w.pes wire.dest) wire.msg).map (w.put wire.dest rest)

/-- The next `n` messages of the detection are handled in order. -/
def handleFirsts (t : SpanTree) : Nat → System Cb → Option (System Cb)
  | 0, w => some w
  | n + 1, w => (handleFirst t w).bind (handleFirsts t n)

theorem step_of_handleFirst (h : handleFirst t w = some w') : ∃ e, Step t w e w' := by
  rw [handleFirst] at h
  split at h
  · cases h
  · next wire rest hqd =>
    split at h
    · cases h
    · next hidle =>
      obtain ⟨o, ho, rfl⟩ := Option.map_eq_some_iff.1 h
      exact ⟨_, Step.handle (show w.qd = [] ++ wire :: rest from hqd)
        (Bool.eq_false_iff.2 hidle) ho⟩

theorem run_of_handleFirsts {n : Nat} {w0 : System Cb}
    (hrun : Run (Step t) w0 es w) (h : handleFirsts t n w = some w') : ∃ es',
    Run (Step t) w0 es' w' := by
  induction n generalizing w es with
  | zero =>
    cases h
    exact ⟨es, hrun⟩
  | succ n ih =>
    obtain ⟨x, hx, h⟩ := Option.bind_eq_some_iff.1 h
    obtain ⟨e, hstep⟩ := step_of_handleFirst hx
    exact ih (hrun.snoc hstep) h

instance (t : SpanTree) (me : Nat) (s : QdState Cb) (msg : QdMsg Cb) :
    Decidable (detects t me s msg) :=
  inferInstanceAs (Decidable (_ ∧ _))

/-- Processor 0 sends a message to processor 1, asks for the detection, and processor 1 processes
the message. -/
def pairStart : System Unit where
  pes := update (update (fun _ => .init) 0 (QdState.create .init)) 1
    (QdState.process .init)
  busy := update (update (update (fun p => p == 0) 0 false) 1 true) 1 false
  net := []
  qd := [⟨0, .start, ⟨0, 0, 0, false, ()⟩⟩]
  called := []

theorem run_pairStart : Run (Step pairTree) (initialSystem fun p => p == 0)
    [.send 0 1, .finish 0, .startQD (), .process 1, .finish 1] pairStart := by
  have hsend : Run (Step pairTree) (initialSystem fun p => p == 0 : System Unit) [.send 0 1] _ :=
    .single (.send (by decide) (by decide) rfl)
  have hstart : Run (Step pairTree) _ [.send 0 1, .finish 0, .startQD ()] _ :=
    (hsend.snoc .finish).snoc .startQD
  have hprocess : Run (Step pairTree) _ [.send 0 1, .finish 0, .startQD (), .process 1] _ :=
    hstart.snoc (.process (by decide) (by decide) (by decide))
  exact hprocess.snoc .finish

theorem callbacks_only_when_silent_pair : ∃ (es : List (Event Unit)) (w : System Unit),
    Run (Step pairTree) (initialSystem fun p => p == 0) es w ∧
      (∃ wire ∈ w.qd, detects pairTree wire.dest (w.pes wire.dest) wire.msg) ∧
      w.Silent pairTree := by
  have hlast : (handleFirsts pairTree 12 pairStart).any (fun w => decide (∃ wire ∈ w.qd,
      detects pairTree wire.dest (w.pes wire.dest) wire.msg)) = true := by decide +kernel
  obtain ⟨w, hw, hsome⟩ := Run.exists_of_any hlast
  obtain ⟨es, hrun⟩ := run_of_handleFirsts run_pairStart hw
  obtain ⟨wire, -, hwire⟩ := id hsome
  exact ⟨es, w, hrun, hsome, (callbacks_only_when_silent pairTree _ hrun hwire).2⟩

end CharmRuntime.Quiescence
