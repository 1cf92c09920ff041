import CharmRuntime.Completion.Detector
import CharmRuntime.Lib.Tables

/-!
# Soundness of completion detection

In each phase all PEs go through the same stages: a message that one PE has received is still to be
received by the PEs that are behind, and the PEs that are not have contributed to the next reduction
(`Active`). The sum of the producers that are done is at most their number, so that no event is
produced any more when it reaches the total, and from then on the sum of the produced events is
right while that of the consumed ones is at most the right one.

This holds as long as the number of events of a phase fits in an `int` (`completion_sound`). With
more events the difference of the sums is negative, and the detection finishes with events that have
not been consumed (`finish_too_early`).
-/

set_option autoImplicit false

namespace CharmRuntime.Completion

open Lib Words Function List Option
open Bool (false_ne_true)

/-- The stages of a PE in a phase. -/
inductive Stage
  | fresh
  | producing
  | consuming
  | finished
  deriving DecidableEq

/-- What a detector is like in a stage. -/
def At (numProducers : Nat) : Stage → Detector → Prop
  | .fresh, d => d.point = .outside ∧ d.running = false ∧ d.producersDoneGlobal = 0 ∧
      d.unconsumed = 1
  | .producing, d => d.point = .producersDone ∧ d.producersTotal = numProducers ∧ d.unconsumed = 1
  | .consuming, d => d.point = .countConsumed
  | .finished, d => d = .init

/-- What a detector has contributed in a stage. -/
def Fits : Stage → Detector → Contribution → Prop
  | .fresh, _, _ => False
  | .producing, d, c => ∃ x, c = .producersDone x ∧ 0 ≤ x ∧ x ≤ d.producersDoneLocal
  | .consuming, d, c => ∃ x, c = .countConsumed d.produced x ∧ 0 ≤ x ∧ x ≤ d.consumed
  | .finished, _, c => c = .finish

variable (numProducers produced : Nat) in
/-- The message that brings a PE from one stage to the next. -/
inductive Leads : Stage → Message → Stage → Prop
  | produce {start allProduced : Bool} (h : 0 < numProducers) :
    Leads .fresh (.startDetection numProducers start allProduced) .producing
  | consume {start allProduced : Bool} (h : numProducers = 0) :
    Leads .fresh (.startDetection numProducers start allProduced) .consuming
  | more {x : Int} (h : x < numProducers) : Leads .producing (.producersDone x) .producing
  | enough {x : Int} (h : numProducers ≤ x) : Leads .producing (.producersDone x) .consuming
  | behind {x : Int} (h : 0 ≤ x) (hlt : x < produced) :
    Leads .consuming (.countConsumed produced x) .consuming
  | finish {x : Int} (h : x = produced) : Leads .consuming (.countConsumed produced x) .finished

/-- What a message makes a PE contribute besides. -/
def Message.also : Message → List Contribution
  | .startDetection _ start _ => if start then [.start] else []
  | _ => []

/-- The counters of a detector. -/
structure SameCounters (d d' : Detector) : Prop where
  produced : d'.produced = d.produced
  consumed : d'.consumed = d.consumed
  producersDoneLocal : d'.producersDoneLocal = d.producersDoneLocal

/-- The counters of a detector have not wrapped. -/
structure Detector.Bounded (d : Detector) : Prop where
  produced : 0 ≤ d.produced ∧ d.produced < 2 ^ 31
  consumed : 0 ≤ d.consumed ∧ d.consumed < 2 ^ 31
  producersDoneLocal : 0 ≤ d.producersDoneLocal ∧ d.producersDoneLocal < 2 ^ 31

theorem bounded_init : Detector.Bounded .init := ⟨by decide, by decide, by decide⟩

variable {numProducers : Nat} {d : Detector} {prev stage : Stage} {msg : Message}

/-- A PE that receives the message goes to the next stage. -/
theorem receive_spec {produced : Nat}
    (hleads : Leads numProducers produced prev msg stage) (hd : At numProducers prev d)
    (hbounded : d.Bounded) (hsmall : produced < 2 ^ 31) :
    ∃ o, d.receive msg = some o ∧ At numProducers stage o.detector ∧
      (∃ c, o.contributions = msg.also ++ [c] ∧ Fits stage o.detector c) ∧
      (o.allProduced → prev ≠ .consuming ∧ stage = .consuming) ∧
      (stage ≠ .finished → SameCounters d o.detector) := by
  have hdone := hbounded.producersDoneLocal.1
  have hcons := hbounded.consumed.1
  cases hleads with
  | produce h =>
    obtain ⟨hpoint, hrunning, hglobal, hunconsumed⟩ := hd
    have hlt : d.producersDoneGlobal < numProducers := by omega
    rw [Detector.receive, if_neg (by simp [hpoint, hrunning]), Detector.productionLoop, if_pos hlt]
    exact ⟨_, rfl, ⟨rfl, rfl, hunconsumed⟩, ⟨_, rfl, _, rfl, hdone, le_rfl⟩,
      false_ne_true.elim, fun _ => ⟨rfl, rfl, rfl⟩⟩
  | consume h =>
    obtain ⟨hpoint, hrunning, hglobal, hunconsumed⟩ := hd
    have hge : ¬d.producersDoneGlobal < numProducers := by omega
    have hpos : 0 < d.unconsumed := by omega
    rw [Detector.receive, if_neg (by simp [hpoint, hrunning]), Detector.productionLoop, if_neg hge,
      Detector.consumptionLoop, if_pos hpos]
    exact ⟨_, rfl, rfl, ⟨_, rfl, _, rfl, hcons, le_rfl⟩, fun _ => ⟨Stage.noConfusion, rfl⟩,
      fun _ => ⟨rfl, rfl, rfl⟩⟩
  | @more x h =>
    obtain ⟨hpoint, htotal, hunconsumed⟩ := hd
    have hlt : x < d.producersTotal := by omega
    rw [Detector.receive, if_pos hpoint, Detector.productionLoop, if_pos hlt]
    exact ⟨_, rfl, ⟨rfl, htotal, hunconsumed⟩, ⟨_, rfl, _, rfl, hdone, le_rfl⟩,
      false_ne_true.elim, fun _ => ⟨rfl, rfl, rfl⟩⟩
  | @enough x h =>
    obtain ⟨hpoint, htotal, hunconsumed⟩ := hd
    have hge : ¬x < d.producersTotal := by omega
    have hpos : 0 < d.unconsumed := by omega
    rw [Detector.receive, if_pos hpoint, Detector.productionLoop, if_neg hge,
      Detector.consumptionLoop, if_pos hpos]
    exact ⟨_, rfl, rfl, ⟨_, rfl, _, rfl, hcons, le_rfl⟩, fun _ => ⟨Stage.noConfusion, rfl⟩,
      fun _ => ⟨rfl, rfl, rfl⟩⟩
  | @behind x h hlt =>
    have hpoint : d.point = .countConsumed := hd
    have hpos : 0 < toInt32 (produced - x) := by
      rw [toInt32_of_range (by omega) (by omega)]
      omega
    rw [Detector.receive, if_pos hpoint, Detector.consumptionLoop, if_pos hpos]
    exact ⟨_, rfl, rfl, ⟨_, rfl, _, rfl, hcons, le_rfl⟩, false_ne_true.elim,
      fun _ => ⟨rfl, rfl, rfl⟩⟩
  | @finish x h =>
    have hpoint : d.point = .countConsumed := hd
    have hzero : ¬0 < toInt32 (produced - x) := by
      rw [h, sub_self]
      decide
    rw [Detector.receive, if_pos hpoint, Detector.consumptionLoop, if_neg hzero]
    exact ⟨_, rfl, rfl, ⟨_, rfl, rfl⟩, false_ne_true.elim, fun hne => absurd rfl hne⟩

/-! ## All PEs -/

section System

variable {n : Nat} {s s' : System n}

/-- A PE that is still to receive the message. -/
structure Behind (s : System n) (prev : Stage) (msg : Message) (pending : List Contribution)
    (pe : Fin (n + 1)) : Prop where
  isAt : At s.numProducers prev (s.detectors pe)
  inbox : s.inbox pe = [msg]
  queue : s.queues pe = []
  also : pending = msg.also

/-- A PE that has contributed to the next reduction. -/
structure Current (s : System n) (stage : Stage) (pending : List Contribution)
    (pe : Fin (n + 1)) : Prop where
  isAt : At s.numProducers stage (s.detectors pe)
  inbox : s.inbox pe = []
  queue : ∃ c, s.queues pe = pending ++ [c] ∧ Fits stage (s.detectors pe) c

/-- A phase at work: the PEs are in a stage, or in the one before with a message that leads to
it. -/
structure Active (s : System n) (prev stage : Stage) (msg : Message)
    (pending : List Contribution) : Prop where
  leads : Leads s.numProducers s.produced prev msg stage
  places : ∀ pe, Behind s prev msg pending pe ∨ Current s stage pending pe
  starts : pending = [] ∨ pending = [.start]
  bounded : ∀ pe, (s.detectors pe).Bounded
  sums : stage ≠ .finished → ∑ pe, (s.detectors pe).producersDoneLocal = s.doneBy.card ∧
    ∑ pe, (s.detectors pe).produced = s.produced ∧ ∑ pe, (s.detectors pe).consumed = s.consumed
  allDone : stage = .consuming ∨ stage = .finished → s.doneBy.card = s.numProducers
  allConsumed : stage = .finished → s.consumed = s.produced
  sentBehind : Behind s prev msg pending 0 → prev ≠ .consuming → s.allProducedSent = 0
  sentCurrent : Current s stage pending 0 → stage = .producing → s.allProducedSent = 0

/-- Between two phases. -/
structure Resting (s : System n) : Prop where
  detectors : ∀ pe, s.detectors pe = .init
  queues : ∀ pe, s.queues pe = []
  inbox : ∀ pe, s.inbox pe = []
  allDone : s.doneBy.card = s.numProducers
  allConsumed : s.consumed = s.produced

/-- The invariant. -/
structure Inv (s : System n) : Prop where
  producers : s.numProducers < 2 ^ 31
  doneBy : s.doneBy ⊆ Finset.range s.numProducers
  produced : s.produced < 2 ^ 31
  consumed : s.consumed ≤ s.produced
  sent : s.allProducedSent ≤ 1
  sentDone : s.allProducedSent = 1 → s.doneBy.card = s.numProducers
  resting : s.idle = true → Resting s
  active : s.idle = false → ∃ prev stage msg pending, Active s prev stage msg pending

theorem inv_init : Inv (System.init : System n) where
  producers := Nat.two_pow_pos 31
  doneBy := Finset.empty_subset _
  produced := Nat.two_pow_pos 31
  consumed := le_rfl
  sent := Nat.zero_le _
  sentDone h := absurd h Nat.zero_ne_one
  resting _ := ⟨fun _ => rfl, fun _ => rfl, fun _ => rfl, rfl, rfl⟩
  active h := absurd h.symm false_ne_true

theorem Inv.active_of (hinv : Inv s) (h : ¬Resting s) :
    s.idle = false ∧ ∃ prev stage msg pending, Active s prev stage msg pending := by
  have hidle : s.idle = false := Bool.eq_false_iff.2 fun hidle => h (hinv.resting hidle)
  exact ⟨hidle, hinv.active hidle⟩

/-- A phase begins. -/
theorem inv_begin {start allProduced : Bool} (hinv : Inv s)
    (hen : s.Enabled (.begin numProducers start allProduced)) :
    ∃ s', s.exec (.begin numProducers start allProduced) = some s' ∧ Inv s' := by
  obtain ⟨hidle, hsmall⟩ := hen
  have hrest := hinv.resting hidle
  refine ⟨_, if_pos ⟨hidle, hsmall⟩, ?_⟩
  have hbounded : ∀ pe, (s.detectors pe).Bounded := fun pe => by
    rw [hrest.detectors pe]
    exact bounded_init
  have hbehind : ∀ pe, s.inbox pe ++ [Message.startDetection numProducers start allProduced] =
      [.startDetection numProducers start allProduced] :=
        fun pe => by rw [hrest.inbox pe, nil_append]
  have hfresh : ∀ pe, At numProducers .fresh (s.detectors pe) := fun pe => by
    rw [hrest.detectors pe]
    exact ⟨rfl, rfl, rfl, rfl⟩
  have hpending : (Message.startDetection numProducers start allProduced).also = [] ∨
      (Message.startDetection numProducers start allProduced).also = [.start] := by
    cases start
    · exact .inl rfl
    · exact .inr rfl
  have hsums : ∑ pe, (s.detectors pe).producersDoneLocal = 0 ∧ ∑ pe, (s.detectors pe).produced = 0 ∧
      ∑ pe, (s.detectors pe).consumed = 0 := by
    refine ⟨?_, ?_, ?_⟩ <;> refine Finset.sum_eq_zero fun pe _ =>
      ?_ <;> rw [hrest.detectors pe] <;> rfl
  refine ⟨hsmall, Finset.empty_subset _, Nat.two_pow_pos 31, le_rfl, Nat.zero_le _,
    Nat.zero_ne_one.elim, false_ne_true.elim, fun _ => ?_⟩
  rcases Nat.eq_zero_or_pos numProducers with hzero | hpos
  · refine ⟨.fresh, .consuming, _, _, .consume hzero,
      fun pe => .inl ⟨hfresh pe, hbehind pe, hrest.queues pe, rfl⟩,
      hpending, hbounded, fun _ => hsums, fun _ => hzero.symm, fun h =>
        Stage.noConfusion h, fun _ _ => rfl, fun _ _ => rfl⟩
  · refine ⟨.fresh, .producing, _, _, .produce hpos,
      fun pe => .inl ⟨hfresh pe, hbehind pe, hrest.queues pe, rfl⟩,
      hpending, hbounded, fun _ => hsums, fun h => ?_, fun h => Stage.noConfusion h, fun _ _ =>
        rfl, fun _ _ => rfl⟩
    rcases h with h | h <;> exact Stage.noConfusion h

section Receive

variable {prev stage : Stage} {msg : Message} {pending : List Contribution} {pe : Fin (n + 1)}

/-- A PE is not both behind and current. -/
theorem not_behind_of_current (h : Current s stage pending pe) : ¬Behind s prev msg pending pe :=
  fun h' => by
  have := h'.inbox
  rw [h.inbox] at this
  exact absurd this (cons_ne_nil _ _).symm

/-- The PE is left alone. -/
def Same (s s' : System n) (pe : Fin (n + 1)) : Prop :=
  s'.detectors pe = s.detectors pe ∧ s'.inbox pe = s.inbox pe ∧ s'.queues pe = s.queues pe ∧
    s'.numProducers = s.numProducers

theorem Same.symm (h : Same s s' pe) : Same s' s pe :=
  ⟨h.1.symm, h.2.1.symm, h.2.2.1.symm, h.2.2.2.symm⟩

theorem Behind.congr (h : Behind s prev msg pending pe) (hsame : Same s s' pe) :
    Behind s' prev msg pending pe := by
  obtain ⟨hdet, hinbox, hqueue, hnum⟩ := hsame
  exact ⟨by rw [hdet, hnum]; exact h.isAt, hinbox.trans h.inbox, hqueue.trans h.queue, h.also⟩

theorem Current.congr (h : Current s stage pending pe) (hsame : Same s s' pe) :
    Current s' stage pending pe := by
  obtain ⟨hdet, hinbox, hqueue, hnum⟩ := hsame
  exact ⟨by rw [hdet, hnum]; exact h.isAt, hinbox.trans h.inbox, by
    rw [hdet, hqueue]; exact h.queue⟩

/-- A number of the detectors, when one of them changes. -/
theorem sum_detectors (f : Detector → Int) {k : Int} (hd : f d = f (s.detectors pe) + k) :
    ∑ q, f (update s.detectors pe d q) = ∑ q, f (s.detectors q) + k := by
  refine sum_eq_add_of_eq_off (Finset.mem_univ pe) (fun q _ hq => by rw [update_of_ne hq]) ?_
  rw [update_self, hd]

theorem sum_detectors_same (f : Detector → Int) (hd : f d = f (s.detectors pe)) :
    ∑ q, f (update s.detectors pe d q) = ∑ q, f (s.detectors q) :=
  (sum_detectors f (hd.trans (add_zero _).symm)).trans (add_zero _)

/-- A PE that is behind becomes current. -/
theorem Active.receive (hact : Active s prev stage msg pending)
    (hbehind : Behind s prev msg pending pe) (hsmall : s.produced < 2 ^ 31) :
    ∃ o, (s.detectors pe).receive msg = some o ∧ Active
    (s.received pe [] o) prev stage msg pending ∧
      (o.allProduced → prev ≠ .consuming ∧ stage = .consuming) := by
  obtain ⟨o, ho, hat, ⟨c, hc, hfits⟩, hall, hsame⟩ :=
    receive_spec hact.leads hbehind.isAt (hact.bounded pe) hsmall
  have hdet : (s.received pe [] o).detectors pe = o.detector := update_self _ _ _
  have hother : ∀ q, q ≠ pe → Same s (s.received pe [] o) q := fun q hq =>
    ⟨update_of_ne hq _ _, update_of_ne hq _ _, update_of_ne hq _ _, rfl⟩
  have hcur : Current (s.received pe [] o) stage pending pe := by
    refine ⟨by rw [hdet]; exact hat, update_self _ _ _, c, ?_, by rw [hdet]; exact hfits⟩
    change update s.queues pe (s.queues pe ++ o.contributions) pe = _
    rw [update_self, hbehind.queue, nil_append, hc, hbehind.also]
  have hnone : stage ≠ .consuming ∨ pe ≠ 0 →
      (s.received pe [] o).allProducedSent = s.allProducedSent := fun h => by
    have : ¬(o.allProduced ∧ pe = 0) := fun h' => h.elim (fun h => h (hall h'.1).2) fun h => h h'.2
    exact congrArg (s.allProducedSent + ·) (if_neg this)
  refine ⟨o, ho, ⟨hact.leads, fun q => ?_, hact.starts, fun q => ?_, fun hne => ?_, hact.allDone,
    hact.allConsumed, fun h hprev => ?_, fun h hstage => ?_⟩, hall⟩
  · by_cases hq : q = pe
    · exact .inr (hq ▸ hcur)
    · exact (hact.places q).imp (fun h => h.congr (hother q hq)) fun h => h.congr (hother q hq)
  · by_cases hq : q = pe
    · rw [hq, hdet]
      by_cases hover : stage = .finished
      · have hinit : o.detector = .init := by rwa [hover] at hat
        rw [hinit]
        exact bounded_init
      · obtain ⟨h1, h2, h3⟩ := hsame hover
        obtain ⟨b1, b2, b3⟩ := hact.bounded pe
        exact ⟨h1 ▸ b1, h2 ▸ b2, h3 ▸ b3⟩
    · rw [(hother q hq).1]
      exact hact.bounded q
  · obtain ⟨h1, h2, h3⟩ := hsame hne
    obtain ⟨sum1, sum2, sum3⟩ := hact.sums hne
    exact ⟨(sum_detectors_same _ h3).trans sum1, (sum_detectors_same _ h1).trans sum2,
      (sum_detectors_same _ h2).trans sum3⟩
  · have hne : 0 ≠ pe := fun heq => not_behind_of_current hcur (heq ▸ h)
    rw [hnone (.inr (Ne.symm hne))]
    exact hact.sentBehind (h.congr (hother 0 hne).symm) hprev
  · rw [hnone (.inl (by rw [hstage]; exact Stage.noConfusion))]
    by_cases heq : pe = 0
    · refine hact.sentBehind (heq ▸ hbehind) fun hprev => ?_
      have hleads := hact.leads
      rw [hprev, hstage] at hleads
      cases hleads
    · exact hact.sentCurrent (h.congr (hother 0 (Ne.symm heq)).symm) hstage

theorem inv_receive (hinv : Inv s) (hen : s.Enabled (.receive pe)) :
    ∃ s', s.exec (.receive pe) = some s' ∧ Inv s' := by
  obtain ⟨hidle, prev, stage, msg, pending, hact⟩ := hinv.active_of fun h => hen (h.inbox pe)
  have hbehind := (hact.places pe).resolve_right fun h => hen h.inbox
  obtain ⟨o, ho, hactive', hall⟩ := hact.receive hbehind hinv.produced
  have hsent : (s.received pe [] o).allProducedSent = s.allProducedSent ∨
      s.allProducedSent = 0 ∧ (s.received pe [] o).allProducedSent = 1 ∧
          s.doneBy.card = s.numProducers := by
    by_cases h : o.allProduced ∧ pe = 0
    · obtain ⟨hprev, hstage⟩ := hall h.1
      have hzero := hact.sentBehind (h.2 ▸ hbehind) hprev
      refine .inr ⟨hzero, ?_, hact.allDone (.inl hstage)⟩
      exact (congrArg₂ (· + ·) hzero (if_pos h)).trans (zero_add 1)
    · exact .inl (congrArg (s.allProducedSent + ·) (if_neg h))
  refine ⟨s.received pe [] o, ?_, hinv.producers, hinv.doneBy, hinv.produced, hinv.consumed,
    ?_, ?_, ?_, ?_⟩
  · rw [System.exec, hbehind.inbox]
    dsimp only
    rw [ho]
    rfl
  · have := hinv.sent
    omega
  · intro h
    rcases hsent with hsame | ⟨-, -, hcard⟩
    · exact hinv.sentDone (hsame.symm.trans h)
    · exact hcard
  · exact fun h => absurd (hidle.symm.trans h) false_ne_true
  · exact fun _ => ⟨prev, stage, msg, pending, hactive'⟩

end Receive

section Reduce

variable {prev stage : Stage} {msg : Message} {pending : List Contribution}

/-- What is left of the system after a reduction. -/
def reduced (s : System n) (kind : Kind) (result : List Message) : System n :=
  { s with
    queues := fun pe => (s.queues pe).tail
    inbox := fun pe => s.inbox pe ++ result
    idle := s.idle || kind = .finish }

variable {kind : Kind}

theorem exec_reduce {c : Fin (n + 1) → Contribution}
    (hc : ∀ pe, ∃ rest, s.queues pe = c pe :: rest) (hkind : ∀ pe, (c pe).kind = kind) :
    s.exec .reduce = some
    (reduced s kind (kind.result (∑ q, (c q).values.1) (∑ q, (c q).values.2))) := by
  choose rest hc using hc
  have hhead : ∀ pe, (s.queues pe).head?.map Contribution.kind = some kind := fun pe => by
    rw [hc pe, ← hkind pe]
    rfl
  have hfront : (fun q => (c q).values) = s.front := funext fun q => by
    rw [System.front, hc q]
    rfl
  rw [System.exec, hhead 0, bind_some, System.reduce, if_pos hhead, ← hfront]
  rfl

/-- The reduction of the contributions that a stage begins with. -/
theorem Active.reduce_start (hact : Active s prev stage msg [.start])
    (hcur : ∀ pe, Current s stage [.start] pe) :
    ∃ s', s.exec .reduce = some s' ∧ Active s' prev stage msg [] ∧ s'.idle = s.idle ∧
      ∃ queues inbox, s' = { s with queues := queues, inbox := inbox, idle := s'.idle } := by
  have hstart : ∀ pe, ∃ rest, s.queues pe = .start :: rest := fun pe => by
    obtain ⟨c, hc, -⟩ := (hcur pe).queue
    exact ⟨_, hc⟩
  have hcurrent' : ∀ pe, Current (reduced s .start []) stage [] pe := fun pe => by
    obtain ⟨c, hc, hfits⟩ := (hcur pe).queue
    refine ⟨(hcur pe).isAt, ?_, c, ?_, hfits⟩
    · exact (append_nil _).trans (hcur pe).inbox
    · exact congrArg List.tail hc
  refine ⟨_, exec_reduce hstart fun _ => rfl, { hact with
    places := fun pe => .inr (hcurrent' pe)
    starts := .inl rfl
    sentBehind := fun h => absurd h (not_behind_of_current (hcurrent' 0))
    sentCurrent := fun _ => hact.sentCurrent (hcur 0) }, Bool.or_false _, _, _, rfl⟩

/-- A phase goes on after a reduction. -/
theorem inv_reduced (hinv : Inv s) (hidle : s.idle = false) (hkind : kind ≠ .finish)
    {result : List Message}
    (hact : ∃ prev stage msg pending, Active (reduced s kind result) prev stage msg pending) :
    Inv (reduced s kind result) := by
  refine { hinv with resting := fun h => ?_, active := fun _ => hact }
  change (s.idle || decide (kind = Kind.finish)) = true at h
  rw [hidle, decide_eq_false hkind] at h
  exact absurd h false_ne_true

/-- The PEs have each contributed one number or two, and are behind when the reduction is
complete. -/
theorem behind_of_reduced {msg' : Message} (hcur : ∀ pe, Current s stage [] pe)
    (halso : msg'.also = []) (pe : Fin (n + 1)) :
    Behind (reduced s kind [msg']) stage msg' [] pe := by
  obtain ⟨c, hc, -⟩ := (hcur pe).queue
  refine ⟨(hcur pe).isAt, ?_, congrArg List.tail hc, halso.symm⟩
  change s.inbox pe ++ [msg'] = [msg']
  rw [(hcur pe).inbox, nil_append]

/-- The sum of what the PEs have contributed of a number that they have in common. -/
theorem sum_contributed {x f : Fin (n + 1) → Int} {total : Nat} (hpos : ∀ q, 0 ≤ x q)
    (hle : ∀ q, x q ≤ f q) (hf : ∑ q, f q = total) (hsmall : total < 2 ^ 31) :
    0 ≤ ∑ q, x q ∧ ∑ q, x q ≤ total ∧ toInt32 (∑ q, x q) = ∑ q, x q := by
  have hnonneg : 0 ≤ ∑ q, x q := Finset.sum_nonneg fun q _ => hpos q
  have hsum : ∑ q, x q ≤ total := hf ▸ Finset.sum_le_sum fun q _ => hle q
  exact ⟨hnonneg, hsum, toInt32_of_range (by omega) (by omega)⟩

variable (hinv : Inv s)

include hinv

theorem Active.reduce_producing (hact : Active s prev .producing msg [])
    (hcur : ∀ pe, Current s .producing [] pe) (hidle : s.idle = false) :
    ∃ s', s.exec .reduce = some s' ∧ Inv s' := by
  choose c hc hfits using fun pe => (hcur pe).queue
  choose x hx hpos hle using hfits
  obtain rfl : c = fun q => .producersDone (x q) := funext hx
  have hcard : s.doneBy.card ≤ s.numProducers := by
    have := Finset.card_le_card hinv.doneBy
    rwa [Finset.card_range] at this
  -- The sum is at most the number of producers that are done.
  obtain ⟨-, hsum, hmsg⟩ :=
    sum_contributed hpos hle (hact.sums Stage.noConfusion).1 (hcard.trans_lt hinv.producers)
  refine ⟨_, exec_reduce (fun pe => ⟨_, hc pe⟩) fun _ => rfl, ?_⟩
  change Inv (reduced s .producersDone [.producersDone (toInt32 (∑ q, x q))])
  rw [hmsg]
  have hbehind :=
    @behind_of_reduced n s .producing .producersDone (.producersDone (∑ q, x q)) hcur rfl
  have hsent := hact.sentCurrent (hcur 0) rfl
  refine inv_reduced hinv hidle (by decide) ?_
  · by_cases hlt : ∑ q, x q < s.numProducers
    · exact ⟨.producing, .producing, _, [], .more hlt, fun pe => .inl (hbehind pe), .inl rfl,
        hact.bounded, hact.sums, hact.allDone, hact.allConsumed, fun _ _ => hsent, fun _ _ => hsent⟩
    · exact ⟨.producing, .consuming, _, [], .enough (not_lt.1 hlt),
        fun pe => .inl (hbehind pe), .inl rfl,
        hact.bounded, fun _ => hact.sums Stage.noConfusion, fun _ => by
          change s.doneBy.card = s.numProducers; omega,
        fun h => Stage.noConfusion h, fun _ _ => hsent, fun _ h => Stage.noConfusion h⟩

theorem Active.reduce_consuming (hact : Active s prev .consuming msg [])
    (hcur : ∀ pe, Current s .consuming [] pe) (hidle : s.idle = false) :
    ∃ s', s.exec .reduce = some s' ∧ Inv s' := by
  choose c hc hfits using fun pe => (hcur pe).queue
  choose x hx hpos hle using hfits
  obtain ⟨-, hproduced, hcons⟩ := hact.sums Stage.noConfusion
  obtain rfl : c = fun q => .countConsumed (s.detectors q).produced (x q) := funext hx
  -- Nothing is produced any more, and what has been counted as consumed has been consumed.
  have hsmall := hinv.produced
  have hle' := hinv.consumed
  obtain ⟨hnonneg, hsum, hmsg⟩ := sum_contributed hpos hle hcons (hle'.trans_lt hsmall)
  refine ⟨_, exec_reduce (fun pe => ⟨_, hc pe⟩) fun _ => rfl, ?_⟩
  change Inv (reduced s .countConsumed
    [.countConsumed (toInt32 (∑ q, (s.detectors q).produced)) (toInt32 (∑ q, x q))])
  rw [hmsg, hproduced, toInt32_natCast hsmall]
  have hbehind := @behind_of_reduced n s .consuming .countConsumed
    (.countConsumed s.produced (∑ q, x q)) hcur rfl
  refine inv_reduced hinv hidle (by decide) ?_
  · by_cases hlt : ∑ q, x q < s.produced
    · exact ⟨.consuming, .consuming, _, [], .behind hnonneg hlt, fun pe => .inl (hbehind pe),
        .inl rfl, hact.bounded,
        hact.sums, hact.allDone, hact.allConsumed, fun _ h => absurd rfl h, fun _ h =>
          Stage.noConfusion h⟩
    · exact ⟨.consuming, .finished, _, [], .finish (by change ∑ q, x q = s.produced; omega),
        fun pe => .inl (hbehind pe),
        .inl rfl, hact.bounded, fun h => absurd rfl h, fun _ => hact.allDone (.inl rfl),
        fun _ => by change s.consumed = s.produced; omega, fun _ h => absurd rfl h, fun _ h =>
          Stage.noConfusion h⟩

theorem Active.reduce_finished (hact : Active s prev .finished msg [])
    (hcur : ∀ pe, Current s .finished [] pe) : ∃ s', s.exec .reduce = some s' ∧ Inv s' := by
  have hqueue : ∀ pe, s.queues pe = [.finish] := fun pe => by
    obtain ⟨c, hc, rfl⟩ := (hcur pe).queue
    exact hc
  refine ⟨_, exec_reduce (fun pe => ⟨_, hqueue pe⟩) fun _ => rfl, { hinv with
    resting := fun _ =>
      ⟨fun pe => (hcur pe).isAt, fun pe => congrArg List.tail (hqueue pe), fun pe => ?_,
      hact.allDone (.inr rfl), hact.allConsumed rfl⟩
    active := fun h => ?_ }⟩
  · exact (append_nil _).trans (hcur pe).inbox
  · change (s.idle || true) = false at h
    rw [Bool.or_true] at h
    exact absurd h.symm false_ne_true

/-- A reduction is complete. -/
theorem inv_reduce (hen : s.Enabled .reduce) : ∃ s', s.exec .reduce = some s' ∧ Inv s' := by
  obtain ⟨hidle, prev, stage, msg, pending, hact⟩ := hinv.active_of fun h => hen 0 (h.queues 0)
  have hcur : ∀ pe, Current s stage pending pe := fun pe =>
    (hact.places pe).resolve_left fun h => hen pe h.queue
  rcases hact.starts with rfl | rfl
  · cases stage with
    | fresh =>
      obtain ⟨c, -, hc⟩ := (hcur 0).queue
      exact hc.elim
    | producing => exact hact.reduce_producing hinv hcur hidle
    | consuming => exact hact.reduce_consuming hinv hcur hidle
    | finished => exact hact.reduce_finished hinv hcur
  · obtain ⟨s', hs', hactive', hidle', queues, inbox, heq⟩ := hact.reduce_start hcur
    refine ⟨s', hs', ?_⟩
    rw [hidle] at hidle'
    rw [hidle'] at heq
    subst heq
    exact { hinv with resting := false_ne_true.elim, active := fun _ =>
      ⟨prev, stage, msg, [], hactive'⟩ }

end Reduce

/-! ## Calls -/

section Calls

variable {pe : Fin (n + 1)}

/-- A counter is at most the sum of all. -/
theorem le_sum {f : Fin (n + 1) → Int} (h : ∀ q, 0 ≤ f q) (pe : Fin (n + 1)) : f pe ≤ ∑ q, f q :=
  Finset.single_le_sum (fun q _ => h q) (Finset.mem_univ pe)

variable {producer events : Nat}

theorem card_lt_of_notMem (hinv : Inv s) (hlt : producer < s.numProducers)
    (hnot : producer ∉ s.doneBy) : s.doneBy.card < s.numProducers := by
  have hsub : s.doneBy ⊂ Finset.range s.numProducers :=
    (Finset.ssubset_iff_of_subset hinv.doneBy).2 ⟨producer, Finset.mem_range.2 hlt, hnot⟩
  have := Finset.card_lt_card hsub
  rwa [Finset.card_range] at this

/-- While a producer is not done, the PEs are in the first loop or before it. -/
theorem active_of_producing (hinv : Inv s) (hcard : s.doneBy.card < s.numProducers) :
    s.idle = false ∧ ∃ prev msg pending, Active s prev .producing msg pending := by
  obtain ⟨hidle, prev, stage, msg, pending, hact⟩ := hinv.active_of fun h => by
    have := h.allDone
    omega
  refine ⟨hidle, prev, msg, pending, ?_⟩
  cases stage with
  | fresh => cases hact.leads
  | producing => exact hact
  | consuming =>
    have := hact.allDone (.inl rfl)
    omega
  | finished =>
    have := hact.allDone (.inr rfl)
    omega

/-- All but the counters of a detector is the same. -/
structure SameControl (d d' : Detector) : Prop where
  point : d'.point = d.point
  running : d'.running = d.running
  unconsumed : d'.unconsumed = d.unconsumed
  producersTotal : d'.producersTotal = d.producersTotal
  producersDoneGlobal : d'.producersDoneGlobal = d.producersDoneGlobal

theorem SameControl.isAt {d' : Detector} (h : SameControl d d')
    (hover : stage ≠ .finished) (hat : At numProducers stage d) : At numProducers stage d' := by
  obtain ⟨h1, h2, h3, h4, h5⟩ := h
  cases stage with
  | fresh => exact ⟨h1.trans hat.1, h2.trans hat.2.1, h5.trans hat.2.2.1, h3.trans hat.2.2.2⟩
  | producing => exact ⟨h1.trans hat.1, h4.trans hat.2.1, h3.trans hat.2.2⟩
  | consuming => exact h1.trans hat
  | finished => exact absurd rfl hover

/-- A call changes the counters of one detector and the numbers they add up to. -/
theorem Active.call {pending : List Contribution}
    (hact : Active s prev stage msg pending) (hover : stage ≠ .finished)
    (hsame : s'.queues = s.queues ∧ s'.inbox = s.inbox ∧ s'.numProducers = s.numProducers ∧
      s'.allProducedSent = s.allProducedSent)
    (hdet : s'.detectors = update s.detectors pe d) (hcontrol : SameControl (s.detectors pe) d)
    (hleads : Leads s'.numProducers s'.produced prev msg stage)
    (hfits : ∀ c, Fits stage (s.detectors pe) c → Fits stage d c) (hbounded : d.Bounded)
    (a b k : Nat) (hdone : d.producersDoneLocal = (s.detectors pe).producersDoneLocal + a ∧
      s'.doneBy.card = s.doneBy.card + a)
    (hproduced : d.produced = (s.detectors pe).produced + b ∧ s'.produced = s.produced + b)
    (hcons : d.consumed = (s.detectors pe).consumed + k ∧ s'.consumed = s.consumed + k)
    (hallDone : stage = .consuming ∨ stage = .finished → s'.doneBy.card = s'.numProducers) :
    Active s' prev stage msg pending := by
  obtain ⟨hqueues, hinbox, hnum, hsent⟩ := hsame
  have hprev : prev ≠ .finished := fun h => by
    rw [h] at hleads
    cases hleads
  have hat : ∀ q σ, σ ≠ .finished → At s.numProducers σ (s.detectors q) →
      At s'.numProducers σ (s'.detectors q) := by
    intro q σ hσ h
    rw [hnum, hdet]
    by_cases hq : q = pe
    · subst hq
      rw [update_self]
      exact hcontrol.isAt hσ h
    · rw [update_of_ne hq]
      exact h
  have hbehind : ∀ q, Behind s prev msg pending q → Behind s' prev msg pending q := fun q h =>
    ⟨hat q _ hprev h.isAt, hinbox.symm ▸ h.inbox, hqueues.symm ▸ h.queue, h.also⟩
  have hcur : ∀ q, Current s stage pending q → Current s' stage pending q := fun q h => by
    obtain ⟨c, hc, hfit⟩ := h.queue
    refine ⟨hat q _ hover h.isAt, hinbox.symm ▸ h.inbox, c, hqueues.symm ▸ hc, ?_⟩
    rw [hdet]
    by_cases hq : q = pe
    · subst hq
      rw [update_self]
      exact hfits c hfit
    · rw [update_of_ne hq]
      exact hfit
  obtain ⟨sum1, sum2, sum3⟩ := hact.sums hover
  have hsum : ∀ (f : Detector → Int) {k x y : Nat}, ∑ q, f (s.detectors q) = x →
      f d = f (s.detectors pe) + k ∧ y = x + k → ∑ q, f (s'.detectors q) = y := by
    rintro f k x y hx ⟨hd, rfl⟩
    rw [hdet, sum_detectors f hd, hx, Int.natCast_add]
  refine ⟨hleads, fun q => (hact.places q).imp (hbehind q) (hcur q), hact.starts, ?_,
    fun _ => ⟨hsum Detector.producersDoneLocal sum1 hdone, hsum Detector.produced sum2 hproduced,
      hsum Detector.consumed sum3 hcons⟩, hallDone, hover.elim, fun h hprev => ?_,
        fun h hstage => ?_⟩
  · rw [hdet]
    exact (forall_update_iff _ fun _ d => Detector.Bounded d).2
      ⟨hbounded, fun q _ => hact.bounded q⟩
  · rw [hsent]
    rcases hact.places 0 with h' | h'
    · exact hact.sentBehind h' hprev
    · exact absurd h (not_behind_of_current (hcur 0 h'))
  · rw [hsent]
    rcases hact.places 0 with h' | h'
    · exact absurd (hbehind 0 h') (not_behind_of_current h)
    · exact hact.sentCurrent h' hstage

/-- Events are produced, not too many of them. -/
theorem inv_produce (hinv : Inv s)
    (hen : s.Enabled (.produce pe producer events)) (hsmall : s.produced + events < 2 ^ 31) :
    ∃ s', s.exec (.produce pe producer events) = some s' ∧ Inv s' := by
  obtain ⟨hidle, prev, msg, pending, hact⟩ :=
    active_of_producing hinv (card_lt_of_notMem hinv hen.1 hen.2.1)
  obtain ⟨sum1, sum2, sum3⟩ := hact.sums Stage.noConfusion
  have hle := le_sum (fun q => (hact.bounded q).produced.1) pe
  obtain ⟨⟨hpos, -⟩, hcons, hdone⟩ := hact.bounded pe
  have hnew : ((s.detectors pe).produce events).produced = (s.detectors pe).produced + events :=
    toInt32_of_range (by omega) (by omega)
  refine ⟨_, if_pos hen, hinv.producers, hinv.doneBy, hsmall,
    hinv.consumed.trans (Nat.le_add_right _ _), hinv.sent,
    hinv.sentDone, fun h => absurd (hidle.symm.trans h) false_ne_true, fun _ =>
      ⟨prev, .producing, msg, pending, ?_⟩⟩
  refine hact.call Stage.noConfusion ⟨rfl, rfl, rfl, rfl⟩ rfl ⟨rfl, rfl, rfl, rfl, rfl⟩ ?_
    (fun c hc => hc)
    ⟨by rw [hnew]; omega, hcons, hdone⟩ 0 events 0 ⟨(add_zero _).symm, rfl⟩ ⟨hnew, rfl⟩
      ⟨(add_zero _).symm, rfl⟩
    hact.allDone
  -- The number of events does not matter in the first loop.
  cases hact.leads with
  | produce h => exact .produce h
  | more h => exact .more h

/-- A producer is done. -/
theorem inv_done (hinv : Inv s) (hen : s.Enabled (.done pe producer)) :
    ∃ s', s.exec (.done pe producer) = some s' ∧ Inv s' := by
  have hcard := card_lt_of_notMem hinv hen.1 hen.2
  obtain ⟨hidle, prev, msg, pending, hact⟩ := active_of_producing hinv hcard
  obtain ⟨sum1, sum2, sum3⟩ := hact.sums Stage.noConfusion
  have hle := le_sum (fun q => (hact.bounded q).producersDoneLocal.1) pe
  obtain ⟨hproduced, hcons, hpos, -⟩ := hact.bounded pe
  have hproducers := hinv.producers
  have hnew : ((s.detectors pe).done 1).producersDoneLocal =
      (s.detectors pe).producersDoneLocal + 1 :=
    toInt32_of_range (by omega) (by omega)
  have hins : (insert producer s.doneBy).card = s.doneBy.card + 1 :=
    Finset.card_insert_of_notMem hen.2
  have hsub : insert producer s.doneBy ⊆ Finset.range s.numProducers :=
    Finset.insert_subset (Finset.mem_range.2 hen.1) hinv.doneBy
  have hsent : s.allProducedSent ≠ 1 := fun h => by
    have := hinv.sentDone h
    omega
  refine ⟨_, if_pos hen, hinv.producers, hsub, hinv.produced, hinv.consumed, hinv.sent, hsent.elim,
    fun h => absurd (hidle.symm.trans h) false_ne_true, fun _ =>
      ⟨prev, .producing, msg, pending, ?_⟩⟩
  refine hact.call Stage.noConfusion ⟨rfl, rfl, rfl, rfl⟩ rfl ⟨rfl, rfl, rfl, rfl, rfl⟩
    hact.leads ?_
    ⟨hproduced, hcons, by rw [hnew]; omega⟩ 1 0 0 ⟨hnew, hins⟩ ⟨(add_zero _).symm, rfl⟩
    ⟨(add_zero _).symm, rfl⟩ fun h => h.elim Stage.noConfusion Stage.noConfusion
  rintro c ⟨x, rfl, hx, hlt⟩
  exact ⟨x, rfl, hx, by rw [hnew]; omega⟩

/-- Events are consumed. -/
theorem inv_consume (hinv : Inv s) (hen : s.Enabled (.consume pe events)) :
    ∃ s', s.exec (.consume pe events) = some s' ∧ Inv s' := by
  have hle := hen.1
  refine ⟨_, if_pos hen, ?_⟩
  have hsmall := hinv.produced
  by_cases hlt : s.consumed < s.produced
  · obtain ⟨hidle, prev, stage, msg, pending, hact⟩ := hinv.active_of fun h => by
      have := h.allConsumed
      omega
    have hover : stage ≠ .finished := fun h => by
      have := hact.allConsumed h
      omega
    obtain ⟨sum1, sum2, sum3⟩ := hact.sums hover
    have hle' := le_sum (fun q => (hact.bounded q).consumed.1) pe
    obtain ⟨hproduced, ⟨hpos, -⟩, hdone⟩ := hact.bounded pe
    have hnew : ((s.detectors pe).consume events).consumed = (s.detectors pe).consumed + events :=
      toInt32_of_range (by omega) (by omega)
    refine { hinv with
      consumed := hle
      resting := fun h => absurd (hidle.symm.trans h) false_ne_true
      active := fun _ => ⟨prev, stage, msg, pending, ?_⟩ }
    refine hact.call hover ⟨rfl, rfl, rfl, rfl⟩ rfl ⟨rfl, rfl, rfl, rfl, rfl⟩ hact.leads
      (fun c hc => ?_)
      ⟨hproduced, by rw [hnew]; omega, hdone⟩ 0 0 events ⟨(add_zero _).symm, rfl⟩
        ⟨(add_zero _).symm, rfl⟩ ⟨hnew, rfl⟩
      hact.allDone
    cases stage with
    | fresh | producing => exact hc
    | consuming =>
      obtain ⟨x, rfl, hx, hlt⟩ := hc
      exact ⟨x, rfl, hx, by rw [hnew]; omega⟩
    | finished => exact absurd rfl hover
  · -- There is nothing to consume, and nothing changes.
    obtain rfl : events = 0 := by omega
    have hbounded : (s.detectors pe).Bounded := by
      cases hidle : s.idle with
      | true =>
        rw [(hinv.resting hidle).detectors pe]
        exact bounded_init
      | false =>
        obtain ⟨prev, stage, msg, pending, hact⟩ := hinv.active hidle
        exact hact.bounded pe
    have hsame : (s.detectors pe).consume ((0 : Nat) : Int) = s.detectors pe := by
      have hrange : toInt32 ((s.detectors pe).consumed + ((0 : Nat) : Int)) =
          (s.detectors pe).consumed :=
        (toInt32_of_range (by have := hbounded.consumed; omega)
          (by have := hbounded.consumed; omega)).trans
          (add_zero _)
      rw [Detector.consume, hrange]
    have heq : { s.update pe ((s.detectors pe).consume ((0 : Nat) : Int))
        with consumed := s.consumed + 0 } = s := by
      rw [hsame, System.update, update_eq_self]
      rfl
    rw [heq]
    exact hinv

end Calls

end System

/-! ## Runs -/

section Runs

variable {n : Nat} {s s' : System n} {e : Event n}

/-- The number of events of the phase stays below `2 ^ 31`. -/
def Event.Small (s : System n) : Event n → Prop
  | .produce _ _ events => s.produced + events < 2 ^ 31
  | _ => True

instance (s : System n) : (e : Event n) → Decidable (e.Small s)
  | .produce _ _ events => inferInstanceAs (Decidable (s.produced + events < 2 ^ 31))
  | .begin .. | .consume .. | .done .. | .receive _ | .reduce => inferInstanceAs (Decidable True)

/-- A step in which that is so. -/
def SmallStep (s : System n) (e : Event n) (s' : System n) : Prop := e.Small s ∧ s.exec e = some s'

theorem exec_inv (hinv : Inv s) (hen : s.Enabled e) (hsmall : e.Small s) :
    ∃ s', s.exec e = some s' ∧ Inv s' := by
  cases e with
  | begin numProducers start allProduced => exact inv_begin hinv hen
  | produce pe producer events => exact inv_produce hinv hen hsmall
  | consume pe events => exact inv_consume hinv hen
  | done pe producer => exact inv_done hinv hen
  | receive pe => exact inv_receive hinv hen
  | reduce => exact inv_reduce hinv hen

theorem enabled_of_exec (h : s.exec e = some s') : s.Enabled e := by
  cases e with
  | begin | produce | consume | done => exact (ite_none_right_eq_some.1 h).1
  | receive pe =>
    intro hnil
    rw [System.exec, hnil] at h
    exact absurd h (some_ne_none s').symm
  | reduce =>
    intro pe hnil
    obtain ⟨kind, -, hreduce⟩ := bind_eq_some_iff.1 h
    have hkind := (ite_none_right_eq_some.1 hreduce).1 pe
    rw [hnil] at hkind
    exact absurd hkind (some_ne_none kind).symm

/-- A PE that has contributed to `finish` is in the last stage. -/
theorem consumed_of_finish (hinv : Inv s) {pe : Fin (n + 1)} (hmem : .finish ∈ s.queues pe) :
    s.consumed = s.produced := by
  have hne : s.queues pe ≠ [] := ne_nil_of_mem hmem
  obtain ⟨-, prev, stage, msg, pending, hact⟩ := hinv.active_of fun h => hne (h.queues pe)
  obtain ⟨c, hc, hfits⟩ := ((hact.places pe).resolve_left fun h => hne h.queue).queue
  obtain rfl : c = .finish := by
    rw [hc] at hmem
    rcases hact.starts with rfl | rfl
    · exact (mem_singleton.1 hmem).symm
    · have hc : .finish = c := by simpa using hmem
      exact hc.symm
  cases stage with
  | fresh => exact hfits.elim
  | producing | consuming =>
    obtain ⟨x, hx, -⟩ := hfits
    exact Contribution.noConfusion hx
  | finished => exact hact.allConsumed rfl

/-- In the runs in which no phase has `2 ^ 31` events or more: when a PE has contributed to
`finish`, all events of the phase have been consumed, `allProduced` is sent at most once in a phase,
when all producers are done, and all counters are zero when a phase begins. Nothing fails. -/
theorem completion_sound {es : List (Event n)} (hrun : Run SmallStep System.init es s) :
    (∀ pe, .finish ∈ s.queues pe → s.consumed = s.produced) ∧ s.allProducedSent ≤ 1 ∧
      (s.allProducedSent = 1 → ∀ producer < s.numProducers, producer ∈ s.doneBy) ∧
      (s.idle = true → ∀ pe, s.detectors pe = .init) ∧
      ∀ e, s.Enabled e → e.Small s → ∃ s', s.exec e = some s' := by
  have hinv : Inv s := by
    refine hrun.invariant inv_init fun s e s' hs ⟨hsmall, hexec⟩ => ?_
    obtain ⟨t, ht, hinv⟩ := exec_inv hs (enabled_of_exec hexec) hsmall
    rwa [some.inj (hexec.symm.trans ht)]
  refine ⟨fun pe => consumed_of_finish hinv, hinv.sent, fun hsent producer hlt => ?_,
    fun hidle => (hinv.resting hidle).detectors, fun e henabled hsmall => ?_⟩
  · have hall : s.doneBy = Finset.range s.numProducers :=
      Finset.eq_of_subset_of_card_le hinv.doneBy (by rw [Finset.card_range, hinv.sentDone hsent])
    rw [hall]
    exact Finset.mem_range.2 hlt
  · obtain ⟨s', hs', -⟩ := exec_inv hinv henabled hsmall
    exact ⟨s', hs'⟩

/-- Two PEs with a producer each, whose three events are consumed while the counts are collected. -/
def twoProducers : List (Event 1) :=
  [.begin 2 false true, .receive 0, .produce 0 0 1, .produce 1 1 2, .done 0 0,
    .receive 1, .done 1 1,
    .reduce, .receive 0, .receive 1, .consume 0 2, .consume 1 1, .reduce, .receive 0, .receive 1,
    .reduce, .receive 0, .receive 1]

theorem completion_sound_two : ∃ s, Run SmallStep System.init twoProducers s ∧
    .finish ∈ s.queues 0 ∧ .finish ∈ s.queues 1 ∧ s.produced = 3 ∧ s.allProducedSent = 1 ∧
    s.consumed = s.produced := by
  have hexec : (twoProducers.foldlM
      (fun (s : System 1) (e : Event 1) => if e.Small s then s.exec e else none) System.init).any
      (fun s => .finish ∈ s.queues 0 ∧ .finish ∈ s.queues 1 ∧ s.produced = 3 ∧
        s.allProducedSent = 1) = true := by
    decide +kernel
  obtain ⟨s, hs, hzero, hone, hproduced, hsent⟩ := Run.exists_of_any hexec
  have hrun : Run SmallStep System.init twoProducers s :=
    (Run.of_foldlM hs).mono fun _ _ _ h => ite_none_right_eq_some.1 h
  exact ⟨s, hrun, hzero, hone, hproduced, hsent, (completion_sound hrun).1 0 hzero⟩

/-- One PE produces `2 ^ 31` events and consumes none of them. The counter wraps, and the detection
finishes. -/
theorem finish_too_early : ∃ s : System 0, Run (fun s e s' => s.exec e = some s') System.init
        [.begin 1 false false, .produce 0 0 (2 ^ 31 - 1), .produce 0 0 1, .done 0 0, .receive 0,
          .reduce, .receive 0,
          .reduce, .receive 0] s ∧ .finish ∈ s.queues 0 ∧ s.produced = 2 ^ 31 ∧ s.consumed = 0 :=
  ⟨_, Run.of_foldlM rfl, by decide, by decide, by decide⟩

end Runs

end CharmRuntime.Completion
