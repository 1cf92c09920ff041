import CharmRuntime.Lib.Run
import CharmRuntime.Lib.Words
import Mathlib.Data.Fintype.BigOperators

/-!
# Completion detection

The model of the group `CompletionDetector` (`completion.ci`, `completion.C`). `start_detection`
first sums up the numbers of producers that are done, over and over again, until all of them are.
Then it sums up the numbers of produced and of consumed events until they agree, resets its
counters, and contributes to the callback `finish`.

The counters are of type `int` and wrap. The contributions of a PE wait in a queue; a reduction is
complete when every PE has contributed to it, and its result is then sent to all PEs, which receive
it at any time. The application begins a phase after the `finish` callback of the one before.
-/

set_option autoImplicit false

namespace CharmRuntime.Completion

open Lib Words

/-- Where `start_detection` waits. -/
inductive Point
  | outside
  | producersDone
  | countConsumed
  deriving DecidableEq

/-- A message for a PE. The callbacks of `start_detection` are valid or not. -/
inductive Message
  | startDetection (numProducers : Nat) (start allProduced : Bool)
  | producersDone (producersDoneGlobal : Int)
  | countConsumed (producedGlobal consumedGlobal : Int)
  deriving DecidableEq

/-- What a PE contributes, to the reduction for `start`, for `producers_done`, for `count_consumed`
or for `finish`. -/
inductive Contribution
  | start
  | producersDone (producersDoneLocal : Int)
  | countConsumed (produced consumed : Int)
  | finish
  deriving DecidableEq

/-- The `CompletionDetector` of a PE, and where it is in `start_detection`. -/
structure Detector where
  produced : Int
  consumed : Int
  unconsumed : Int
  producersTotal : Int
  producersDoneLocal : Int
  producersDoneGlobal : Int
  running : Bool
  point : Point
  allProduced : Bool
  deriving DecidableEq

namespace Detector

/-- `init`. -/
def init : Detector := ⟨0, 0, 1, 0, 0, 0, false, .outside, false⟩

def produce (d : Detector) (eventsProduced : Int) : Detector :=
  { d with produced := toInt32 (d.produced + eventsProduced) }

def consume (d : Detector) (eventsConsumed : Int) : Detector :=
  { d with consumed := toInt32 (d.consumed + eventsConsumed) }

def done (d : Detector) (producersDone : Int) : Detector :=
  { d with producersDoneLocal := toInt32 (d.producersDoneLocal + producersDone) }

end Detector

/-- What a message makes of a detector: the contributions, and whether it has got past the first
loop. -/
structure Outcome where
  detector : Detector
  contributions : List Contribution
  allProduced : Bool

namespace Detector

variable (d : Detector)

/-- The second loop of `start_detection`, and what follows it. -/
def consumptionLoop : Outcome :=
  if 0 < d.unconsumed then ⟨{ d with point := .countConsumed },
    [.countConsumed d.produced d.consumed], false⟩
  else ⟨.init, [.finish], false⟩

/-- The first loop of `start_detection`, and what follows it. -/
def productionLoop : Outcome :=
  if d.producersDoneGlobal < d.producersTotal then
    ⟨{ d with point := .producersDone }, [.producersDone d.producersDoneLocal], false⟩
  else { d.consumptionLoop with allProduced := d.allProduced }

/-- `start_detection` goes on with a message, if it waits for it. -/
def receive : Message → Option Outcome
  | .startDetection numProducers start allProduced =>
    if d.running ∨ d.point ≠ .outside then none
    else
      let o := { d with
        running := true
        producersTotal := numProducers
        allProduced := allProduced }.productionLoop
      some { o with contributions := (if start then [.start] else []) ++ o.contributions }
  | .producersDone producersDoneGlobal =>
    if d.point = .producersDone then some
      { d with producersDoneGlobal := producersDoneGlobal }.productionLoop
    else none
  | .countConsumed producedGlobal consumedGlobal =>
    if d.point = .countConsumed then
      some { d with unconsumed := toInt32 (producedGlobal - consumedGlobal) }.consumptionLoop
    else none

end Detector

/-! ## Reductions -/

/-- The kind of a contribution. -/
inductive Kind
  | start
  | producersDone
  | countConsumed
  | finish
  deriving DecidableEq

def Contribution.kind : Contribution → Kind
  | .start => .start
  | .producersDone _ => .producersDone
  | .countConsumed _ _ => .countConsumed
  | .finish => .finish

/-- The numbers that are summed up. -/
def Contribution.values : Contribution → Int × Int
  | .start => (0, 0)
  | .producersDone x => (x, 0)
  | .countConsumed x y => (x, y)
  | .finish => (0, 0)

/-- The message with the result of a reduction, if there is one. -/
def Kind.result (kind : Kind) (x y : Int) : List Message :=
  match kind with
  | .start => []
  | .producersDone => [.producersDone (toInt32 x)]
  | .countConsumed => [.countConsumed (toInt32 x) (toInt32 y)]
  | .finish => []

/-! ## All PEs -/

/-- The detectors of `n + 1` PEs, with the contributions that wait for other PEs, and the messages
under way. The other fields are about the phase: whether the application may begin the next one, the
number of producers, those that are done, the numbers of events that have been produced and
consumed, and how often `allProduced` has been sent. -/
structure System (n : Nat) where
  detectors : Fin (n + 1) → Detector
  queues : Fin (n + 1) → List Contribution
  inbox : Fin (n + 1) → List Message
  idle : Bool
  numProducers : Nat
  doneBy : Finset Nat
  produced : Nat
  consumed : Nat
  allProducedSent : Nat

/-- What happens: the application begins a phase, a producer calls `produce` or `done` on some PE,
events are consumed, a PE receives a message, or a reduction is complete. -/
inductive Event (n : Nat)
  | begin (numProducers : Nat) (start allProduced : Bool)
  | produce (pe : Fin (n + 1)) (producer events : Nat)
  | consume (pe : Fin (n + 1)) (events : Nat)
  | done (pe : Fin (n + 1)) (producer : Nat)
  | receive (pe : Fin (n + 1))
  | reduce

namespace System

variable {n : Nat}

def init : System n := ⟨fun _ => .init, fun _ => [], fun _ => [], true, 0, ∅, 0, 0, 0⟩

/-- Whether an event can happen. Producers are done once and do not produce afterwards, and only
what has been produced is consumed. -/
def Enabled (s : System n) : Event n → Prop
  | .begin numProducers _ _ => s.idle ∧ numProducers < 2 ^ 31
  | .produce _ producer events => producer < s.numProducers ∧ producer ∉ s.doneBy ∧ events < 2 ^ 31
  | .consume _ events => s.consumed + events ≤ s.produced ∧ events < 2 ^ 31
  | .done _ producer => producer < s.numProducers ∧ producer ∉ s.doneBy
  | .receive pe => s.inbox pe ≠ []
  | .reduce => ∀ pe, s.queues pe ≠ []

/-- A detector changes. -/
def update (s : System n) (pe : Fin (n + 1)) (d : Detector) : System n :=
  { s with detectors := Function.update s.detectors pe d }

/-- A PE has received a message, and `rest` is still under way to it. -/
def received (s : System n) (pe : Fin (n + 1)) (rest : List Message) (o : Outcome) : System n :=
  { s.update pe o.detector with
    queues := Function.update s.queues pe (s.queues pe ++ o.contributions)
    inbox := Function.update s.inbox pe rest
    allProducedSent := s.allProducedSent + if o.allProduced ∧ pe = 0 then 1 else 0 }

/-- The values of the first contribution of a PE. -/
def front (s : System n) (pe : Fin (n + 1)) : Int × Int :=
  (((s.queues pe).head?).getD .start).values

/-- A reduction, if all PEs have contributed to the same one. -/
def reduce (s : System n) (kind : Kind) : Option (System n) :=
  if ∀ pe, (s.queues pe).head?.map Contribution.kind = some kind then
    some { s with
      queues := fun pe => (s.queues pe).tail
      inbox := fun pe => s.inbox pe ++ kind.result (∑ q, (s.front q).1) (∑ q, (s.front q).2)
      idle := s.idle || kind = .finish }
  else none

/-- What an event does. -/
def exec (s : System n) : Event n → Option (System n)
  | .begin numProducers start allProduced =>
    if s.idle ∧ numProducers < 2 ^ 31 then
      some { s with
        inbox := fun pe => s.inbox pe ++ [.startDetection numProducers start allProduced]
        idle := false
        numProducers := numProducers
        doneBy := ∅
        produced := 0
        consumed := 0
        allProducedSent := 0 }
    else none
  | .produce pe producer events =>
    if producer < s.numProducers ∧ producer ∉ s.doneBy ∧ events < 2 ^ 31 then
      some { s.update pe ((s.detectors pe).produce events) with produced := s.produced + events }
    else none
  | .consume pe events =>
    if s.consumed + events ≤ s.produced ∧ events < 2 ^ 31 then
      some { s.update pe ((s.detectors pe).consume events) with consumed := s.consumed + events }
    else none
  | .done pe producer =>
    if producer < s.numProducers ∧ producer ∉ s.doneBy then
      some { s.update pe ((s.detectors pe).done 1) with doneBy := insert producer s.doneBy }
    else none
  | .receive pe =>
    match s.inbox pe with
    | [] => none
    | msg :: rest => ((s.detectors pe).receive msg).map (s.received pe rest)
  | .reduce => ((s.queues 0).head?.map Contribution.kind).bind s.reduce

end System

end CharmRuntime.Completion
