import CharmRuntime.Lib.Run
import CharmRuntime.Queueing.PrioQueue

/-!
# The scheduler queue

`Queue_struct` consists of a priority queue for negative priorities, a deque for priority zero and a
priority queue for positive priorities. Each case of the switch in `CqsEnqueueGeneral` selects one
of the three and a priority key (`target`), and inserts at the tail or at the head of the selected
deque (`Strategy.isLifo`). `CqsDequeue` serves the three in the order negative, zero, positive.

Counters and array sizes are `int`s in the source and natural numbers here; the two agree as long as
none of them overflows. A call that aborts, or that would read words its caller did not supply, has
no successor state.

A run is a sequence of calls (`QStep`), and each call is a dequeue or one insertion
(`qStep_cases`).
-/

set_option autoImplicit false

namespace CharmRuntime.Queueing

open Option

universe u

variable {α : Type u}

/-- The queueing strategies of `CqsEnqueueGeneral`. -/
inductive Strategy where
  | fifo | lifo | ififo | ilifo | bfifo | blifo | lfifo | llifo

/-- The strategies that insert at the head. -/
def Strategy.isLifo : Strategy → Bool
  | .lifo | .ilifo | .blifo | .llifo => true
  | .fifo | .ififo | .bfifo | .lfifo => false

/-- The deque a message goes to: the zero-priority deque, or the bucket of a key of `priobits` bits
and the given words in the positive or the negative priority queue. -/
inductive Target where
  | zero
  | prio (positive : Bool) (priobits : Word) (words : List Word)

/-- `Queue_struct`. -/
structure Queue (α : Type u) where
  length : Nat
  maxlen : Nat
  zeroprio : Deq α
  negprioq : Prioq α
  posprioq : Prioq α

/-- `CqsCreate`. -/
def cqsCreate : Queue α := ⟨0, 0, cqsDeqInit, cqsPrioqInit, cqsPrioqInit⟩

/-- `q->length++; if (q->length>q->maxlen) q->maxlen=q->length;`. -/
def Queue.bump (q : Queue α) : Queue α :=
  { q with
    length := q.length + 1
    maxlen := if q.length + 1 > q.maxlen then q.length + 1 else q.maxlen }

/-- Insert a message into the selected deque. -/
def Queue.insertAt (q : Queue α) (t : Target) (lifo : Bool) (data : α) : Queue α :=
  match t with
  | .zero => { q with zeroprio := deqPut lifo q.zeroprio data }
  | .prio true priobits words => { q with posprioq := q.posprioq.put priobits words lifo data }
  | .prio false priobits words => { q with negprioq := q.negprioq.put priobits words lifo data }

/-- The target of the integer strategies: the biased priority is a key of one word. -/
def intTarget (prioptr : List Word) : Option Target :=
  match prioptr with
  | [] => none
  | p :: _ => some (.prio (biasInt p).msb cintBits [biasInt p])

/-- The target of the bit-vector strategies: the words at `prioptr` are the key. -/
def bitsTarget (priobits : Word) (prioptr : List Word) : Option Target :=
  if prioptr.length < prioInts priobits then none
  else if priobits = 0 then some (.prio false priobits prioptr)
  else
    match prioptr with
    | [] => none
    | p :: _ => some (.prio p.msb priobits prioptr)

/-- The target of the 64-bit strategies: the words of `lprio` are the key. -/
def longTarget (little : Bool) (priobits : Word) (prioptr : List Word) : Option Target :=
  match prioptr with
  | w0 :: w1 :: _ =>
    let lprio0 := biasLong (loadLong little w0 w1)
    if 2 < prioInts priobits then none
    else some (.prio lprio0.msb priobits (longWords little (lprio little lprio0)))
  | _ => none

/-- The deque that `CqsEnqueueGeneral` inserts into. `LFIFO` asserts the number of bits, `LLIFO`
does not. -/
def target (little : Bool) (strategy : Strategy) (priobits : Word) (prioptr : List Word) :
    Option Target :=
  match strategy with
  | .fifo | .lifo => some .zero
  | .ififo | .ilifo => intTarget prioptr
  | .bfifo | .blifo => bitsTarget priobits prioptr
  | .lfifo => if priobits = clongBits then longTarget little priobits prioptr else none
  | .llifo => longTarget little priobits prioptr

/-- There is memory for the bucket of the target. -/
def Queue.serves (q : Queue α) : Target → Bool
  | .zero => true
  | .prio true priobits words => q.posprioq.serves priobits words
  | .prio false priobits words => q.negprioq.serves priobits words

/-- `CqsEnqueueGeneral`; no result where an assertion fails or memory runs out. -/
def cqsEnqueueGeneral (little : Bool) (q : Queue α) (data : α) (strategy : Strategy)
    (priobits : Word) (prioptr : List Word) : Option (Queue α) :=
  ((target little strategy priobits prioptr).filter q.serves).map fun t =>
    (q.insertAt t strategy.isLifo data).bump

/-- `CqsEnqueueFifo`. -/
def cqsEnqueueFifo (q : Queue α) (data : α) : Queue α :=
  Queue.bump { q with zeroprio := cqsDeqEnqueueFifo q.zeroprio data }

/-- `CqsEnqueueLifo`. -/
def cqsEnqueueLifo (q : Queue α) (data : α) : Queue α :=
  Queue.bump { q with zeroprio := cqsDeqEnqueueLifo q.zeroprio data }

/-- `CqsEnqueue`. -/
def cqsEnqueue (q : Queue α) (data : α) : Queue α :=
  Queue.bump { q with zeroprio := cqsDeqEnqueueFifo q.zeroprio data }

/-- `CqsDequeue`: the response, `none` for null, and the queue afterwards. -/
def cqsDequeue (q : Queue α) : Option α × Queue α :=
  if q.length = 0 then (none, q)
  else if q.negprioq.heapnext > 1 then
    let r := cqsPrioqDequeue q.negprioq
    (r.1, { q with negprioq := r.2, length := q.length - 1 })
  else if q.zeroprio.head ≠ q.zeroprio.tail then
    let r := cqsDeqDequeue q.zeroprio
    (r.1, { q with zeroprio := r.2, length := q.length - 1 })
  else if q.posprioq.heapnext > 1 then
    let r := cqsPrioqDequeue q.posprioq
    (r.1, { q with posprioq := r.2, length := q.length - 1 })
  else (none, q)

/-! ## Runs -/

/-- A call on the queue; a dequeue carries its response. -/
inductive QEvent (α : Type u) where
  | enqueue (data : α)
  | enqueueFifo (data : α)
  | enqueueLifo (data : α)
  | enqueueGeneral (data : α) (strategy : Strategy) (priobits : Word) (prioptr : List Word)
  | dequeue (resp : Option α)

/-- One call takes the queue to its next state. -/
def QStep (little : Bool) (q : Queue α) : QEvent α → Queue α → Prop
  | .enqueue data, q' => q' = cqsEnqueue q data
  | .enqueueFifo data, q' => q' = cqsEnqueueFifo q data
  | .enqueueLifo data, q' => q' = cqsEnqueueLifo q data
  | .enqueueGeneral data strategy priobits prioptr, q' =>
    cqsEnqueueGeneral little q data strategy priobits prioptr = some q'
  | .dequeue resp, q' => cqsDequeue q = (resp, q')

/-- The target, the end and the message of an enqueueing call. -/
def QEvent.insertion (little : Bool) : QEvent α → Option (Target × Bool × α)
  | .enqueue data => some (.zero, false, data)
  | .enqueueFifo data => some (.zero, false, data)
  | .enqueueLifo data => some (.zero, true, data)
  | .enqueueGeneral data strategy priobits prioptr =>
    (target little strategy priobits prioptr).map fun t => (t, strategy.isLifo, data)
  | .dequeue _ => none

variable {little : Bool} {e : QEvent α} {t : Target}

/-- A call is a dequeue or inserts a message into one of the deques and counts it. -/
theorem qStep_cases {q q' : Queue α} (h : QStep little q e q') :
    e = .dequeue (cqsDequeue q).1 ∧ (cqsDequeue q).2 = q' ∨
      ∃ t lifo data, e.insertion little = some (t, lifo, data) ∧
      q' = (q.insertAt t lifo data).bump := by
  cases e with
  | enqueue data | enqueueFifo data => exact .inr ⟨.zero, false, data, rfl, h⟩
  | enqueueLifo data => exact .inr ⟨.zero, true, data, rfl, h⟩
  | enqueueGeneral data strategy bits prioptr =>
    refine .inr ?_
    obtain ⟨t, ht, hq⟩ := map_eq_some_iff.1 h
    refine ⟨t, strategy.isLifo, data, ?_, hq.symm⟩
    show (target little strategy bits prioptr).map _ = _
    rw [(filter_eq_some_iff.1 ht).1]
    rfl
  | dequeue resp =>
    rw [show cqsDequeue q = (resp, q') from h]
    exact .inl ⟨rfl, rfl⟩

theorem qStep_enqueueGeneral {q : Queue α} {strategy : Strategy} {bits : Word} {prioptr : List Word}
    (ht : target little strategy bits prioptr = some t) (hserves : q.serves t = true) (data : α) :
    QStep little q (.enqueueGeneral data strategy bits prioptr)
      (q.insertAt t strategy.isLifo data).bump := by
  show ((target little strategy bits prioptr).filter _).map _ = _
  rw [ht, filter_some_pos hserves]
  rfl

/-- A key has the words its number of bits calls for. -/
def Target.Supplied : Target → Prop
  | .zero => True
  | .prio _ priobits words => prioInts priobits ≤ words.length

theorem longWords_length (x : BitVec 64) : (longWords little x).length = 2 := by
  cases little <;> rfl

/-- The deques that the calls insert into. The number of bits of a bit vector and of a 64-bit
priority is that of the call. -/
inductive QEvent.Selects (little : Bool) : QEvent α → Target → Prop
  | zero {e : QEvent α} : Selects little e .zero
  | int {e : QEvent α} (p : Word) : Selects little e (.prio p.msb cintBits [p])
  | noBits {e : QEvent α} (prioptr : List Word) : Selects little e (.prio false 0 prioptr)
  | bits {d : α} {strategy : Strategy} {priobits p : Word} {rest prioptr : List Word}
      (hs : strategy = .bfifo ∨ strategy = .blifo) (h0 : priobits ≠ 0)
        (hlen : prioInts priobits ≤ (p :: rest).length) :
      Selects little (.enqueueGeneral d strategy priobits prioptr)
        (.prio p.msb priobits (p :: rest))
  | long {d : α} {strategy : Strategy} {priobits : Word} {prioptr : List Word} (x : BitVec 64)
      (hs : strategy = .lfifo ∧ priobits = clongBits ∨ strategy = .llifo)
        (hlen : prioInts priobits ≤ 2) :
      Selects little (.enqueueGeneral d strategy priobits prioptr)
        (.prio x.msb priobits (longWords little (lprio little x)))

theorem insertion_selects {lifo : Bool} {data : α}
    (h : e.insertion little = some (t, lifo, data)) : e.Selects little t := by
  cases e with
  | enqueue | enqueueFifo | enqueueLifo => cases h; exact .zero
  | dequeue resp => cases h
  | enqueueGeneral d strategy bits prioptr =>
    obtain ⟨t', ht, he⟩ := map_eq_some_iff.1 h
    cases he
    have hint : intTarget prioptr = some t →
        QEvent.Selects little (.enqueueGeneral data strategy bits prioptr) t := by
      intro ht
      cases prioptr with
      | nil => cases ht
      | cons p rest =>
        cases ht
        exact .int _
    have hbits : strategy = .bfifo ∨ strategy = .blifo → bitsTarget bits prioptr = some t →
        QEvent.Selects little (.enqueueGeneral data strategy bits prioptr) t := by
      intro hs ht
      simp only [bitsTarget] at ht
      split_ifs at ht with hlen h0
      · rw [← some.inj ht, h0]
        exact .noBits _
      · cases prioptr with
        | nil => cases ht
        | cons p rest =>
          cases ht
          exact .bits hs h0 (le_of_not_gt hlen)
    have hlong : strategy = .lfifo ∧ bits = clongBits ∨ strategy = .llifo →
      longTarget little bits prioptr = some t →
        QEvent.Selects little (.enqueueGeneral data strategy bits prioptr) t := by
      intro hs ht
      rcases prioptr with _ | ⟨w0, _ | ⟨w1, rest⟩⟩
      · cases ht
      · cases ht
      · simp only [longTarget] at ht
        split_ifs at ht with hlen
        rw [← some.inj ht]
        exact .long _ hs (le_of_not_gt hlen)
    cases strategy with
    | fifo | lifo => cases ht; exact .zero
    | ififo | ilifo => exact hint ht
    | bfifo => exact hbits (.inl rfl) ht
    | blifo => exact hbits (.inr rfl) ht
    | lfifo =>
      simp only [target] at ht
      split_ifs at ht with hb
      exact hlong (.inl ⟨rfl, hb⟩) ht
    | llifo => exact hlong (.inr rfl) ht

theorem QEvent.Selects.supplied (h : e.Selects little t) : t.Supplied := by
  cases h with
  | zero => trivial
  | int p => exact (by decide : prioInts cintBits ≤ 1)
  | noBits prioptr => exact Nat.zero_le _
  | bits hs h0 hlen => exact hlen
  | long x hs hlen => exact hlen.trans_eq (longWords_length ..).symm

end CharmRuntime.Queueing
