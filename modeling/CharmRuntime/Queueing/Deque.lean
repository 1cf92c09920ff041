import CharmRuntime.Lib.RingBuffer

/-!
# The message deque of the scheduler queue

`deq_struct` of `queueing.h` is a circular buffer of message pointers with four pointers `bgn`,
`end`, `head` and `tail`. Offsets from `bgn` stand for the pointers here, so `end` is `size`. A cell
that holds no message is `none`.

`Deq.Rep d l` says that the deque `d` stores the messages `l` from front to back. The buffer is
doubled as soon as it is full, so `head == tail` always means empty. The three operations act on
the stored list as a double ended queue does (`rep_cqsDeqEnqueueFifo`, `rep_cqsDeqEnqueueLifo`,
`cqsDeqDequeue_cons`).
-/

set_option autoImplicit false

namespace CharmRuntime.Queueing

open Lib Function

universe u

variable {α : Type u}

/-- `deq_struct`: the cells between `bgn` and `end`, their number, and the offsets of `head` and
`tail`. -/
structure Deq (α : Type u) where
  vec : Nat → Option α
  size : Nat
  head : Nat
  tail : Nat

/-- `CqsDeqInit`: the internal space of four cells, empty. -/
def cqsDeqInit : Deq α := ⟨fun _ => none, 4, 0, 0⟩

/-- `CqsDeqExpand`: copy the cells from `head` to `end` and then those from `bgn` to `head` into a
memory of twice the size. -/
def cqsDeqExpand (d : Deq α) : Deq α where
  vec := fun i =>
    if i < d.size - d.head then d.vec (d.head + i)
    else if i < d.size - d.head + d.head then d.vec (i - (d.size - d.head))
    else none
  size := 2 * d.size
  head := 0
  tail := d.size

/-- `CqsDeqEnqueueFifo`: insert at the tail. -/
def cqsDeqEnqueueFifo (d : Deq α) (data : α) : Deq α :=
  let tail := if d.tail + 1 = d.size then 0 else d.tail + 1
  let d' := { d with vec := update d.vec d.tail (some data), tail := tail }
  if tail = d.head then cqsDeqExpand d' else d'

/-- `CqsDeqEnqueueLifo`: insert at the head. -/
def cqsDeqEnqueueLifo (d : Deq α) (data : α) : Deq α :=
  let head := (if d.head = 0 then d.size else d.head) - 1
  let d' := { d with vec := update d.vec head (some data), head := head }
  if head = d.tail then cqsDeqExpand d' else d'

/-- `CqsDeqDequeue`: the message at the head, or `none` for the null pointer when the deque is
empty. -/
def cqsDeqDequeue (d : Deq α) : Option α × Deq α :=
  if d.head = d.tail then (none, d)
  else (d.vec d.head, { d with head := if d.head + 1 = d.size then 0 else d.head + 1 })

/-- The deque stores `l`, front first, and is not full. -/
structure Deq.Rep (d : Deq α) (l : List α) : Prop where
  holds : RingBuffer.Holds d.vec d.size d.head d.tail l
  length_lt : l.length < d.size

/-- The stored messages, front first. -/
def Deq.toList (d : Deq α) : List α := RingBuffer.contents d.vec d.size d.head d.tail

variable {d : Deq α} {l : List α}

theorem Deq.Rep.toList_eq (h : d.Rep l) : d.toList = l :=
  h.holds.contents_eq h.length_lt

theorem Deq.Rep.unique {l' : List α} (h : d.Rep l) (h' : d.Rep l') : l = l' := by
  rw [← h.toList_eq, h'.toList_eq]

theorem Deq.Rep.head_eq_tail_iff (h : d.Rep l) : d.head = d.tail ↔ l = [] :=
  h.holds.head_eq_tail_iff h.length_lt

theorem rep_cqsDeqInit : (cqsDeqInit : Deq α).Rep [] :=
  ⟨RingBuffer.holds_nil (show 0 < 4 by decide), show 0 < 4 by decide⟩

/-- One step forward in the buffer, written with the test of the source. -/
theorem wrap_succ {i size : Nat} (hi : i < size) :
    (if i + 1 = size then 0 else i + 1) = (i + 1) % size := by
  by_cases h : i + 1 = size
  · rw [if_pos h, h, Nat.mod_self]
  · rw [if_neg h, Nat.mod_eq_of_lt (by omega)]

section

variable (h : RingBuffer.Holds d.vec d.size d.head d.tail l)

include h

/-- Expanding a full buffer keeps its list. -/
theorem rep_cqsDeqExpand
    (hfull : l.length = d.size) :
    (cqsDeqExpand d).Rep l := by
  have hh := h.head_lt
  refine ⟨?_, ?_⟩
  · have hcopy : ∀ i, i < l.length → (cqsDeqExpand d).vec i = d.vec ((d.head + i) % d.size) := by
      intro i hi
      show (if i < d.size - d.head then d.vec (d.head + i)
        else if i < d.size - d.head + d.head then d.vec (i - (d.size - d.head)) else none) = _
      by_cases hr : i < d.size - d.head
      · rw [if_pos hr, Nat.mod_eq_of_lt (by omega)]
      · rw [if_neg hr, if_pos (by omega), Nat.mod_eq_sub_mod (by omega),
          Nat.mod_eq_of_lt (by omega)]
        congr 1
        omega
    have hnew : RingBuffer.Holds (cqsDeqExpand d).vec (2 * d.size) 0 l.length l :=
      h.relocate (by omega) hcopy
    rwa [hfull] at hnew
  · show l.length < 2 * d.size
    omega

/-- The two enqueue operations end alike: a buffer that became full is expanded. -/
theorem rep_expand_if_full (hne : l ≠ []) :
    (if d.tail = d.head then cqsDeqExpand d else d).Rep l := by
  by_cases hf : d.tail = d.head
  · rw [if_pos hf]
    exact rep_cqsDeqExpand h ((h.tail_eq_head_iff hne).1 hf)
  · rw [if_neg hf]
    refine ⟨h, Nat.lt_of_le_of_ne h.length_le fun he => hf ((h.tail_eq_head_iff hne).2 he)⟩

end

/-- Inserting at the tail appends to the stored list. -/
theorem rep_cqsDeqEnqueueFifo (h : d.Rep l) (data : α) :
    (cqsDeqEnqueueFifo d data).Rep (l ++ [data]) := by
  have hstep := h.holds.append h.length_lt data
  rw [← wrap_succ h.holds.tail_lt] at hstep
  exact rep_expand_if_full (d := { d with
    vec := update d.vec d.tail (some data)
    tail := if d.tail + 1 = d.size then 0 else d.tail + 1 }) hstep (by simp)

/-- Inserting at the head prepends to the stored list. -/
theorem rep_cqsDeqEnqueueLifo (h : d.Rep l) (data : α) :
    (cqsDeqEnqueueLifo d data).Rep (data :: l) := by
  have hh := h.holds.head_lt
  have hlt : (if d.head = 0 then d.size else d.head) - 1 < d.size := by
    split <;> omega
  have hnext : ((if d.head = 0 then d.size else d.head) - 1 + 1) % d.size = d.head := by
    by_cases h0 : d.head = 0
    · rw [if_pos h0, show d.size - 1 + 1 = d.size by omega, Nat.mod_self, h0]
    · rw [if_neg h0, show d.head - 1 + 1 = d.head by omega, Nat.mod_eq_of_lt hh]
  have hstep := h.holds.prepend h.length_lt data hlt hnext
  have := rep_expand_if_full (d := { d with
    vec := update d.vec ((if d.head = 0 then d.size else d.head) - 1) (some data)
    head := (if d.head = 0 then d.size else d.head) - 1 }) hstep (by simp)
  unfold cqsDeqEnqueueLifo
  simp only [eq_comm (b := d.tail)] at this ⊢
  exact this

/-- Removing from a deque that stores messages returns the first one. -/
theorem cqsDeqDequeue_cons {x : α} (h : d.Rep (x :: l)) :
    (cqsDeqDequeue d).1 = some x ∧ (cqsDeqDequeue d).2.Rep l := by
  have hne : ¬ d.head = d.tail := fun he => by simpa using h.head_eq_tail_iff.1 he
  obtain ⟨hx, hrest⟩ := h.holds.removeHead
  have hlen := h.length_lt
  rw [List.length_cons] at hlen
  unfold cqsDeqDequeue
  rw [if_neg hne]
  refine ⟨hx, ?_, ?_⟩
  · rw [wrap_succ h.holds.head_lt]
    exact hrest
  · show l.length < d.size
    omega

/-- Six insertions exceed the internal space; both ends keep their order across the expansion. -/
example :
    (([1, 2, 3, 4, 5].foldl cqsDeqEnqueueFifo (cqsDeqEnqueueLifo cqsDeqInit 0)).toList :
      List Nat) = [0, 1, 2, 3, 4, 5] := by
  decide

end CharmRuntime.Queueing
