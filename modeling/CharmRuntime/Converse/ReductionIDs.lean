import CharmRuntime.Lib.Run
import Mathlib.Algebra.Order.Ring.Int

/-!
# Identifiers of Converse reductions

Reductions are numbered by three 16-bit counters, which advance by three from different offsets, so
that the identifiers of different kinds have different remainders. Only the counter of the global
reductions is reset before it wraps around. The identifiers are right exactly as long as each of the
other two counters has advanced at most 21844 times (`issued_right_iff`); the next identifier on
request is 0, which is a global one.
-/

set_option autoImplicit false

namespace CharmRuntime.Converse

open Lib List Function

/-- The kinds of reductions. -/
inductive Kind
  | global | request | dynamic
  deriving DecidableEq

/-- `CmiReductionID_globalOffset`, `CmiReductionID_requestOffset` and
`CmiReductionID_dynamicOffset`. -/
def Kind.offset : Kind → Nat
  | global => 0
  | request => 1
  | dynamic => 2

/-- `CmiReductionID_multiplier`. -/
def multiplier : Nat := 3

/-- The fields of a `CmiReduction` that `CmiGetReductionCreate` uses. -/
structure CmiReduction where
  seqID : Nat
  numChildren : Int
  localContributed : Bool

/-- `CmiGetReductionCreate` on the table `_reduce_info` of `2 ^ 4` reductions; `none` if it
aborts. -/
def cmiGetReductionCreate (info : Nat → Option CmiReduction) (id : Nat) (numChildren : Int) :
    Option (Nat → Option CmiReduction) :=
  let index := id % 2 ^ 4
  let room := if numChildren = 0 then 4 else numChildren
  match info index with
  | none => some (update info index (some ⟨id, room, false⟩))
  | some red =>
    if red.seqID ≠ id then none
    else if red.numChildren < numChildren then
      if red.localContributed then none
      else some (update info index (some { red with numChildren := room }))
    else some info

/-- `_reduce_seqID_global`, `_reduce_seqID_request` and `_reduce_seqID_dynamic`. What was issued for
each kind is not in the source. -/
structure Counters where
  seqID : Kind → Nat
  issued : Kind → List Nat

/-- The counters after `CmiReductionsInit`. -/
def initial : Counters := ⟨Kind.offset, fun _ => []⟩

/-- An identifier is issued, and the counter of its kind set. -/
def Counters.issue (s : Counters) (k : Kind) (id next : Nat) : Counters :=
  ⟨update s.seqID k next, update s.issued k (s.issued k ++ [id])⟩

/-- `CmiGetNextReduction`, with the table at the time of the call, `CmiGetGlobalReduction` and
`CmiGetDynamicReduction`. -/
inductive Call
  | getNext (info : Nat → Option CmiReduction) (numChildren : Int)
  | getGlobal
  | getDynamic

/-- A counter is advanced by `+=`. -/
def Counters.advance (s : Counters) (k : Kind) : Counters :=
  let id := (s.seqID k + multiplier) % 2 ^ 16
  s.issue k id id

/-- A call on a PE; `none` if it aborts. -/
def Counters.exec (cmiMyPe : Nat) (s : Counters) : Call → Option Counters
  | .getNext info numChildren =>
    let id := s.seqID .global
    let next := if id > 0xFFF0 then Kind.offset .global else (id + multiplier) % 2 ^ 16
    (cmiGetReductionCreate info id numChildren).map fun _ => s.issue .global id next
  | .getGlobal => some (s.advance .request)
  | .getDynamic => if cmiMyPe ≠ 0 then none else some (s.advance .dynamic)

/-- A call that does not abort. -/
def Step (cmiMyPe : Nat) (s : Counters) (c : Call) (s' : Counters) : Prop :=
  s.exec cmiMyPe c = some s'

/-- The remainders are those of the kinds, and different kinds have no identifier in common. -/
def Right (s : Counters) : Prop :=
  (∀ k, ∀ id ∈ s.issued k, id % 3 = k.offset) ∧
    ∀ k k', k ≠ k' → ∀ id ∈ s.issued k, id ∉ s.issued k'

variable {pe : Nat} {s s' : Counters} {es : List Call} {k : Kind}

/-- The value of a counter that wraps around after `n` calls. -/
def value (k : Kind) (n : Nat) : Nat := (k.offset + multiplier * n) % 2 ^ 16

/-- What a counter has issued. -/
def Counted : Kind → List Nat → Nat → Prop
  | .global, l, c => c % 3 = 0 ∧ ∀ id ∈ l, id % 3 = 0
  | k, l, c => c = value k l.length ∧ l = (range l.length).map fun i => value k (i + 1)

theorem counted_iff {l : List Nat} {c : Nat} (hk : k ≠ .global) : Counted k l c ↔
    c = value k l.length ∧ l = (range l.length).map fun i => value k (i + 1) := by
  cases k with
  | global => cases hk rfl
  | request | dynamic => rfl

/-- What holds of the counters after any calls. -/
def Inv (s : Counters) : Prop := ∀ k, Counted k (s.issued k) (s.seqID k)

theorem Inv.issue (h : Inv s) {id next : Nat} (hk : Counted k (s.issued k ++ [id]) next) :
    Inv (s.issue k id next) := by
  intro k'
  simp only [Counters.issue, update_apply]
  split
  · next heq => exact heq ▸ hk
  · exact h k'

theorem Inv.advance (h : Inv s) (hk : k ≠ .global) : Inv (s.advance k) := by
  obtain ⟨hc, hl⟩ := (counted_iff hk).1 (h k)
  have hnext : (s.seqID k + multiplier) % 2 ^ 16 = value k ((s.issued k).length + 1) := by
    rw [hc, value, value, multiplier]
    omega
  refine h.issue ((counted_iff hk).2 ?_)
  rw [hnext, length_append, length_singleton, range_succ, map_append, ← hl]
  exact ⟨rfl, rfl⟩

theorem Inv.exec (h : Inv s) {c : Call} (hstep : s.exec pe c = some s') : Inv s' := by
  cases c with
  | getNext info numChildren =>
    obtain ⟨-, -, rfl⟩ := Option.map_eq_some_iff.1 hstep
    obtain ⟨hc, hl⟩ := h .global
    refine h.issue ⟨?_, forall_mem_concat hl hc⟩
    split
    · rfl
    · have hlt : s.seqID .global + 3 < 2 ^ 16 := by omega
      rw [multiplier, Nat.mod_eq_of_lt hlt, Nat.add_mod_right, hc]
  | getGlobal =>
    cases hstep
    exact h.advance (by decide)
  | getDynamic =>
    cases (Option.ite_none_left_eq_some.1 hstep).2
    exact h.advance (by decide)

theorem Inv.of_run (hrun : Run (Step pe) initial es s) : Inv s :=
  hrun.invariant (fun k => by cases k <;> simp [Counted, initial, value, Kind.offset])
    fun _ _ _ h => h.exec

/-- The remainders are right for 21844 calls, and wrong for the next one. -/
theorem Inv.mod_iff (h : Inv s) (hk : k ≠ .global) :
    (∀ id ∈ s.issued k, id % 3 = k.offset) ↔ (s.issued k).length ≤ 21844 := by
  have hl := ((counted_iff hk).1 (h k)).2
  have hoff : 1 ≤ k.offset ∧ k.offset ≤ 2 := by
    cases k with
    | global => cases hk rfl
    | request | dynamic => decide
  constructor
  · intro hmod
    by_contra hn
    rw [hl] at hmod
    have := hmod (value k (21844 + 1)) (mem_map_of_mem (mem_range.2 (by omega)))
    rw [value, multiplier] at this
    omega
  · intro hn id hid
    rw [hl] at hid
    obtain ⟨i, hi, rfl⟩ := mem_map.1 hid
    have hlt : k.offset + 3 * (i + 1) < 2 ^ 16 := by
      have := mem_range.1 hi
      omega
    rw [value, multiplier, Nat.mod_eq_of_lt hlt]
    omega

/-- The identifiers are right exactly if `CmiGetGlobalReduction` was called at most 21844 times, and
`CmiGetDynamicReduction` too. -/
theorem issued_right_iff (hrun : Run (Step pe) initial es s) :
    Right s ↔ (s.issued .request).length ≤ 21844 ∧ (s.issued .dynamic).length ≤ 21844 := by
  have h := Inv.of_run hrun
  rw [← h.mod_iff (by decide), ← h.mod_iff (by decide)]
  constructor
  · exact fun hright => ⟨hright.1 _, hright.1 _⟩
  · rintro ⟨hrequest, hdynamic⟩
    have hmod : ∀ k, ∀ id ∈ s.issued k, id % 3 = k.offset := by
      intro k
      cases k with
      | global => exact (h .global).2
      | request => exact hrequest
      | dynamic => exact hdynamic
    refine ⟨hmod, fun k k' hne id hid hid' => hne ?_⟩
    have hoff : k.offset = k'.offset := (hmod k id hid).symm.trans (hmod k' id hid')
    cases k <;> cases k' <;> first | rfl | cases hoff

/-- One identifier of each kind. -/
theorem issued_right_three : ∃ es s, Run (Step 0) initial es s ∧
    s.issued .global = [0] ∧ s.issued .request = [4] ∧ s.issued .dynamic = [5] ∧ Right s := by
  have hrun : Run (Step 0) initial [.getNext (fun _ => none) 0, .getGlobal, .getDynamic] _ :=
    Run.of_foldlM rfl
  exact ⟨_, _, hrun, rfl, rfl, rfl, (issued_right_iff hrun).2 (by decide)⟩

/-- After 21845 requests, 0 is the identifier of a global reduction and of one on request. -/
theorem identifiers_meet : ∃ es s, Run (Step 0) initial es s ∧
    0 ∈ s.issued .global ∧ 0 ∈ s.issued .request := by
  have hcalls : ∀ n, ∃ es s, Run (Step 0) initial es s ∧
      0 ∈ s.issued .global ∧ (s.issued .request).length = n := by
    intro n
    induction n with
    | zero => exact ⟨[.getNext (fun _ => none) 0], _, Run.single rfl, mem_singleton_self 0, rfl⟩
    | succ n ih =>
      obtain ⟨es, s, hrun, hmem, hlen⟩ := ih
      have hstep : Step 0 s .getGlobal (s.advance .request) := rfl
      exact ⟨_, _, hrun.snoc hstep, hmem, hlen ▸ length_append⟩
  obtain ⟨es, s, hrun, hmem, hlen⟩ := hcalls 21845
  refine ⟨es, s, hrun, hmem, ?_⟩
  rw [(Inv.of_run hrun .request).2, hlen]
  exact mem_map.2 ⟨21844, mem_range.2 (by decide), rfl⟩

end CharmRuntime.Converse
