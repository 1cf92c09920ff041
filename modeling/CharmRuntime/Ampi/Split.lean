import Mathlib.Data.List.TakeWhile
import Mathlib.Algebra.Order.Ring.Int

/-!
# Splitting a communicator

`ampi::splitPhase1` sorts the split keys of all ranks with `qsort` and walks once over the sorted
keys, creating a communicator at each new color. `compareAmpiSplitKey` subtracts colors and keys,
and the first sentinel is the least color minus one. Where one of these `int` subtractions overflows
the call is undefined; where none does, every color gets one communicator of its ranks in the order
of key and old rank (`splitPhase1_splits_iff`).
-/

set_option autoImplicit false

namespace CharmRuntime.Ampi.Split

open List

/-- An `ampiSplitKey`. -/
structure SplitKey where
  nextSplitComm : Int
  color : Int
  key : Int
  rank : Nat

/-- The values of an `int`. -/
def IsInt (x : Int) : Prop := -2147483648 ≤ x ∧ x < 2147483648

instance (x : Int) : Decidable (IsInt x) := inferInstanceAs (Decidable (_ ∧ _))

/-- The difference that `compareAmpiSplitKey` returns, before it is put into an `int`. -/
def compareAmpiSplitKey (a b : SplitKey) : Int :=
  if a.color ≠ b.color then a.color - b.color
  else if a.key ≠ b.key then a.key - b.key
  else a.rank - b.rank

/-- `qsort` may compare any two of the keys; `none` if one of the comparisons overflows. -/
def qsort (keys : List SplitKey) : Option (List SplitKey) :=
  if ∀ a ∈ keys, ∀ b ∈ keys, IsInt (compareAmpiSplitKey a b) then
    some (keys.mergeSort fun a b => compareAmpiSplitKey a b ≤ 0)
  else none

/-- What the root does: it creates a communicator with the array indices of its ranks, and inserts
an element into the communicator it created last. -/
inductive Event where
  | create (indices : List Nat)
  | insert (newIdx : Nat)
  deriving DecidableEq

/-- The loop over the sorted keys, where `newRank` is `c - lastRoot` and `lastComm` has the indices
of the communicator created last. -/
def splitLoop (idx : Nat → Nat) (lastColor : Int) (newRank : Nat) (lastComm : List Nat) :
    List SplitKey → List Event
  | [] => []
  | k :: rest =>
    if k.color ≠ lastColor then
      let indices := ((k :: rest).takeWhile (·.color = k.color)).map fun k => idx k.rank
      .create indices :: .insert (indices.getD 0 0) ::
        splitLoop idx k.color 1 indices rest
    else
      .insert (lastComm.getD newRank 0) ::
        splitLoop idx lastColor (newRank + 1) lastComm rest

/-- The number of the new communicators and what happens for the sorted keys; `none` if the first
sentinel overflows. -/
def splitSorted (idx : Nat → Nat) : List SplitKey → Option (Int × List Event)
  | [] => none
  | k :: sorted =>
    if IsInt (k.color - 1) then
      some ((k :: sorted).foldl (max · ·.nextSplitComm) (-1),
        splitLoop idx (k.color - 1) 0 [] (k :: sorted))
    else none

/-- `ampi::splitPhase1` at the root of a communicator of `size` ranks; `none` if it aborts or
overflows. -/
def splitPhase1 (size : Nat) (idx : Nat → Nat) (keys : List SplitKey) : Option (Int × List Event) :=
  if keys.length ≠ size then none else (qsort keys).bind (splitSorted idx)

/-- The order of the new ranks of one color. -/
def Before (a b : SplitKey) : Prop := a.key < b.key ∨ a.key = b.key ∧ a.rank < b.rank

/-- The events of the groups: the communicator of each is created, and its elements are inserted. -/
def groupEvents (idx : Nat → Nat) (groups : List (List SplitKey)) : List Event :=
  groups.flatMap fun g =>
    .create (g.map fun k => idx k.rank) :: g.map fun k => .insert (idx k.rank)

/-- The events are those of the groups: one group per color, in the order of the new ranks, each
with one communicator into which its elements are inserted. -/
structure Splits (idx : Nat → Nat) (keys : List SplitKey) (groups : List (List SplitKey))
    (events : List Event) : Prop where
  all : groups.flatten ~ keys
  color : ∀ g ∈ groups, g ≠ [] ∧ ∀ a ∈ g, ∀ b ∈ g, a.color = b.color
  apart : groups.Pairwise fun g g' => ∀ a ∈ g, ∀ b ∈ g', a.color ≠ b.color
  order : ∀ g ∈ groups, g.Pairwise Before
  events : events = groupEvents idx groups

/-- The order by which the keys are sorted. -/
def Sorts (a b : SplitKey) : Prop := a.color < b.color ∨ a.color = b.color ∧ Before a b

theorem Sorts.color_le {a b : SplitKey} (h : Sorts a b) : a.color ≤ b.color := by
  rcases h with h | h
  · exact h.le
  · exact h.1.le

/-! ## Sorting -/

theorem pairwise_mergeSort_sorts {keys : List SplitKey} (hranks : (keys.map SplitKey.rank).Nodup) :
    (keys.mergeSort fun a b => compareAmpiSplitKey a b ≤ 0).Pairwise Sorts := by
  have hsorted : (keys.mergeSort fun a b => compareAmpiSplitKey a b ≤ 0).Pairwise
      fun a b => compareAmpiSplitKey a b ≤ 0 := by
    refine (pairwise_mergeSort ?_ ?_ keys).imp of_decide_eq_true
    · intro a b c
      rw [decide_eq_true_eq, decide_eq_true_eq, decide_eq_true_eq]
      unfold compareAmpiSplitKey
      omega
    · intro a b
      rw [Bool.or_eq_true, decide_eq_true_eq, decide_eq_true_eq]
      unfold compareAmpiSplitKey
      omega
  have hdistinct := pairwise_map.1 (((mergeSort_perm keys
    fun a b => compareAmpiSplitKey a b ≤ 0).map SplitKey.rank).nodup_iff.2 hranks)
  refine (hsorted.and hdistinct).imp fun ⟨hle, hne⟩ => ?_
  simp only [compareAmpiSplitKey] at hle
  simp only [Sorts, Before]
  omega

/-! ## The loop -/

/-- What the loop does from any round on, by induction on the keys left: it inserts the rest of the
color it is at, whose indices it has not used are at the end of `lastComm`, and then handles the
other colors. -/
theorem splitLoop_groups (idx : Nat → Nat) (keys : List SplitKey) :
    ∀ (color : Int) (done : List Nat), keys.Pairwise Sorts → (∀ k ∈ keys, color ≤ k.color) →
    ∃ groups, keys = keys.takeWhile (·.color = color) ++ groups.flatten ∧
      (∀ g ∈ groups, ∀ a ∈ g, color < a.color) ∧ splitLoop idx color done.length
          (done ++ (keys.takeWhile (·.color = color)).map fun k => idx k.rank) keys =
        (keys.takeWhile (·.color = color)).map (fun k => .insert (idx k.rank)) ++
          groupEvents idx groups ∧ (∀ g ∈ groups, g ≠ [] ∧ ∀ a ∈ g, ∀ b ∈ g, a.color = b.color) ∧
      groups.Pairwise fun g g' => ∀ a ∈ g, ∀ b ∈ g', a.color ≠ b.color := by
  induction keys with
  | nil => exact fun _ _ _ _ => ⟨[], rfl, forall_mem_nil _, rfl, forall_mem_nil _, .nil⟩
  | cons k keys ih =>
    intro color done hsorted hcolor
    obtain ⟨hk, hsorted⟩ := pairwise_cons.1 hsorted
    have hle : ∀ a ∈ keys, k.color ≤ a.color := fun a ha => (hk a ha).color_le
    by_cases hsame : k.color = color
    · subst hsame
      obtain ⟨groups, hkeys, hlt, hev, hgroups, hapart⟩ := ih _ (done ++ [idx k.rank]) hsorted hle
      refine ⟨groups, ?_, hlt, ?_, hgroups, hapart⟩
      · rw [takeWhile_cons_of_pos (by simp), cons_append, ← hkeys]
      · rw [length_append, length_singleton, append_assoc, singleton_append] at hev
        rw [takeWhile_cons_of_pos (by simp), splitLoop, if_neg (not_not.2 rfl), map_cons, hev]
        simp
    · obtain ⟨groups, hkeys, hlt, hev, hgroups, hapart⟩ := ih k.color [idx k.rank] hsorted hle
      rw [takeWhile_cons_of_neg (by simpa using hsame), splitLoop, if_pos hsame,
        takeWhile_cons_of_pos (by simp)]
      have hcons : ∀ a ∈ k :: keys.takeWhile (·.color = k.color), a.color = k.color :=
        forall_mem_cons.2 ⟨rfl, fun a ha => by simpa using mem_takeWhile_imp ha⟩
      refine ⟨(k :: keys.takeWhile (·.color = k.color)) :: groups, ?_, ?_, ?_, ?_, ?_⟩
      · rw [flatten_cons, nil_append, cons_append, ← hkeys]
      · have hlast : color < k.color := (hcolor k mem_cons_self).lt_of_ne' hsame
        exact forall_mem_cons.2 ⟨fun a ha => (hcons a ha).symm ▸ hlast,
          fun g hg a ha => hlast.trans (hlt g hg a ha)⟩
      · rw [groupEvents, flatMap_cons, map_cons, map_cons]
        exact congrArg (_ :: _ :: ·) hev
      · exact forall_mem_cons.2
          ⟨⟨cons_ne_nil _ _, fun a ha b hb => (hcons a ha).trans (hcons b hb).symm⟩, hgroups⟩
      · refine pairwise_cons.2 ⟨fun g hg a ha b hb => ?_, hapart⟩
        rw [hcons a ha]
        exact (hlt g hg b hb).ne

/-! ## The call -/

/-- The call splits the ranks right exactly if no subtraction of its comparisons overflows and no
color is the least `int`, from which the sentinel is subtracted. -/
theorem splitPhase1_splits_iff (idx : Nat → Nat) (keys : List SplitKey) (hne : keys ≠ [])
    (hranks : (keys.map SplitKey.rank).Nodup) (hint : ∀ k ∈ keys, IsInt k.color) :
    (∃ newComm events groups, splitPhase1 keys.length idx keys = some (newComm, events) ∧
        Splits idx keys groups events) ↔
      (∀ a ∈ keys, ∀ b ∈ keys, IsInt (compareAmpiSplitKey a b)) ∧ ∀ k ∈ keys,
      k.color ≠ -2147483648 := by
  have hperm := mergeSort_perm keys fun a b => compareAmpiSplitKey a b ≤ 0
  have hsorted := pairwise_mergeSort_sorts hranks
  rw [splitPhase1, if_neg (not_not.2 rfl), qsort]
  generalize keys.mergeSort (fun a b => compareAmpiSplitKey a b ≤ 0) = sorted at hperm hsorted
  cases sorted with
  | nil => exact absurd hperm.nil_eq.symm hne
  | cons first sorted =>
    have hfirst : ∀ k ∈ first :: sorted, first.color ≤ k.color :=
      forall_mem_cons.2 ⟨le_rfl, fun k hk => ((pairwise_cons.1 hsorted).1 k hk).color_le⟩
    constructor
    · rintro ⟨newComm, events, groups, hcall, -⟩
      split at hcall
      case isFalse => cases hcall
      case isTrue hcompare =>
        refine ⟨hcompare, fun k hk hleast => ?_⟩
        have hle := hfirst k (hperm.mem_iff.2 hk)
        rw [Option.bind_some, splitSorted, if_neg (by unfold IsInt; omega)] at hcall
        cases hcall
    · rintro ⟨hcompare, hcolor⟩
      have hmem := hperm.mem_iff.1 (mem_cons_self (a := first) (l := sorted))
      have hfits := hint first hmem
      have hleast := hcolor first hmem
      unfold IsInt at hfits
      rw [if_pos hcompare, Option.bind_some, splitSorted, if_pos (by unfold IsInt; omega)]
      obtain ⟨groups, hkeys, -, hev, hgroups, hapart⟩ := splitLoop_groups idx _ (first.color - 1) []
        hsorted fun k hk => by have := hfirst k hk; omega
      have hnone : (first :: sorted).takeWhile (·.color = first.color - 1) = [] :=
        takeWhile_cons_of_neg fun h => by have := of_decide_eq_true h; omega
      rw [hnone, nil_append] at hkeys hev
      rw [hkeys] at hsorted
      refine ⟨_, _, groups, rfl, hkeys ▸ hperm, hgroups, hapart, fun g hg => ?_, hev⟩
      refine ((pairwise_flatten.1 hsorted).1 g hg).imp_of_mem fun ha hb h => ?_
      exact (h.resolve_left ((hgroups g hg).2 _ ha _ hb).not_lt).2

/-- Two ranks of one color with the keys `INT_MAX` and -1: their comparison overflows. -/
theorem splitPhase1_overflows : splitPhase1 2 id [⟨0, 0, 2147483647, 0⟩, ⟨0, 0, -1, 1⟩] = none := by
  rw [splitPhase1, if_neg (by decide), qsort, if_neg (by decide)]
  rfl

theorem splitPhase1_splits_pair : ∃ newComm events groups,
    splitPhase1 2 id [⟨0, 5, 9, 0⟩, ⟨0, 5, -9, 1⟩] = some (newComm, events) ∧
      Splits id [⟨0, 5, 9, 0⟩, ⟨0, 5, -9, 1⟩] groups events :=
  (splitPhase1_splits_iff id [⟨0, 5, 9, 0⟩, ⟨0, 5, -9, 1⟩] (by decide) (by decide) (by decide)).2
    (by decide)

end CharmRuntime.Ampi.Split
