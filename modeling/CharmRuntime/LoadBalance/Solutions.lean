import Mathlib.Data.List.Perm.Subperm
import Mathlib.Data.Prod.Lex
import Mathlib.Tactic.Linarith

/-!
# The solution that `GreedyRefineLB` applies

Each processor sends the greatest load and the number of migrations of its solution, and
`receiveSolutions` picks one in two passes. The first pass looks for the least load among the
solutions that respect the limit on migrations and for the fewest migrations of all; the second one
looks for the fewest migrations within a tolerance of that load. `INT_MAX` stands for the migrations
of a solution that has not been found yet, so that a first solution with `INT_MAX` migrations is
compared with none (`first_solution_dereferences_null`). Otherwise the solution picked is the right
one (`receiveSolutions_right_iff`).
-/

set_option autoImplicit false

namespace CharmRuntime.LoadBalance

open List
open Prod.Lex (le_iff lt_iff)

/-- `GreedyRefineLB::Solution`. -/
structure Solution where
  pe : Nat
  maxLoad : Rat
  migrations : Int
  deriving DecidableEq

/-- `FLT_MAX`. -/
def fltMax : Rat := 2 ^ 128 - 2 ^ 104

/-- `INT_MAX`. -/
def intMax : Int := 2 ^ 31 - 1

/-- `LOAD_MIG_BAL`. -/
def loadMigBal : Rat := 1003 / 1000

/-- `NUM_SOLUTIONS`. -/
def numSolutions : Nat := 14 * 16 + 1

/-- `bestSol`, which may be null, and the variable that holds its migrations. -/
structure Best where
  migrations : Int
  sol : Option Solution

/-- The comparison with the best solution so far; a load that does not fit is looked at on a tie
only. Reading through the null pointer is `none`. -/
def Best.update (best : Best) (fits : Bool) (r : Solution) : Option Best :=
  if r.migrations < best.migrations ∧ fits then some ⟨r.migrations, some r⟩
  else if r.migrations = best.migrations then
    best.sol.map fun b => if r.maxLoad < b.maxLoad then ⟨r.migrations, some r⟩ else best
  else some best

/-- The variables of the first pass. -/
structure First where
  results : List Solution
  feasibleSolutions : Bool
  lowestMaxLoad : Rat
  best : Best

/-- The variables before the first pass. -/
def First.init : First := ⟨[], false, fltMax, intMax, none⟩

/-- A round of the first pass. -/
def firstPass (limit : Int) (st : First) (r : Solution) : Option First :=
  if st.results.length < numSolutions ∧ 0 ≤ r.migrations then
    (st.best.update true r).map fun best =>
      if r.migrations ≤ limit ∧ r.maxLoad <
        st.lowestMaxLoad then ⟨st.results ++ [r], true, r.maxLoad, best⟩
      else { st with results := st.results ++ [r], best := best }
  else some st

/-- A round of the second pass. -/
def secondPass (bound : Rat) (best : Best) (r : Solution) : Option Best :=
  best.update (r.maxLoad ≤ bound) r

/-- What follows the first pass. -/
def First.bestSol (st : First) : Option Solution :=
  if st.results = [] then none
  else if st.feasibleSolutions then
    (st.results.foldlM (secondPass (st.lowestMaxLoad * loadMigBal)) ⟨intMax, st.best.sol⟩).bind
      Best.sol
  else st.best.sol

/-- `receiveSolutions`, with `migrationsAllowed` as the limit: the solution that is applied. -/
def receiveSolutions (limit : Int) (sols : List Solution) : Option Solution :=
  (sols.foldlM (firstPass limit) First.init).bind First.bestSol

/-- What the processors send: `work` gives up beyond the parameters there are, and its loads are
those of processors. -/
structure Received (sols : List Solution) : Prop where
  pes : (sols.map Solution.pe).Nodup
  sent : ∀ r ∈ sols, r.migrations = -1 ∨
    r.pe < numSolutions ∧ r.migrations ≤ intMax ∧ 0 ≤ r.maxLoad ∧ r.maxLoad ≤ fltMax

/-- The valid solutions. -/
def valid (sols : List Solution) : List Solution := sols.filter fun r => 0 ≤ r.migrations

/-- Solutions are compared by their migrations, and by their loads on a tie. -/
def Solution.key (r : Solution) : Int ×ₗ Rat := toLex (r.migrations, r.maxLoad)

/-- `best` is the best solution of the list with a load within the bound. -/
def IsBest (bound : Rat) (l : List Solution) (best : Solution) : Prop :=
  best ∈ l ∧ best.maxLoad ≤ bound ∧ ∀ r ∈ l, r.maxLoad ≤ bound → best.key ≤ r.key

/-- `a` has the least load of the solutions within the limit. -/
def IsLowest (limit : Int) (l : List Solution) (a : Solution) : Prop :=
  a ∈ l ∧ a.migrations ≤ limit ∧ ∀ r ∈ l, r.migrations ≤ limit → a.maxLoad ≤ r.maxLoad

/-- The solution that should be applied. -/
structure Right (limit : Int) (l : List Solution) (best : Solution) : Prop where
  allowed : (∃ r ∈ l, r.migrations ≤ limit) →
    best.migrations ≤ limit ∧ ∃ a, IsLowest limit l a ∧ IsBest (a.maxLoad * loadMigBal) l best
  exceeded : (∀ r ∈ l, limit < r.migrations) → best ∈ l ∧ ∀ r ∈ l, best.key ≤ r.key

variable {limit : Int} {l seen sols rest : List Solution} {r c : Solution} {bound : Rat}
  {best : Best}
  {st : First}

theorem Solution.migrations_le (h : c.key ≤ r.key) : c.migrations ≤ r.migrations := by
  rcases le_iff.1 h with hlt | heq
  · exact le_of_lt hlt
  · exact le_of_eq heq.1

/-! ## The running best -/

/-- The invariant of the comparisons of solutions of `l`: as long as the variable holds `INT_MAX`,
the solution that is kept need not be one of that many migrations, nor within the bound. -/
structure Best.Inv (bound : Rat) (l seen : List Solution) (best : Best) (c : Solution) : Prop where
  sol : best.sol = some c
  mem : c ∈ l
  least : ∀ r ∈ seen, r.maxLoad ≤ bound → toLex (best.migrations, c.maxLoad) ≤ r.key
  kept : best.migrations = intMax ∨ best.migrations = c.migrations ∧ c.maxLoad ≤ bound

theorem Best.Inv.step (h : best.Inv bound l seen c) (hr : r ∈ l) : ∃ best' c',
    best.update (r.maxLoad ≤ bound) r = some best' ∧ best'.Inv bound l (seen ++ [r]) c' := by
  simp only [Best.update, h.sol, Option.map_some, decide_eq_true_eq]
  by_cases hless : r.migrations < best.migrations ∧ r.maxLoad ≤ bound
  · have hkey (c) : r.key ≤ toLex (best.migrations, c) := le_iff.2 (.inl hless.1)
    refine ⟨_, r, if_pos hless, rfl, hr,
      forall_mem_append.2 ⟨fun s hs hfits => ?_, by simp [Solution.key]⟩, .inr ⟨rfl, hless.2⟩⟩
    exact (hkey _).trans (h.least s hs hfits)
  rw [if_neg hless]
  by_cases htie : r.migrations = best.migrations ∧ r.maxLoad < c.maxLoad
  · have hkey : r.key ≤ toLex (best.migrations, c.maxLoad) := le_iff.2 (.inr ⟨htie.1, htie.2.le⟩)
    refine ⟨_, r, by rw [if_pos htie.1, if_pos htie.2], rfl, hr,
      forall_mem_append.2 ⟨fun s hs hfits => ?_, by simp [Solution.key]⟩, ?_⟩
    · exact hkey.trans (h.least s hs hfits)
    · exact h.kept.imp htie.1.trans fun hkept => ⟨rfl, htie.2.le.trans hkept.2⟩
  · refine ⟨best, c, ?_, h.sol, h.mem,
      forall_mem_append.2 ⟨h.least, forall_mem_singleton.2 fun hfits => ?_⟩, h.kept⟩
    · split
      case isTrue heq => rw [if_neg (not_and.1 htie heq)]
      case isFalse => rfl
    · refine not_lt.1 fun hlt => ?_
      rcases lt_iff.1 hlt with hlt | heq
      · exact hless ⟨hlt, hfits⟩
      · exact htie heq

theorem Best.Inv.isBest (h : best.Inv bound l l c) (hl : ∀ r ∈ l, r.migrations ≤ intMax)
    (hsome : ∃ a ∈ l, a.maxLoad ≤ bound) : IsBest bound l c := by
  have hkept : best.migrations = c.migrations ∧ c.maxLoad ≤ bound := by
    refine h.kept.elim (fun hmax => ?_) id
    obtain ⟨a, ha, hfits⟩ := hsome
    have hload : c.maxLoad ≤ bound := by
      rcases le_iff.1 (h.least a ha hfits) with hlt | hle
      · exact absurd (hl a ha) (not_le.2 (hmax ▸ hlt))
      · exact hle.2.trans hfits
    rcases le_iff.1 (h.least c h.mem hload) with hlt | heq
    · exact absurd (hl c h.mem) (not_le.2 (hmax ▸ hlt))
    · exact ⟨heq.1, hload⟩
  refine ⟨h.mem, hkept.2, fun r hr hfits => ?_⟩
  rw [Solution.key, ← hkept.1]
  exact h.least r hr hfits

theorem Best.Inv.run (h : best.Inv bound l seen c) (hrest : rest ⊆ l) :
    ∃ best' c', rest.foldlM (secondPass bound) best = some best' ∧ best'.Inv bound l
    (seen ++ rest) c' := by
  induction rest generalizing best seen c with
  | nil => exact ⟨best, c, rfl, by rwa [append_nil]⟩
  | cons r rest ih =>
    obtain ⟨hr, hrest⟩ := cons_subset.1 hrest
    obtain ⟨best', c', hbest', hinv⟩ := h.step hr
    rw [foldlM_cons, secondPass, hbest', append_cons]
    exact ih hinv hrest

/-! ## The first pass -/

/-- The invariant of the first pass over the valid solutions `l`. -/
structure First.Inv (limit : Int) (l : List Solution) (st : First) : Prop where
  best : st.results = [] ∧ st.best = ⟨intMax, none⟩ ∨ ∃ c, st.best.Inv fltMax l st.results c
  lowest_le : ∀ r ∈ st.results, r.migrations ≤ limit → st.lowestMaxLoad ≤ r.maxLoad
  attained : st.feasibleSolutions = true → ∃ a ∈ st.results,
    a.migrations ≤ limit ∧ a.maxLoad = st.lowestMaxLoad
  unset : st.feasibleSolutions = false → st.lowestMaxLoad = fltMax

theorem First.Inv.step (h : st.Inv limit l) (hroom : st.results.length < numSolutions)
    (hr : 0 ≤ r.migrations) (hmem : r ∈ l) (hload : r.maxLoad ≤ fltMax)
    (hfirst : st.results = [] → r.migrations < intMax) :
    ∃ st', firstPass limit st r = some st' ∧ st'.results = st.results ++ [r] ∧ st'.Inv limit l := by
  obtain ⟨best', c', hbest', hinv⟩ : ∃ best' c', st.best.update true r = some best' ∧
      best'.Inv fltMax l (st.results ++ [r]) c' := by
    rcases h.best with ⟨hnil, hnull⟩ | ⟨c, hc⟩
    · refine ⟨⟨r.migrations, some r⟩,
        r, by simp [hnull, Best.update, hfirst hnil], rfl, hmem, ?_, .inr ⟨rfl, hload⟩⟩
      simp [hnil, Solution.key]
    · simpa [hload] using hc.step hmem
  rw [firstPass, if_pos ⟨hroom, hr⟩, hbest', Option.map_some]
  split
  case isTrue hlow =>
    refine ⟨_, rfl, rfl, .inr ⟨c', hinv⟩, forall_mem_append.2 ⟨fun s hs hlim => ?_, by simp⟩,
      fun _ => ⟨r, by simp, hlow.1, rfl⟩, nofun⟩
    exact hlow.2.le.trans (h.lowest_le s hs hlim)
  case isFalse hlow =>
    refine ⟨_, rfl, rfl, .inr ⟨c', hinv⟩, forall_mem_append.2 ⟨h.lowest_le, by simpa using hlow⟩,
      fun hf => ?_, h.unset⟩
    obtain ⟨a, ha, hlim⟩ := h.attained hf
    exact ⟨a, mem_append_left _ ha, hlim⟩

theorem First.Inv.run (h : st.Inv limit l) (hl : l = st.results ++ rest)
    (hroom : l.length ≤ numSolutions) (hsent : ∀ r ∈ l, 0 ≤ r.migrations ∧ r.maxLoad ≤ fltMax)
    (hfirst : ∀ r, l.head? = some r → r.migrations < intMax) :
    ∃ st', rest.foldlM (firstPass limit) st = some st' ∧ st'.results = l ∧ st'.Inv limit l := by
  induction rest generalizing st with
  | nil => exact ⟨st, rfl, by simp [hl], h⟩
  | cons r rest ih =>
    have hr : r ∈ l := hl ▸ by simp
    have hlt : st.results.length < numSolutions := by
      rw [hl, length_append, length_cons] at hroom
      omega
    obtain ⟨st', hst', hresults, hinv⟩ := h.step hlt (hsent r hr).1 hr (hsent r hr).2 fun hnil =>
      hfirst r (by simp [hl, hnil])
    rw [foldlM_cons, hst']
    exact ih hinv (by simp [hl, hresults])

/-- Solutions that are not valid are skipped. -/
theorem foldlM_valid (limit : Int) (sols : List Solution) :
    sols.foldlM (firstPass limit) First.init = (valid sols).foldlM
    (firstPass limit) First.init := by
  have hskip : firstPass limit = fun st r => if decide (0 ≤ r.migrations) then firstPass limit st r
      else pure st := by
    funext st r
    by_cases hr : 0 ≤ r.migrations
    · simp [hr]
    · simp [firstPass, hr]
  rw [valid, foldlM_filter, ← hskip]

/-! ## The solution that is applied -/

section

variable (h : Received sols)

include h

theorem Received.of_valid (hr : r ∈ valid sols) :
    r.pe < numSolutions ∧ r.migrations ≤ intMax ∧ 0 ≤ r.maxLoad ∧ r.maxLoad ≤ fltMax := by
  obtain ⟨hmem, hnonneg⟩ := mem_filter.1 hr
  refine (h.sent r hmem).resolve_left fun hempty => ?_
  simp [hempty] at hnonneg

theorem Received.length_le : (valid sols).length ≤ numSolutions := by
  have hnodup : ((valid sols).map Solution.pe).Nodup := h.pes.sublist (filter_sublist.map _)
  have hsub : (valid sols).map Solution.pe ⊆ range numSolutions := by
    intro pe hpe
    obtain ⟨r, hr, rfl⟩ := mem_map.1 hpe
    exact mem_range.2 (h.of_valid hr).1
  simpa using (hnodup.subperm hsub).length_le

theorem Received.le_mul_loadMigBal (hr : r ∈ valid sols) : r.maxLoad ≤ r.maxLoad * loadMigBal := by
  have hnonneg : 0 ≤ r.maxLoad := (h.of_valid hr).2.2.1
  rw [loadMigBal]
  linarith

/-- What the two passes find together. -/
theorem Received.right_bestSol (hinv : st.Inv limit (valid sols))
    (hresults : st.results = valid sols)
    (hne : valid sols ≠ []) : ∃ best, st.bestSol = some best ∧ Right limit (valid sols) best := by
  obtain ⟨hbest, hlow, hat, hmax⟩ := hinv
  rw [hresults] at hbest hlow hat
  obtain ⟨c, hc⟩ := hbest.resolve_left fun hnil => hne hnil.1
  have hl : ∀ r ∈ valid sols, r.migrations ≤ intMax := fun r hr => (h.of_valid hr).2.1
  rw [First.bestSol, hresults, if_neg hne, hc.sol]
  cases hf : st.feasibleSolutions with
  | true =>
    obtain ⟨a, ha, halim, haload⟩ := hat hf
    have hwithin : a.maxLoad ≤ st.lowestMaxLoad * loadMigBal := haload ▸ h.le_mul_loadMigBal ha
    have hstart : Best.Inv (st.lowestMaxLoad * loadMigBal) (valid sols) [] ⟨intMax, some c⟩ c :=
      ⟨rfl, hc.mem, nofun, .inl rfl⟩
    obtain ⟨last, best, hlast, hinv⟩ := hstart.run (Subset.refl _)
    have hright := hinv.isBest hl ⟨a, ha, hwithin⟩
    refine ⟨best, by simp [hlast, hinv.sol], fun _ => ⟨?_, a, ⟨ha, halim, fun r hr hlim => ?_⟩, ?_⟩,
      fun hall => absurd halim (not_le.2 (hall a ha))⟩
    · exact (Solution.migrations_le (hright.2.2 a ha hwithin)).trans halim
    · exact haload ▸ hlow r hr hlim
    · rwa [haload]
  | false =>
    obtain ⟨r, hr⟩ := exists_mem_of_ne_nil _ hne
    have hright := hc.isBest hl ⟨r, hr, (h.of_valid hr).2.2.2⟩
    have hall : ∀ r ∈ valid sols, c.key ≤ r.key := fun r hr => hright.2.2 r hr (h.of_valid hr).2.2.2
    refine ⟨c, rfl, fun hsome => ?_, fun _ => ⟨hc.mem, hall⟩⟩
    -- the loads of the solutions within the limit are all `FLT_MAX`
    obtain ⟨a, ha, halim⟩ := hsome
    have hlow' : ∀ r ∈ valid sols, r.migrations ≤ limit → fltMax ≤ r.maxLoad := hmax hf ▸ hlow
    refine ⟨(Solution.migrations_le (hall a ha)).trans halim, a,
      ⟨ha, halim, fun r hr hlim => ?_⟩, hc.mem, ?_, fun r hr _ => hall r hr⟩
    · exact (h.of_valid ha).2.2.2.trans (hlow' r hr hlim)
    · exact (hright.2.1.trans (hlow' a ha halim)).trans (h.le_mul_loadMigBal ha)

/-- The right solution is applied, unless the first valid solution has `INT_MAX` migrations. -/
theorem receiveSolutions_right_iff (limit : Int) (hne : valid sols ≠ []) :
    (∃ best, receiveSolutions limit sols = some best ∧ Right limit (valid sols) best) ↔
      ∀ r, (valid sols).head? = some r → r.migrations ≠ intMax := by
  rw [receiveSolutions, foldlM_valid]
  constructor
  · intro ⟨best, hbest, _⟩ r hr hmax
    -- the first comparison finds a tie and reads the load of no solution
    obtain ⟨rest, hvalid⟩ := head?_eq_some_iff.1 hr
    have hnone : firstPass limit First.init r = none := by
      simp [firstPass, First.init, Best.update, hmax,
        show 0 ≤ intMax by decide, show 0 < numSolutions by decide]
    rw [hvalid, foldlM_cons, hnone] at hbest
    contradiction
  · intro hfirst
    have hinit : First.init.Inv limit (valid sols) := ⟨.inl ⟨rfl, rfl⟩, nofun, nofun, fun _ => rfl⟩
    obtain ⟨st, hst, hresults, hinv⟩ := hinit.run (nil_append _).symm h.length_le
      (fun r hr => ⟨of_decide_eq_true (mem_filter.1 hr).2, (h.of_valid hr).2.2.2⟩)
      fun r hr => (h.of_valid (mem_of_mem_head? hr)).2.1.lt_of_ne (hfirst r hr)
    rw [hst]
    exact h.right_bestSol hinv hresults hne

end

/-- Two solutions within the limit: that of fewer migrations is applied, although its load is
greater. -/
theorem receiveSolutions_prefers_migrations : Received [⟨0, 1000, 5⟩, ⟨1, 1002, 3⟩] ∧
    ∃ best, receiveSolutions 10 [⟨0, 1000, 5⟩, ⟨1, 1002, 3⟩] = some best ∧
      Right 10 (valid [⟨0, 1000, 5⟩, ⟨1, 1002, 3⟩]) best := by
  have h : Received [⟨0, 1000, 5⟩, ⟨1, 1002, 3⟩] := ⟨by decide, by decide +kernel⟩
  exact ⟨h, (receiveSolutions_right_iff h 10 (by decide)).2 (by decide +kernel)⟩

/-- The only solution moves `INT_MAX` objects. -/
theorem first_solution_dereferences_null : Received [⟨0, 1, intMax⟩] ∧ valid [⟨0, 1, intMax⟩] ≠ [] ∧
    ∀ limit, receiveSolutions limit [⟨0, 1, intMax⟩] = none :=
  ⟨⟨by decide, by decide +kernel⟩, by decide, fun _ => rfl⟩

end CharmRuntime.LoadBalance
