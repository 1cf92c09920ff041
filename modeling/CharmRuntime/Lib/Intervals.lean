import Mathlib.Data.Set.Basic

/-!
# Sets of integers as separated intervals

A list of intervals represents a set of integers if its intervals are not empty, no two of them
overlap or touch, and the set is their union (`Represents`). A range inside the set lies in one
interval (`Represents.range_le`). Replacing some of the intervals by others that keep clear of the
rest changes the set accordingly (`Represents.edit`); in particular some intervals can be merged
with a range outside the set (`Represents.merge`).
-/

set_option autoImplicit false

namespace CharmRuntime.Lib

namespace Intervals

universe u

variable {ε : Type u} (start len : ε → Int)

/-- The point `x` is in the interval. -/
def Covers (e : ε) (x : Int) : Prop := start e ≤ x ∧ x < start e + len e

/-- The intervals do not overlap and there is a point between them. -/
def Apart (e e' : ε) : Prop := start e + len e < start e' ∨ start e' + len e' < start e

/-- The set is the union of non-empty intervals that do not touch each other. -/
structure Represents (l : List ε) (F : Set Int) : Prop where
  pos : ∀ e ∈ l, 1 ≤ len e
  apart : ∀ e ∈ l, ∀ e' ∈ l, e ≠ e' → Apart start len e e'
  cover : ∀ x, x ∈ F ↔ ∃ e ∈ l, Covers start len e x

variable {start len} {l l' : List ε} {F F' : Set Int} {e e' : ε}

theorem Apart.symm (h : Apart start len e e') : Apart start len e' e :=
  Or.symm h

section Represents

variable (h : Represents start len l F)

include h

/-- A point is in one interval only. -/
theorem Represents.unique (he : e ∈ l) (he' : e' ∈ l) {x : Int} (hx : Covers start len e x)
    (hx' : Covers start len e' x) : e = e' := by
  by_contra hne
  have h1 := hx.1
  have h2 := hx.2
  have h1' := hx'.1
  have h2' := hx'.2
  rcases h.apart e he e' he' hne with h' | h'
  · omega
  · omega

/-- The points before and after an interval are not in the set. -/
theorem Represents.border_notMem (he : e ∈ l) : start e - 1 ∉ F ∧ start e + len e ∉ F := by
  have hpos := h.pos e he
  have hout : ∀ x, x = start e - 1 ∨ x = start e + len e → x ∉ F := by
    intro x hx hmem
    obtain ⟨e', he', hc1, hc2⟩ := (h.cover x).1 hmem
    have hne : e ≠ e' := by
      rintro rfl
      omega
    rcases h.apart e he e' he' hne with h' | h'
    · omega
    · omega
  exact ⟨hout _ (.inl rfl), hout _ (.inr rfl)⟩

/-- A range inside the set lies in the interval of its first point. -/
theorem Represents.range_le (he : e ∈ l) {s k : Int} (hs : Covers start len e s)
    (hr : ∀ x, s ≤ x → x < s + k → x ∈ F) : s + k ≤ start e + len e := by
  have h2 := hs.2
  by_contra hlt
  exact (h.border_notMem he).2 (hr (start e + len e) (by omega) (by omega))

/-- An interval lies on one side of a point outside the set. -/
theorem Represents.side (he : e ∈ l) {x : Int} (hx : x ∉ F) :
    start e + len e ≤ x ∨ x < start e := by
  by_contra hcon
  exact hx ((h.cover x).2 ⟨e, he, by omega, by omega⟩)

/-- The intervals with `K` stay and at most one, with `N`, is new. -/
theorem Represents.edit {K N : ε → Prop} (hmem : ∀ e, e ∈ l' ↔ (e ∈ l ∧ K e) ∨ N e)
    (hnew : ∀ e e', N e → N e' → e = e') (hpos : ∀ e, N e → 1 ≤ len e)
    (hold : ∀ e, N e → ∀ e' ∈ l, K e' → Apart start len e e')
    (hF : ∀ x, x ∈ F' ↔ (x ∈ F ∧ ∀ e ∈ l, Covers start len e x → K e) ∨ ∃ e,
      N e ∧ Covers start len e x) :
    Represents start len l' F' := by
  refine ⟨?_, ?_, fun x => ?_⟩
  · intro e he
    rcases (hmem e).1 he with ⟨he, -⟩ | he
    · exact h.pos e he
    · exact hpos e he
  · intro e he e' he' hne
    rcases (hmem e).1 he with ⟨he, hk⟩ | he
    · rcases (hmem e').1 he' with ⟨he', -⟩ | he'
      · exact h.apart e he e' he' hne
      · exact (hold e' he' e he hk).symm
    · rcases (hmem e').1 he' with ⟨he', hk'⟩ | he'
      · exact hold e he e' he' hk'
      · exact absurd (hnew e e' he he') hne
  · rw [hF x]
    constructor
    · rintro (⟨hx, hk⟩ | ⟨e, he, hx⟩)
      · obtain ⟨e, he, hc⟩ := (h.cover x).1 hx
        exact ⟨e, (hmem e).2 (.inl ⟨he, hk e he hc⟩), hc⟩
      · exact ⟨e, (hmem e).2 (.inr he), hx⟩
    · rintro ⟨e, he, hx⟩
      rcases (hmem e).1 he with ⟨he, hk⟩ | he
      · refine .inl ⟨(h.cover x).2 ⟨e, he, hx⟩, fun e' he' hx' => ?_⟩
        rwa [h.unique he' he hx' hx]
      · exact .inr ⟨e, he, hx⟩

section Merge

variable {G : List ε} {m : ε} {R : Set Int} (hlow : start m - 1 ∉ F) (hhigh : start m + len m ∉ F)
  (hG : ∀ e ∈ G, e ∈ l) (hR : ∀ x ∈ R, x ∉ F)
  (hrange : ∀ x, Covers start len m x ↔ x ∈ R ∨ ∃ e ∈ G, Covers start len e x)

include hlow hhigh hG hR hrange

/-- A range outside the set and some of the intervals make up a new interval: the others keep away
from it. -/
theorem Represents.apart_new (he : e ∈ l) (hne : e ∉ G) : Apart start len m e := by
  have hpos := h.pos e he
  rcases h.side he hlow with hbefore | hbegin
  · exact .inr (by omega)
  rcases h.side he hhigh with hend | hafter
  · -- the first point would be in one of the intervals that are merged
    exfalso
    rcases (hrange (start e)).1 ⟨by omega, by omega⟩ with hx | ⟨g, hg, hx⟩
    · exact hR _ hx ((h.cover _).2 ⟨e, he, le_rfl, by omega⟩)
    · exact hne (h.unique he (hG g hg) ⟨le_rfl, by omega⟩ hx ▸ hg)
  · exact .inl hafter

theorem Represents.merge (hpos : 1 ≤ len m) (hmem : ∀ e, e ∈ l' ↔ (e ∈ l ∧ e ∉ G) ∨ e = m) :
    Represents start len l' (F ∪ R) := by
  refine h.edit hmem (fun e e' he he' => he.trans he'.symm) ?_ ?_ fun x => ?_
  · rintro e rfl
    exact hpos
  · rintro e rfl e' he' hne
    exact h.apart_new hlow hhigh hG hR hrange he' hne
  · rw [exists_eq_left, hrange]
    constructor
    · rintro (hx | hx)
      · by_cases hin : ∃ e ∈ G, Covers start len e x
        · exact .inr (.inr hin)
        · exact .inl ⟨hx, fun e _ hc hg => hin ⟨e, hg, hc⟩⟩
      · exact .inr (.inl hx)
    · rintro (⟨hx, -⟩ | hx | ⟨e, he, hx⟩)
      · exact .inl hx
      · exact .inr hx
      · exact .inl ((h.cover x).2 ⟨e, hG e he, hx⟩)

end Merge

/-- In the order of the starts, each interval ends before the next one starts. -/
theorem Represents.pairwise (hs : l.Pairwise fun e e' => start e < start e') :
    l.Pairwise fun e e' => start e + len e < start e' := by
  refine (List.Pairwise.and_mem.1 hs).imp fun {e e'} hee => ?_
  obtain ⟨he, he', hlt⟩ := hee
  have hne : e ≠ e' := by
    rintro rfl
    omega
  have := h.pos e' he'
  rcases h.apart e he e' he' hne with h' | h'
  · exact h'
  · omega

end Represents

end Intervals

end CharmRuntime.Lib
