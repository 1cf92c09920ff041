import Mathlib.Logic.Relation

/-!
# Finite runs of labelled transition systems

`Run step s es t` says that the system goes from `s` to `t` by steps labelled `es`, in order. An
invariant of the steps holds at the end of every run (`Run.invariant`), and a relation that every
step of one system can match in another relates the ends of matching runs (`Run.simulation`).
-/

set_option autoImplicit false

namespace CharmRuntime.Lib

universe u v w

variable {σ : Type u} {ε : Type v} {τ : Type w}

/-- What holds of the entries of a log and of a new one. -/
theorem forall_mem_concat {P : ε → Prop} {l : List ε} {x : ε} (h : ∀ y ∈ l, P y) (hx : P x) :
    ∀ y ∈ l ++ [x], P y :=
  List.forall_mem_append.2 ⟨h, List.forall_mem_singleton.2 hx⟩

/-- A finite run; the last step is the last label. -/
inductive Run (step : σ → ε → σ → Prop) (s : σ) : List ε → σ → Prop
  | nil : Run step s [] s
  | snoc {es : List ε} {t u : σ} {e : ε} : Run step s es t → step t e u → Run step s (es ++ [e]) u

namespace Run

variable {step step' : σ → ε → σ → Prop} {s t u : σ} {es : List ε} {P : σ → Prop} {e : ε}

section

variable (h : Run step s es t)

include h

/-- A property of the first state that every step preserves holds of the last state. -/
theorem invariant (hs : P s) (hstep : ∀ a e b, P a → step a e b → P b) : P t := by
  induction h with
  | nil => exact hs
  | snoc _ hlast ih => exact hstep _ _ _ ih hlast

/-- Forward simulation: if every step from related states can be matched by a step of the other
system that keeps the relation, so can every run. -/
theorem simulation {astep : τ → ε → τ → Prop} {R : σ → τ → Prop} {a : τ} (hs : R s a)
    (hstep : ∀ c b e c', R c b → step c e c' → ∃ b', astep b e b' ∧ R c' b') :
    ∃ b, Run astep a es b ∧ R t b := by
  induction h with
  | nil => exact ⟨a, nil, hs⟩
  | snoc _ hlast ih =>
    obtain ⟨b, hrun, hR⟩ := ih
    obtain ⟨b', hb, hR'⟩ := hstep _ _ _ _ hR hlast
    exact ⟨b', snoc hrun hb, hR'⟩

/-- Runs of a system are runs of every system that has their steps. -/
theorem mono_mem (hle : ∀ a e b, e ∈ es → step a e b → step' a e b) : Run step' s es t := by
  induction h with
  | nil => exact nil
  | @snoc es _ _ e _ hlast ih =>
    refine snoc (ih fun a e' b he' => hle a e' b (List.mem_append_left _ he')) (hle _ _ _ ?_ hlast)
    exact List.mem_append_right _ (List.mem_singleton_self e)

theorem mono (hle : ∀ a e b, step a e b → step' a e b) : Run step' s es t :=
  h.mono_mem fun a e b _ => hle a e b

theorem append {es' : List ε} (h' : Run step t es' u) : Run step s (es ++ es') u := by
  induction h' with
  | nil => simpa using h
  | snoc _ hlast ih =>
    rw [← List.append_assoc]
    exact snoc ih hlast

end

theorem single (h : step s e t) : Run step s [e] t := snoc nil h

theorem cons (h : step s e t) (h' : Run step t es u) : Run step s (e :: es) u :=
  (single h).append h'

/-- A run of a system that can be executed. -/
theorem of_foldlM {exec : σ → ε → Option σ} (h : es.foldlM exec s = some t) :
    Run (fun a e b => exec a e = some b) s es t := by
  induction es generalizing s with
  | nil =>
    obtain rfl : s = t := Option.some.inj h
    exact nil
  | cons e es ih =>
    obtain ⟨u, hu, hrest⟩ := Option.bind_eq_some_iff.1 h
    exact cons hu (ih hrest)

/-- What a computation that succeeds leaves can be looked at. -/
theorem exists_of_any {o : Option σ} [DecidablePred P] (h : o.any (P ·) = true) :
    ∃ s, o = some s ∧ P s := by
  obtain ⟨s, hs, hP⟩ := (Option.any_eq_true ..).1 h
  exact ⟨s, hs, of_decide_eq_true hP⟩

theorem nil_iff : Run step s [] t ↔ t = s := by
  constructor
  · intro h
    generalize hl : ([] : List ε) = l at h
    cases h with
    | nil => rfl
    | snoc _ _ => simp at hl
  · rintro rfl
    exact nil

/-- The last step of a run. -/
theorem concat_iff (es : List ε) : Run step s (es ++ [e]) t ↔ ∃ u,
    Run step s es u ∧ step u e t := by
  constructor
  · intro h
    generalize hl : es ++ [e] = l at h
    cases h with
    | nil => simp at hl
    | snoc hrun hlast =>
      obtain ⟨rfl, he⟩ := List.append_inj' hl rfl
      cases he
      exact ⟨_, hrun, hlast⟩
  · rintro ⟨u, hrun, hlast⟩
    exact snoc hrun hlast

end Run

end CharmRuntime.Lib
