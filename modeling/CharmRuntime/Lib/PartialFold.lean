import Mathlib.Data.List.Perm.Basic

/-!
# Folds that are computed in parts

A fold of a list of values is computed by combining two values at a time, in any order and grouping.
`Folds combine fold` says that `combine` is the fold of two values, that the order does not matter,
and that a part may be replaced by its fold. A single value is not touched by this, and so need not
be its own fold: a value computed so is the only one there is, or the fold of all (`Partial`).
-/

set_option autoImplicit false

namespace CharmRuntime.Lib

open List

universe u

variable {α : Type u} {combine : α → α → α} {fold : List α → α} {xs ys : List α} {x y : α}

/-- The fold can be computed by combining values in any order and grouping. -/
structure Folds (combine : α → α → α) (fold : List α → α) : Prop where
  pair : ∀ x y, combine x y = fold [x, y]
  perm : ∀ {xs ys : List α}, xs.Perm ys → fold xs = fold ys
  nest : ∀ {xs : List α} (ys : List α), xs ≠ [] → fold (fold xs :: ys) = fold (xs ++ ys)

section Operation

variable {op : α → α → α} {norm : α → α}

/-- The fold by an operation, of values that are first brought into a normal form. -/
structure FoldsBy (op : α → α → α) (norm : α → α) (fold : List α → α) : Prop where
  assoc : ∀ x y z, op (op x y) z = op x (op y z)
  comm : ∀ x y, op x y = op y x
  single : ∀ x, fold [x] = norm x
  cons : ∀ x {xs : List α}, xs ≠ [] → fold (x :: xs) = op (norm x) (fold xs)
  normal : ∀ {xs : List α}, xs ≠ [] → norm (fold xs) = fold xs

variable (h : FoldsBy op norm fold)

include h

theorem FoldsBy.append (hxs : xs ≠ []) (hys : ys ≠ []) :
    fold (xs ++ ys) = op (fold xs) (fold ys) := by
  induction xs with
  | nil => exact absurd rfl hxs
  | cons x xs ih =>
    rcases eq_or_ne xs [] with rfl | hne
    · rw [singleton_append, h.cons x hys, h.single]
    · rw [cons_append, h.cons x (by simp [hne]), ih hne, h.cons x hne, h.assoc]

theorem FoldsBy.perm (hperm : xs.Perm ys) : fold xs = fold ys := by
  induction hperm with
  | nil => rfl
  | @cons x xs ys hperm ih =>
    rcases eq_or_ne xs [] with rfl | hne
    · rw [nil_perm.1 hperm]
    · rw [h.cons x hne, h.cons x fun hnil => hne (perm_nil.1 (hnil ▸ hperm)), ih]
  | swap x y xs =>
    rcases eq_or_ne xs [] with rfl | hne
    · rw [h.cons y (cons_ne_nil x []), h.cons x (cons_ne_nil y []), h.single, h.single, h.comm]
    · rw [h.cons y (cons_ne_nil x xs), h.cons x hne, h.cons x (cons_ne_nil y xs), h.cons y hne,
        ← h.assoc, ← h.assoc, h.comm (norm y)]
  | trans _ _ ih1 ih2 => exact ih1.trans ih2

/-- Such a fold can be computed in parts. -/
theorem FoldsBy.folds (hcombine : ∀ x y, combine x y = op (norm x) (norm y)) :
    Folds combine fold where
  pair x y := by rw [hcombine, h.cons x (cons_ne_nil y []), h.single]
  perm := h.perm
  nest {xs} ys hxs := by
    rcases eq_or_ne ys [] with rfl | hne
    · rw [append_nil, h.single, h.normal hxs]
    · rw [h.cons _ hne, h.normal hxs, h.append hxs hne]

end Operation

/-- What combining the values `xs` gives. -/
def Partial (fold : List α → α) (xs : List α) (x : α) : Prop :=
  xs = [x] ∨ 2 ≤ xs.length ∧ x = fold xs

theorem Partial.ne_nil (h : Partial fold xs x) : xs ≠ [] := by
  rcases h with rfl | ⟨hlen, -⟩
  · exact cons_ne_nil _ _
  · rintro rfl
    simp at hlen

theorem Partial.single (x : α) : Partial fold [x] x := .inl rfl

section

variable (hf : Folds combine fold)

include hf

/-- A part stands for the values that it was computed from. -/
theorem Folds.replace (h : Partial fold xs x) (zs : List α) :
    fold (x :: zs) = fold (xs ++ zs) := by
  rcases h with rfl | ⟨hlen, rfl⟩
  · rfl
  · exact hf.nest zs fun hnil => by simp [hnil] at hlen

theorem Partial.join (hx : Partial fold xs x) (hy : Partial fold ys y) :
    Partial fold (xs ++ ys) (combine x y) := by
  have hxs := length_pos_of_ne_nil hx.ne_nil
  have hys := length_pos_of_ne_nil hy.ne_nil
  refine .inr ⟨by rw [length_append]; omega, ?_⟩
  calc combine x y = fold [x, y] := hf.pair x y
    _ = fold (xs ++ [y]) := hf.replace hx [y]
    _ = fold (y :: xs) := hf.perm (perm_append_singleton y xs)
    _ = fold (ys ++ xs) := hf.replace hy xs
    _ = fold (xs ++ ys) := hf.perm perm_append_comm

theorem Partial.perm (h : Partial fold xs x) (hperm : xs.Perm ys) :
    Partial fold ys x := by
  rcases h with rfl | ⟨hlen, rfl⟩
  · exact .inl (perm_singleton.1 hperm.symm)
  · exact .inr ⟨hperm.length_eq ▸ hlen, hf.perm hperm⟩

end

/-- It is the fold of the values unless there is only one, which is not its own fold. -/
theorem Partial.eq_fold_iff (h : Partial fold xs x) : x = fold xs ↔
    2 ≤ xs.length ∨ fold [x] = x := by
  rcases h with rfl | ⟨hlen, rfl⟩
  · simp [eq_comm]
  · exact iff_of_true rfl (.inl hlen)

end CharmRuntime.Lib
