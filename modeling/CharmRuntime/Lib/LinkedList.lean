import Mathlib.Data.List.Nodup

/-!
# Doubly linked lists in memory

The memory is given by the two fields `prev` and `next` of every address; address `0` is null.
`Linked prev next p x l` says that the pointer `x` leads along `next` through the addresses of `l`
to null, with `prev` leading back to `p`. A list is determined by its first address
(`Linked.unique`), so it has no repetitions (`Linked.nodup`).

The operations are the insertion at the head, the removal of the head, and the removal of any
member through its links (`unlinkPrev`, `unlinkNext`, `unlinkHead`). A list whose members are not
touched is kept (`Linked.congr`).
-/

set_option autoImplicit false

namespace CharmRuntime.Lib.LinkedList

open Function List

variable {prev next prev' next' : Nat → Nat}

/-- The pointer `x` leads through the addresses of `l` to null, and back to `p`. -/
def Linked (prev next : Nat → Nat) : Nat → Nat → List Nat → Prop
  | _, x, [] => x = 0
  | p, x, y :: l => x = y ∧ y ≠ 0 ∧ prev y = p ∧ Linked prev next y (next y) l

/-- The list at `head`: the back link of its first address is null. -/
abbrev IsList (prev next : Nat → Nat) (head : Nat) (l : List Nat) : Prop :=
  Linked prev next 0 head l

variable {l : List Nat}

variable {x head p y : Nat} {l' : List Nat}

section

variable (h : Linked prev next p x l)

include h

theorem Linked.congr (hprev : ∀ y ∈ l, prev' y = prev y)
    (hnext : ∀ y ∈ l, next' y = next y) : Linked prev' next' p x l := by
  induction l generalizing p x with
  | nil => exact h
  | cons y l ih =>
    obtain ⟨hx, h0, hp, hl⟩ := h
    refine ⟨hx, h0, ?_, ?_⟩
    · rw [hprev y mem_cons_self, hp]
    · rw [hnext y mem_cons_self]
      exact ih hl (fun z hz => hprev z (mem_cons_of_mem _ hz))
        fun z hz => hnext z (mem_cons_of_mem _ hz)

theorem Linked.ne_zero : ∀ y ∈ l, y ≠ 0 := by
  induction l generalizing p x with
  | nil => simp
  | cons y l ih =>
    obtain ⟨-, h0, -, hl⟩ := h
    exact forall_mem_cons.2 ⟨h0, ih hl⟩

/-- The first address determines the list. -/
theorem Linked.unique {p' : Nat} (h' : Linked prev' next p' x l') : l = l' := by
  induction l generalizing p p' x l' with
  | nil =>
    cases l' with
    | nil => rfl
    | cons y l' =>
      obtain ⟨hx, h0, -⟩ := h'
      exact absurd (hx.symm.trans h) h0
  | cons y l ih =>
    cases l' with
    | nil =>
      obtain ⟨hx, h0, -⟩ := h
      exact absurd (hx.symm.trans h') h0
    | cons y' l' =>
      obtain ⟨rfl, -, -, hl⟩ := h
      obtain ⟨rfl, -, -, hl'⟩ := h'
      rw [ih hl hl']

end

variable {l1 l2 : List Nat} {head' : Nat}

/-- From any member on, the list is again linked. -/
theorem Linked.suffix (h : Linked prev next p x (l1 ++ y :: l2)) : ∃ p',
    Linked prev next p' y (y :: l2) := by
  induction l1 generalizing p x with
  | nil =>
    obtain ⟨rfl, h'⟩ := h
    exact ⟨p, rfl, h'⟩
  | cons z l1 ih =>
    obtain ⟨-, -, -, hl⟩ := h
    exact ih hl

theorem Linked.nodup (h : Linked prev next p x l) : l.Nodup := by
  induction l generalizing p x with
  | nil => exact nodup_nil
  | cons y l ih =>
    obtain ⟨rfl, h0, hp, hl⟩ := h
    refine nodup_cons.2 ⟨fun hmem => ?_, ih hl⟩
    -- a second occurrence would start the same list again, one element shorter
    obtain ⟨l1, l2, rfl⟩ := append_of_mem hmem
    obtain ⟨p', hs⟩ := hl.suffix
    have hfirst : Linked prev next p x (x :: (l1 ++ x :: l2)) := ⟨rfl, h0, hp, hl⟩
    have := congrArg List.length (hfirst.unique hs)
    simp only [length_cons, length_append] at this
    omega

/-! ## Insertion at the head -/

/-- The back links after `x` was inserted before `head`. -/
def pushPrev (prev : Nat → Nat) (head x : Nat) : Nat → Nat :=
  if head ≠ 0 then update (update prev x 0) head x else update prev x 0

theorem IsList.push (h : IsList prev next head l) (h0 : x ≠ 0) (hx : x ∉ l) :
    IsList (pushPrev prev head x) (update next x head) x (x :: l) := by
  cases l with
  | nil =>
    have hhead : head = 0 := h
    subst hhead
    refine ⟨rfl, h0, ?_, ?_⟩
    · simp [pushPrev]
    · exact update_self _ _ _
  | cons y l =>
    have hnd := h.nodup
    obtain ⟨rfl, hy0, hy, hl⟩ := h
    have hxy : x ≠ head := fun he => hx (he ▸ mem_cons_self)
    refine ⟨rfl, h0, ?_, ?_⟩
    · rw [pushPrev, if_pos hy0, update_of_ne hxy, update_self]
    · rw [update_self]
      refine ⟨rfl, hy0, ?_, ?_⟩
      · rw [pushPrev, if_pos hy0, update_self]
      · rw [update_of_ne hxy.symm]
        refine hl.congr (fun z hz => ?_) fun z hz => ?_
        · have hzh : z ≠ head := fun he => (nodup_cons.1 hnd).1 (he ▸ hz)
          have hzx : z ≠ x := fun he => hx (he ▸ mem_cons_of_mem _ hz)
          rw [pushPrev, if_pos hy0, update_of_ne hzh, update_of_ne hzx]
        · have hzx : z ≠ x := fun he => hx (he ▸ mem_cons_of_mem _ hz)
          rw [update_of_ne hzx]

/-- The insertion changes the back links of the new and of the old head only. -/
theorem pushPrev_of_ne (hx : y ≠ x) (hhead : head ≠ 0 → y ≠ head) :
    pushPrev prev head x y = prev y := by
  rw [pushPrev]
  split
  · next h => rw [update_of_ne (hhead h), update_of_ne hx]
  · rw [update_of_ne hx]

/-! ## Removal of a member -/

/-- The back links after `x` was taken out: the successor of `x` leads back to its predecessor. -/
def unlinkPrev (prev next : Nat → Nat) (x : Nat) : Nat → Nat :=
  if next x ≠ 0 then update prev (next x) (prev x) else prev

/-- The forward links after `x` was taken out: the predecessor of `x` leads to its successor. -/
def unlinkNext (prev next : Nat → Nat) (x : Nat) : Nat → Nat :=
  if prev x ≠ 0 then update next (prev x) (next x) else next

/-- The head after `x` was taken out. -/
def unlinkHead (prev next : Nat → Nat) (head x : Nat) : Nat :=
  if prev x ≠ 0 then head else next x

theorem unlinkPrev_of_ne (h : next x ≠ 0 → y ≠ next x) : unlinkPrev prev next x y = prev y := by
  rw [unlinkPrev]
  split
  · next h0 => rw [update_of_ne (h h0)]
  · rfl

theorem unlinkNext_of_ne (h : prev x ≠ 0 → y ≠ prev x) : unlinkNext prev next x y = next y := by
  rw [unlinkNext]
  split
  · next h0 => rw [update_of_ne (h h0)]
  · rfl

/-- The links of a member lead to members. -/
theorem Linked.links (h : Linked prev next p x (l1 ++ y :: l2)) :
    (if l1 = [] then prev y = p else prev y ∈ l1) ∧ (l2 = [] → next y = 0) ∧
      (l2 ≠ [] → next y ∈ l2) := by
  induction l1 generalizing p x with
  | nil =>
    obtain ⟨-, -, hp, hl⟩ := h
    refine ⟨by simpa using hp, ?_, ?_⟩
    · rintro rfl
      exact hl
    · intro hne
      cases l2 with
      | nil => exact absurd rfl hne
      | cons z l2 =>
        obtain ⟨hz, -⟩ := hl
        rw [hz]
        exact mem_cons_self
  | cons w l1 ih =>
    obtain ⟨-, -, -, hl⟩ := h
    obtain ⟨hprev, hnext⟩ := ih hl
    refine ⟨?_, hnext⟩
    split at hprev
    · rw [hprev]
      exact mem_cons_self
    · exact mem_cons_of_mem _ hprev

theorem Linked.unlink_aux (h : Linked prev next p x (l1 ++ y :: l2)) (hp : p ∉ l1 ++ y :: l2) :
    Linked (unlinkPrev prev next y) (unlinkNext prev next y) p
      (if l1 = [] then next y else x) (l1 ++ l2) := by
  have hnd := h.nodup
  have h0 := h.ne_zero
  obtain ⟨hprev, hnil, hcons⟩ := h.links
  induction l1 generalizing p x with
  | nil =>
    obtain ⟨rfl, -, hpx, hl⟩ := h
    cases l2 with
    | nil => exact hl
    | cons z l2 =>
      obtain ⟨hz, hz0, -, hl⟩ := hl
      have hpz : p ≠ z := fun he => hp (he ▸ by simp)
      refine ⟨hz, hz0, ?_, ?_⟩
      · rw [unlinkPrev, if_pos (by rw [hz]; exact hz0), hz, update_self, hpx]
      · rw [unlinkNext_of_ne (by rw [hpx]; exact fun _ => hpz.symm)]
        refine hl.congr (fun w hw => unlinkPrev_of_ne fun _ => ?_)
          fun w hw => unlinkNext_of_ne fun _ => ?_
        · rintro rfl
          rw [hz] at hw
          simp only [nil_append, nodup_cons] at hnd
          exact hnd.2.1 hw
        · rintro rfl
          rw [hpx] at hw
          exact hp (by simp [hw])
  | cons w l1 ih =>
    obtain ⟨rfl, hw0, hpw, hl⟩ := h
    have hnd' : (l1 ++ y :: l2).Nodup := (nodup_cons.1 hnd).2
    have hwl : x ∉ l1 ++ y :: l2 := (nodup_cons.1 hnd).1
    obtain ⟨hprev', -⟩ := hl.links
    have hrest := ih hl hwl hnd' (fun z hz => h0 z (mem_cons_of_mem _ hz)) hprev'
    refine ⟨rfl, hw0, ?_, ?_⟩
    · -- the successor of the removed member comes after it
      rw [unlinkPrev_of_ne, hpw]
      rintro hne rfl
      cases l2 with
      | nil => exact hne (hnil rfl)
      | cons z l2 => exact hwl (mem_append_right _ (mem_cons_of_mem _ (hcons (by simp))))
    · by_cases hl1 : l1 = []
      · subst hl1
        have hnext : unlinkNext prev next y x = next y := by
          rw [unlinkNext, if_pos (by rw [hprev']; exact hw0), hprev', update_self]
        rw [hnext]
        exact hrest
      · rw [if_neg hl1] at hprev' hrest
        rw [unlinkNext_of_ne]
        · exact hrest
        · rintro - rfl
          exact hwl (mem_append_left _ hprev')

section

variable (h : IsList prev next head l)

include h

/-- Taking out a member leaves the list without it. -/
theorem IsList.unlink (hx : x ∈ l) :
    IsList (unlinkPrev prev next x) (unlinkNext prev next x) (unlinkHead prev next head x)
      (l.erase x) := by
  obtain ⟨l1, l2, rfl⟩ := append_of_mem hx
  have hx1 : x ∉ l1 := by
    have := h.nodup
    rw [nodup_append] at this
    intro hmem
    exact this.2.2 x hmem x mem_cons_self rfl
  rw [erase_append_right _ hx1, erase_cons_head]
  have hrest := h.unlink_aux fun h0 => h.ne_zero 0 h0 rfl
  have hhead : unlinkHead prev next head x = if l1 = [] then next x else head := by
    obtain ⟨hprev, -⟩ := h.links
    rw [unlinkHead]
    split at hprev
    · next hl => rw [hprev, if_pos hl, if_neg (by simp)]
    · next hl =>
      rw [if_neg hl, if_pos]
      exact h.ne_zero _ (mem_append_left _ hprev)
  rw [hhead]
  exact hrest

/-- Taking out a member keeps a list that shares no member with it. -/
theorem IsList.unlink_other (hx : x ∈ l)
    (h' : IsList prev next head' l') (hdisj : ∀ y ∈ l', y ∉ l) :
    IsList (unlinkPrev prev next x) (unlinkNext prev next x) head' l' := by
  obtain ⟨l1, l2, rfl⟩ := append_of_mem hx
  obtain ⟨hprev, hnil, hcons⟩ := h.links
  refine h'.congr (fun y hy => unlinkPrev_of_ne fun h0 => ?_)
    fun y hy => unlinkNext_of_ne fun h0 => ?_
  · rintro rfl
    cases l2 with
    | nil => exact h0 (hnil rfl)
    | cons z l2 => exact hdisj _ hy (by simp [hcons])
  · rintro rfl
    split at hprev
    · exact h0 hprev
    · exact hdisj _ hy (mem_append_left _ hprev)

/-- Inserting at the head of one list keeps a list that shares no member with it. -/
theorem IsList.push_other (h' : IsList prev next head' l') (hx : x ∉ l') (hdisj : ∀ y ∈ l', y ∉ l) :
    IsList (pushPrev prev head x) (update next x head) head' l' := by
  refine h'.congr (fun y hy => pushPrev_of_ne ?_ fun h0 => ?_) fun y hy => ?_
  · rintro rfl
    exact hx hy
  · rintro rfl
    cases l with
    | nil => exact h0 h
    | cons z l =>
      obtain ⟨rfl, -⟩ := h
      exact hdisj _ hy mem_cons_self
  · rw [update_of_ne]
    rintro rfl
    exact hx hy

end

/-! ## Families of lists -/

/-- A family of lists that share the memory: the list at `heads b` has the members `x` with
`P x b`. -/
def Family (heads prev next : Nat → Nat) (P : Nat → Nat → Prop) : Prop :=
  ∀ b, ∃ l, IsList prev next (heads b) l ∧ ∀ x, x ∈ l ↔ P x b

section Family

variable {heads : Nat → Nat} {P : Nat → Nat → Prop}

/-- Two lists of a family share no member if every address belongs to one list. -/
theorem disjoint_members (hfun : ∀ x b b', P x b → P x b' → b = b') {b b' : Nat} (hne : b' ≠ b)
    (hl : ∀ x, x ∈ l ↔ P x b) (hl' : ∀ x, x ∈ l' ↔ P x b') : ∀ y ∈ l', y ∉ l := by
  intro y hy hy'
  exact hne (hfun y b' b ((hl' y).1 hy) ((hl y).1 hy'))

variable (h : Family heads prev next P)

include h

section

variable (hfun : ∀ x b b', P x b → P x b' → b = b')

include hfun

theorem Family.push
    (h0 : x ≠ 0) (hx : ∀ b, ¬ P x b) (i : Nat) :
    Family (update heads i x) (pushPrev prev (heads i) x)
      (update next x (heads i)) (fun y b => P y b ∨ (y = x ∧ b = i)) := by
  intro b
  obtain ⟨l, hlist, hmem⟩ := h i
  have hxl : x ∉ l := fun hin => hx i ((hmem x).1 hin)
  by_cases hb : b = i
  · subst hb
    refine ⟨x :: l, ?_, fun y => ?_⟩
    · rw [update_self]
      exact hlist.push h0 hxl
    · rw [mem_cons, hmem]
      simp [or_comm]
  · obtain ⟨l', hlist', hmem'⟩ := h b
    refine ⟨l', ?_, fun y => ?_⟩
    · rw [update_of_ne hb]
      exact hlist.push_other hlist' (fun hin => hx b ((hmem' x).1 hin))
        (disjoint_members hfun hb hmem hmem')
    · simp [hmem', hb]

theorem Family.unlink {i : Nat} (hx : P x i) :
    Family (update heads i (unlinkHead prev next (heads i) x)) (unlinkPrev prev next x)
      (unlinkNext prev next x) (fun y b => P y b ∧ y ≠ x) := by
  intro b
  obtain ⟨l, hlist, hmem⟩ := h i
  have hxl : x ∈ l := (hmem x).2 hx
  by_cases hb : b = i
  · subst hb
    refine ⟨l.erase x, ?_, fun y => ?_⟩
    · rw [update_self]
      exact hlist.unlink hxl
    · rw [hlist.nodup.mem_erase_iff, hmem, and_comm]
  · obtain ⟨l', hlist', hmem'⟩ := h b
    refine ⟨l', ?_, fun y => ?_⟩
    · rw [update_of_ne hb]
      exact hlist.unlink_other hxl hlist' (disjoint_members hfun hb hmem hmem')
    · rw [hmem', iff_self_and]
      rintro hy rfl
      exact hb (hfun y b i hy hx)

end

theorem Family.congr {Q : Nat → Nat → Prop}
    (hPQ : ∀ x b, P x b ↔ Q x b) : Family heads prev next Q := by
  intro b
  obtain ⟨l, hlist, hmem⟩ := h b
  exact ⟨l, hlist, fun x => (hmem x).trans (hPQ x b)⟩

end Family

end CharmRuntime.Lib.LinkedList
