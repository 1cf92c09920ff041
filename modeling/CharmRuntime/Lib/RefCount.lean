import CharmRuntime.Lib.Tables

/-!
# Reference counting

Cells at addresses, each with a count and with the addresses of other cells that it refers to.
References that no cell holds are `loose`: those of the program, and those that a function is about
to give up. A cell whose count has reached 0 is `dying`: its references have become loose, and it is
deleted when they are given up.

`Balanced` says that the counts are right. It is kept when a reference is copied (`Balanced.share`)
or given up (`Balanced.drop`, `Balanced.kill`), when a dying cell is deleted (`Balanced.delete`),
and when a new cell takes over references (`Balanced.alloc`).
-/

set_option autoImplicit false

namespace CharmRuntime.Lib.RefCount

open Function List Option

/-- A cell: its count and its references. -/
structure Cell where
  count : Nat
  refs : List Nat

/-- The references that the cell at an address holds. -/
def held (heap : Nat → Option Cell) (dying : List Nat) (q : Nat) : List Nat :=
  if q ∈ dying then [] else (heap q).elim [] Cell.refs

/-- The number of references to `p`, where all cells are at addresses below `next`. -/
def references (heap : Nat → Option Cell) (next : Nat) (dying loose : List Nat) (p : Nat) : Nat :=
  loose.count p + ∑ q ∈ Finset.range next, (held heap dying q).count p

/-- The count at an address; 0 if there is no cell. -/
def countAt (heap : Nat → Option Cell) (p : Nat) : Nat := (heap p).elim 0 Cell.count

/-- The counts are right, and cells refer to older ones. -/
structure Balanced (heap : Nat → Option Cell) (next : Nat) (dying loose : List Nat) : Prop where
  bounded : ∀ p c, heap p = some c → p < next
  older : ∀ p c, heap p = some c → ∀ r ∈ c.refs, r < p
  balance : ∀ p, countAt heap p = references heap next dying loose p
  alive : ∀ p ∈ dying, ∃ c, heap p = some c
  dying_iff : ∀ p c, heap p = some c → (p ∈ dying ↔ c.count = 0)

variable {heap heap' : Nat → Option Cell} {next p q : Nat}
  {dying dying' loose loose' : List Nat} {c : Cell}
  {o : Option Cell}

/-! ## Counting -/

theorem countAt_some (h : heap p = some c) : countAt heap p = c.count := by
  rw [countAt, h]
  rfl

/-- A count does not matter for what a cell holds. -/
theorem held_recount (h : heap p = some c) (n q : Nat) :
    held (update heap p (some { c with count := n })) dying q = held heap dying q := by
  rcases eq_or_ne q p with rfl | hne
  · rw [held, held, update_self, h]
    rfl
  · rw [held, held, update_of_ne hne]

/-- Only the references that `p` holds have changed. -/
theorem references_change (loose loose' : List Nat) (hp : p < next)
    (hheld : ∀ q ≠ p, held heap' dying' q = held heap dying q) (x : Nat) :
    references heap' next dying' loose' x + loose.count x + (held heap dying p).count x =
      references heap next dying loose x + loose'.count x + (held heap' dying' p).count x := by
  have hmem : p ∈ Finset.range next := Finset.mem_range.2 hp
  have hrest : ∑ q ∈ (Finset.range next).erase p, (held heap' dying' q).count x =
      ∑ q ∈ (Finset.range next).erase p, (held heap dying q).count x :=
    Finset.sum_congr rfl fun q hq => by rw [hheld q (Finset.ne_of_mem_erase hq)]
  have hold := Finset.add_sum_erase _ (fun q => (held heap dying q).count x) hmem
  have hnew := Finset.add_sum_erase _ (fun q => (held heap' dying' q).count x) hmem
  simp only [references, ← hold, ← hnew, hrest]
  omega

theorem held_of_not_mem (h : heap p = some c) (hp : p ∉ dying) : held heap dying p = c.refs := by
  rw [held, if_neg hp, h]
  rfl

theorem held_update_of_ne (hq : q ≠ p) : held (update heap p o) dying q = held heap dying q := by
  rw [held, held, update_of_ne hq]

theorem countAt_update_of_ne (hq : q ≠ p) : countAt (update heap p o) q = countAt heap q := by
  rw [countAt, countAt, update_of_ne hq]

/-- A cell is written, and the others stay. -/
theorem forall_written {Q : Nat → Cell → Prop} (hnew : Q p c)
    (hold : ∀ q c', q ≠ p → heap q = some c' → Q q c') :
    ∀ q c', update heap p (some c) q = some c' → Q q c' := by
  intro q c' hq
  rcases update_some_cases hq with ⟨rfl, rfl⟩ | ⟨hne, hq⟩
  · exact hnew
  · exact hold q c' hne hq

/-! ## The rules -/

namespace Balanced

section Cells

variable (h : Balanced heap next dying loose)

include h

/-- Something that is referred to is there, and is not dying. -/
theorem exists_of_pos (hpos : 0 < references heap next dying loose p) :
    ∃ c, heap p = some c ∧ p ∉ dying ∧ 0 < c.count := by
  rw [← h.balance] at hpos
  cases hc : heap p with
  | none => simp [countAt, hc] at hpos
  | some c =>
    rw [countAt_some hc] at hpos
    exact ⟨c, rfl, fun hd => hpos.ne' ((h.dying_iff p c hc).1 hd), hpos⟩

theorem exists_of_mem (hp : p ∈ loose) : ∃ c, heap p = some c ∧ p ∉ dying ∧ 0 < c.count :=
  h.exists_of_pos (Nat.add_pos_left (count_pos_iff.2 hp) _)

theorem exists_of_ref (hp : heap p = some c) (hd : p ∉ dying) {r : Nat} (hr : r ∈ c.refs) :
    ∃ c', heap r = some c' ∧ r ∉ dying ∧ 0 < c'.count := by
  refine h.exists_of_pos
    (Nat.add_pos_right _ (Finset.sum_pos' (fun _ _ => Nat.zero_le _) ⟨p, ?_, ?_⟩))
  · exact Finset.mem_range.2 (h.bounded p c hp)
  · rw [held_of_not_mem hp hd]
    exact count_pos_iff.2 hr

/-- The order of the loose references does not matter. -/
theorem perm (hperm : loose.Perm loose') : Balanced heap next dying loose' :=
  { h with balance := fun p => by rw [h.balance, references, references, hperm.count_eq] }

/-- The count of a cell is set to what the references demand. -/
theorem recount (hp : heap p = some c) {n : Nat}
    (hcount : ∀ x, references (update heap p (some { c with count := n })) next dying' loose' x =
      if x = p then n else references heap next dying loose x)
    (hdying : ∀ q, q ∈ dying' ↔ if q = p then n = 0 else q ∈ dying) :
    Balanced (update heap p (some { c with count := n })) next dying' loose' where
  bounded := forall_written (h.bounded p c hp) fun q c' _ => h.bounded q c'
  older := forall_written (h.older p c hp) fun q c' _ => h.older q c'
  balance q := by
    rw [hcount]
    rcases eq_or_ne q p with rfl | hne
    · rw [if_pos rfl, countAt, update_self]
      rfl
    · rw [if_neg hne, ← h.balance, countAt_update_of_ne hne]
  alive q hq := by
    rcases eq_or_ne q p with rfl | hne
    · exact ⟨_, update_self q _ heap⟩
    · rw [update_of_ne hne]
      exact h.alive q (by simpa [hne] using (hdying q).1 hq)
  dying_iff := by
    refine forall_written (by rw [hdying, if_pos rfl]) fun q c' hne hq => ?_
    rw [hdying, if_neg hne]
    exact h.dying_iff q c' hq

end Cells

theorem references_recount (hp : heap p = some c) (n x : Nat) :
    references (update heap p (some { c with count := n })) next dying loose x =
      references heap next dying loose x := by
  simp only [references, held_recount hp]

/-- A reference is copied. -/
theorem share (h : Balanced heap next dying loose) (hp : heap p = some c) (hd : p ∉ dying) :
    Balanced (update heap p (some { c with count := c.count + 1 })) next dying (p :: loose) := by
  refine h.recount hp (fun x => ?_) fun q => ?_
  · have hbalance := h.balance x
    rw [references_recount hp, references, count_cons, add_right_comm, ← references]
    rcases eq_or_ne x p with rfl | hne
    · rw [if_pos rfl, ← hbalance, countAt_some hp, beq_self_eq_true, if_pos rfl]
    · rw [if_neg hne, if_neg (by simpa using hne.symm), add_zero]
  · rcases eq_or_ne q p with rfl | hne
    · simp [hd]
    · rw [if_neg hne]

section

variable (h : Balanced heap next dying (p :: loose)) (hp : heap p = some c)

include h hp

/-- A reference is given up, and is not the last. -/
theorem drop (hc : 1 < c.count) :
    Balanced (update heap p (some { c with count := c.count - 1 })) next dying loose := by
  have hd : p ∉ dying := fun hd => by
    have hzero := (h.dying_iff p c hp).1 hd
    omega
  refine h.recount hp (fun x => ?_) fun q => ?_
  · have hbalance := h.balance x
    rw [references, count_cons, add_right_comm, ← references] at hbalance
    rw [references_recount hp, references, references, count_cons, add_right_comm, ← references]
    rcases eq_or_ne x p with rfl | hne
    · rw [countAt_some hp, beq_self_eq_true, if_pos rfl] at hbalance
      rw [if_pos rfl]
      omega
    · rw [if_neg hne, if_neg (by simpa using hne.symm), add_zero]
  · rcases eq_or_ne q p with rfl | hne
    · simp only [hd, if_true, false_iff]
      omega
    · rw [if_neg hne]

/-- The last reference is given up. The cell gives up its own references. -/
theorem kill (hc : c.count = 1) :
    Balanced (update heap p (some { c with count := 0 })) next (p :: dying)
      (c.refs ++ loose) := by
  have hd : p ∉ dying := fun hd => by
    have hzero := (h.dying_iff p c hp).1 hd
    omega
  have hself : p ∉ c.refs := fun hmem => lt_irrefl p (h.older p c hp p hmem)
  refine h.recount hp (fun x => ?_) fun q => ?_
  · have hbalance := h.balance x
    have hheld : ∀ q ≠ p, held (update heap p (some { c with count := 0 })) (p :: dying) q =
        held heap dying q := fun q hq => by
      rw [held_update_of_ne hq, held, held]
      simp [hq]
    have hchange := references_change (p :: loose) (c.refs ++ loose) (h.bounded p c hp) hheld x
    have hnone : held (update heap p (some { c with count := 0 })) (p :: dying) p = [] :=
      if_pos mem_cons_self
    rw [held_of_not_mem hp hd, hnone, count_nil, count_append, count_cons] at hchange
    rcases eq_or_ne x p with rfl | hne
    · rw [countAt_some hp, hc] at hbalance
      rw [if_pos rfl]
      simp only [beq_self_eq_true, if_true, count_eq_zero_of_not_mem hself] at hchange
      omega
    · rw [if_neg hne]
      rw [if_neg (by simpa using hne.symm)] at hchange
      omega
  · rcases eq_or_ne q p with rfl | hne
    · simp
    · simp [hne]

end

/-- A dying cell is deleted. -/
theorem delete (h : Balanced heap next (p :: dying) loose) (hd : p ∉ dying) :
    Balanced (update heap p none) next dying loose := by
  obtain ⟨c, hp⟩ := h.alive p mem_cons_self
  have hzero : c.count = 0 := (h.dying_iff p c hp).1 mem_cons_self
  constructor
  case bounded =>
    intro q c' hq
    exact h.bounded q c' (update_none_cases hq).2
  case older =>
    intro q c' hq
    exact h.older q c' (update_none_cases hq).2
  case balance =>
    intro x
    have hsame : references (update heap p none) next dying loose x =
        references heap next (p :: dying) loose x := by
      simp only [references]
      congr 1
      refine Finset.sum_congr rfl fun q _ => ?_
      rcases eq_or_ne q p with rfl | hne
      · rw [held, if_neg hd, update_self, held, if_pos mem_cons_self]
        rfl
      · rw [held_update_of_ne hne, held, held]
        simp [hne]
    rw [hsame, ← h.balance]
    rcases eq_or_ne x p with rfl | hne
    · rw [countAt_some hp, hzero, countAt, update_self]
      rfl
    · exact countAt_update_of_ne hne
  case alive =>
    intro q hq
    have hne : q ≠ p := fun heq => hd (heq ▸ hq)
    rw [update_of_ne hne]
    exact h.alive q (mem_cons_of_mem p hq)
  case dying_iff =>
    intro q c' hq
    obtain ⟨hne, hq⟩ := update_none_cases hq
    rw [← h.dying_iff q c' hq]
    simp [hne]

/-- A new cell takes over loose references. -/
theorem alloc {refs : List Nat} (h : Balanced heap next dying (refs ++ loose)) :
    Balanced (update heap next (some ⟨1, refs⟩)) (next + 1) dying (next :: loose) := by
  have hfresh : heap next = none := by
    cases hc : heap next with
    | none => rfl
    | some c => exact absurd (h.bounded next c hc) (lt_irrefl next)
  have hnext : next ∉ dying := fun hd => by
    obtain ⟨c, hc⟩ := h.alive next hd
    rw [hfresh] at hc
    exact absurd hc (by simp)
  have hrefs : ∀ r ∈ refs, r < next := fun r hr => by
    obtain ⟨c, hc, -⟩ := h.exists_of_mem (mem_append_left loose hr)
    exact h.bounded r c hc
  constructor
  case bounded =>
    exact forall_written (Nat.lt_succ_self next) fun q c _ hq =>
      (h.bounded q c hq).trans (Nat.lt_succ_self next)
  case older => exact forall_written hrefs fun q c _ => h.older q c
  case balance =>
    intro x
    have hbalance := h.balance x
    have hsum : ∑ q ∈ Finset.range next,
      (held (update heap next (some ⟨1, refs⟩)) dying q).count x =
        ∑ q ∈ Finset.range next, (held heap dying q).count x :=
      Finset.sum_congr rfl fun q hq => by rw [held_update_of_ne (Finset.mem_range.1 hq).ne]
    have hheld : held (update heap next (some ⟨1, refs⟩)) dying next = refs :=
      held_of_not_mem (update_self _ _ _) hnext
    rw [references, count_append] at hbalance
    rw [references, Finset.sum_range_succ, hsum, hheld, count_cons]
    rcases eq_or_ne x next with rfl | hne
    · rw [countAt, hfresh, elim_none] at hbalance
      rw [countAt, update_self, beq_self_eq_true, if_pos rfl, elim_some]
      dsimp only
      omega
    · rw [countAt_update_of_ne hne, if_neg (by simpa using hne.symm)]
      omega
  case alive =>
    intro q hq
    have hne : q ≠ next := fun heq => hnext (heq ▸ hq)
    rw [update_of_ne hne]
    exact h.alive q hq
  case dying_iff => exact forall_written (by simp [hnext]) fun q c _ => h.dying_iff q c

end Balanced

end CharmRuntime.Lib.RefCount
