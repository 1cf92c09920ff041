import CharmRuntime.Isomalloc.SlotLists

/-!
# Searching a node of the slot tree

`find_btree_slotblock`, `btree_insert_int` and `btree_delete_int` search the row of a node with the
same halving steps and differ in the test at an index: the first looks for the block that contains a
slot, the second for the place of a new block, the third for the block with a given first slot. Each
test is a direction function for `BinarySearch.search`.

The rows are ordered by the first slot. With `r` blocks below the slot, the searches end at index
`r - 1` or `r` if the slot is not met, and the child to descend to is `r` in both cases
(`insertIndex_spec`, `deleteIndex_spec`, `findIndex_spec`).
-/

set_option autoImplicit false

namespace CharmRuntime.Isomalloc

open Lib List
open BinarySearch (search Guides search_spec)

/-- `node->blocks[i].startslot`. -/
def startAt (bs : List SlotBlock) (i : Nat) : Int := ((bs[i]?).map SlotBlock.startslot).getD 0

/-- `node->blocks[i].startslot + node->blocks[i].nslots - 1`. -/
def endAt (bs : List SlotBlock) (i : Nat) : Int :=
  ((bs[i]?).map fun b => b.startslot + b.nslots - 1).getD 0

section Moves

variable (bs : List SlotBlock) (startslot : Int)

/-- The test of `btree_insert_int`. -/
def insertMove (index : Nat) : BinarySearch.Move :=
  if startslot < startAt bs index then
    if index = 0 ∨ startslot > startAt bs (index - 1) then .here else .left
  else
    if index = bs.length - 1 ∨ startslot < startAt bs (index + 1) then .here else .right

/-- The test of `btree_delete_int`. -/
def deleteMove (index : Nat) : BinarySearch.Move :=
  if startslot = startAt bs index then .here
  else if startslot < startAt bs index then
    if index = 0 ∨ startslot > startAt bs (index - 1) then .here else .left
  else
    if index = bs.length - 1 ∨ startslot < startAt bs (index + 1) then .here else .right

/-- The test of `find_btree_slotblock`. -/
def findMove (index : Nat) : BinarySearch.Move :=
  if startslot ≥ startAt bs index ∧ startslot ≤ endAt bs index then .here
  else if startslot < startAt bs index then
    if index = 0 ∨ startslot > endAt bs (index - 1) then .here else .left
  else
    if index = bs.length - 1 ∨ startslot < startAt bs (index + 1) then .here else .right

/-- The index at which a new block goes, and of the child to take. -/
def insertIndex : Option Nat :=
  (search (insertMove bs startslot) bs.length).map fun index =>
    if startslot < startAt bs index then index else index + 1

/-- The index at which the search for a first slot ends. -/
def deleteIndex : Option Nat :=
  search (deleteMove bs startslot) bs.length

/-- The index at which the search for a slot ends. -/
def findIndex : Option Nat :=
  search (findMove bs startslot) bs.length

end Moves

/-- Take the left child of the block `b` at `index`, or the right child. -/
def takeChild (b : SlotBlock) (startslot : Int) (index : Nat) : Nat :=
  if startslot < b.startslot then index else index + 1

/-- `find_btree_slotblock`; the inner option is the pointer, `none` for `NULL`. -/
def findBtreeSlotblock (node : BTreeNode) (startslot : Int) : Option (Option Ptr) :=
  match node with
  | .node a bs cs =>
    if startslot < 0 ∨ bs.length = 0 then some none
    else
      (findIndex bs startslot).bind fun index =>
        (bs[index]?).bind fun b =>
          if startslot ≥ b.startslot ∧ startslot ≤ b.startslot + b.nslots - 1 then
            some (some (a, index))
          else
            match _hc : cs[takeChild b startslot index]? with
            | some c => findBtreeSlotblock c startslot
            | none => some none
termination_by sizeOf node
decreasing_by
  have := sizeOf_lt_of_mem (mem_of_getElem? _hc)
  simp only [BTree.node.sizeOf_spec]
  omega

/-! ## The test at an index -/

/-- The test in a row whose blocks have the first slots `s` and the last slots `e`. -/
def moveBy (s e : Nat → Int) (len : Nat) (x : Int) (index : Nat) : BinarySearch.Move :=
  if x ≥ s index ∧ x ≤ e index then .here
  else if x < s index then
    if index = 0 ∨ x > e (index - 1) then .here else .left
  else
    if index = len - 1 ∨ x < s (index + 1) then .here else .right

theorem deleteMove_eq (bs : List SlotBlock) (x : Int) :
    deleteMove bs x = moveBy (startAt bs) (startAt bs) bs.length x := by
  funext i
  exact if_congr ⟨fun h => by omega, fun h => by omega⟩ rfl rfl

section Tests

variable {s e : Nat → Int} {len r : Nat} {x : Int}

/-- The search for a slot that no block contains ends on either side of its place. -/
theorem guides_miss (hlen : 0 < len) (hr : r ≤ len) (hlow : ∀ i < r, s i < x ∧ e i < x)
    (hhigh : ∀ i, r ≤ i → i < len → x < s i ∧ x < e i) :
    Guides (moveBy s e len x) len (r - 1) (min r (len - 1)) := by
  refine ⟨by omega, by omega, ?_, ?_, ?_⟩
  · intro i hlo hhi
    rw [moveBy]
    rcases lt_or_ge i r with hir | hir
    · have := hlow i hir
      rw [if_neg (by omega), if_neg (by omega), if_pos]
      rcases lt_or_ge r len with hlt | hge
      · exact .inr (hhigh (i + 1) (by omega) (by omega)).1
      · exact .inl (by omega)
    · have := hhigh i hir (by omega)
      rw [if_neg (by omega), if_pos this.1, if_pos]
      rcases Nat.eq_zero_or_pos i with h0 | h0
      · exact .inl h0
      · exact .inr (hlow (i - 1) (by omega)).2
  · intro i hi
    have := hlow i (by omega)
    have := hlow (i + 1) (by omega)
    rw [moveBy, if_neg (by omega), if_neg (by omega), if_neg (by omega)]
  · intro i hi hlt
    have := hhigh i (by omega) hlt
    have := hhigh (i - 1) (by omega) (by omega)
    rw [moveBy, if_neg (by omega), if_pos (by omega), if_neg (by omega)]

/-- The search for a slot that a block contains ends at that block. -/
theorem search_found (hlen : r < len) (hlow : ∀ i < r, s i < x ∧ e i < x) (hmid : s r ≤ x ∧ x ≤ e r)
    (hhigh : ∀ i, r < i → i < len → x < s i ∧ x < e i) :
    search (moveBy s e len x) len = some r := by
  have hg : Guides (moveBy s e len x) len r r := by
    refine ⟨le_rfl, hlen, ?_, ?_, ?_⟩
    · intro i hlo hhi
      have : i = r := le_antisymm hhi hlo
      rw [moveBy, if_pos (by rw [this]; exact hmid)]
    · intro i hi
      have := hlow i hi
      have hnext : s (i + 1) ≤ x := by
        rcases lt_or_ge (i + 1) r with h | h
        · exact (hlow _ h).1.le
        · rw [show i + 1 = r by omega]
          exact hmid.1
      rw [moveBy, if_neg (by omega), if_neg (by omega), if_neg (by omega)]
    · intro i hi hlt
      have := hhigh i hi hlt
      have hprev : x ≤ e (i - 1) := by
        rcases lt_or_ge r (i - 1) with h | h
        · exact (hhigh _ h (by omega)).2.le
        · rw [show i - 1 = r by omega]
          exact hmid.2
      rw [moveBy, if_neg (by omega), if_pos (by omega), if_neg (by omega)]
  obtain ⟨i, hi, hlo, hhi⟩ := search_spec hg
  rw [hi, le_antisymm hhi hlo]

end Tests

/-! ## The first slots of a row -/

variable {bs1 bs2 : List SlotBlock} {x : Int} {i : Nat} {b : SlotBlock}

theorem startAt_append_left (h : ∀ b ∈ bs1, b.startslot < x) (hi : i < bs1.length) :
    startAt (bs1 ++ bs2) i < x := by
  rw [startAt, getElem?_append_left hi, getElem?_eq_getElem hi]
  exact h _ (getElem_mem hi)

theorem startAt_append_right (h : ∀ b ∈ bs2, x < b.startslot) (h1 : bs1.length ≤ i)
    (h2 : i < (bs1 ++ bs2).length) : x < startAt (bs1 ++ bs2) i := by
  have hi : i - bs1.length < bs2.length := by
    rw [length_append] at h2
    omega
  rw [startAt, getElem?_append_right h1, getElem?_eq_getElem hi]
  exact h _ (getElem_mem hi)

theorem startAt_append_cons (h : ∀ b' ∈ bs2, x < b'.startslot) (h1 : bs1.length < i)
    (h2 : i < (bs1 ++ b :: bs2).length) : x < startAt (bs1 ++ b :: bs2) i := by
  rw [append_cons] at h2 ⊢
  refine startAt_append_right h ?_ h2
  rw [length_append]
  exact h1

theorem startAt_middle (b : SlotBlock) : startAt (bs1 ++ b :: bs2) bs1.length = b.startslot := by
  simp [startAt]

/-- The search for a first slot that is in the row ends at its block. -/
theorem deleteIndex_found
    (h1 : ∀ b' ∈ bs1, b'.startslot < b.startslot) (h2 : ∀ b' ∈ bs2, b.startslot < b'.startslot) :
    deleteIndex (bs1 ++ b :: bs2) b.startslot = some bs1.length := by
  rw [deleteIndex, deleteMove_eq]
  refine search_found (by simp) ?_ ?_ ?_
  · intro i hi
    exact ⟨startAt_append_left h1 hi, startAt_append_left h1 hi⟩
  · rw [startAt_middle]
    exact ⟨le_rfl, le_rfl⟩
  · intro i hi hlt
    exact ⟨startAt_append_cons h2 hi hlt, startAt_append_cons h2 hi hlt⟩

section Miss

variable (hne : bs1 ++ bs2 ≠ []) (h1 : ∀ b ∈ bs1, b.startslot < x) (h2 : ∀ b ∈ bs2, x < b.startslot)

include h1 h2

theorem startAt_ne (hi : i < (bs1 ++ bs2).length) : x ≠ startAt (bs1 ++ bs2) i := by
  rcases lt_or_ge i bs1.length with hir | hir
  · exact (startAt_append_left h1 hir).ne'
  · exact (startAt_append_right h2 hir hi).ne

include hne

theorem guides_deleteMove : Guides (deleteMove (bs1 ++ bs2) x) (bs1 ++ bs2).length
    (bs1.length - 1) (min bs1.length ((bs1 ++ bs2).length - 1)) := by
  rw [deleteMove_eq]
  refine guides_miss (length_pos_iff.2 hne) (by simp) ?_ ?_
  · intro i hi
    exact ⟨startAt_append_left h1 hi, startAt_append_left h1 hi⟩
  · intro i hi hlt
    exact ⟨startAt_append_right h2 hi hlt, startAt_append_right h2 hi hlt⟩

/-- The search for a first slot that is not in the row ends on either side of its place. -/
theorem deleteIndex_miss : ∃ i, deleteIndex (bs1 ++ bs2) x = some i ∧ i < (bs1 ++ bs2).length ∧
      (i + 1 = bs1.length ∧ startAt (bs1 ++ bs2) i < x ∨
        i = bs1.length ∧ x < startAt (bs1 ++ bs2) i) := by
  obtain ⟨i, hi, hlo, hhi⟩ := search_spec (guides_deleteMove hne h1 h2)
  have hlen : 0 < (bs1 ++ bs2).length := length_pos_iff.2 hne
  refine ⟨i, hi, by omega, ?_⟩
  rcases lt_or_ge i bs1.length with hir | hir
  · exact .inl ⟨by omega, startAt_append_left h1 hir⟩
  · exact .inr ⟨by omega, startAt_append_right h2 hir (by omega)⟩

/-- A new block goes between the blocks below and the blocks above it. -/
theorem insertIndex_spec : insertIndex (bs1 ++ bs2) x = some bs1.length := by
  have hmove : ∀ i, i < (bs1 ++ bs2).length →
      insertMove (bs1 ++ bs2) x i = deleteMove (bs1 ++ bs2) x i := by
    intro i hi
    rw [deleteMove, if_neg (startAt_ne h1 h2 hi), insertMove]
  obtain ⟨i, hi, hlo, hhi⟩ := search_spec ((guides_deleteMove hne h1 h2).congr hmove)
  have hlen : 0 < (bs1 ++ bs2).length := length_pos_iff.2 hne
  rw [insertIndex, hi, Option.map_some, Option.some.injEq]
  rcases lt_or_ge i bs1.length with hir | hir
  · have hlow : startAt (bs1 ++ bs2) i < x := startAt_append_left h1 hir
    rw [if_neg (by omega)]
    omega
  · rw [if_pos (startAt_append_right h2 hir (by omega))]
    omega

end Miss

/-! ## The search for a slot -/

theorem endAt_middle (b : SlotBlock) :
    endAt (bs1 ++ b :: bs2) bs1.length = b.startslot + b.nslots - 1 := by
  simp [endAt]

theorem endAt_append_left (h : ∀ b ∈ bs1, b.startslot + b.nslots ≤ x) (hi : i < bs1.length) :
    endAt (bs1 ++ bs2) i < x := by
  rw [endAt, getElem?_append_left hi, getElem?_eq_getElem hi]
  have := h _ (getElem_mem hi)
  show bs1[i].startslot + bs1[i].nslots - 1 < x
  omega

/-- A block of at least one slot ends where it starts, or later. -/
theorem startAt_le_endAt {bs : List SlotBlock} (h : ∀ b ∈ bs, 1 ≤ b.nslots)
    (hi : i < bs.length) : startAt bs i ≤ endAt bs i := by
  rw [startAt, endAt, getElem?_eq_getElem hi]
  have := h _ (getElem_mem hi)
  show bs[i].startslot ≤ bs[i].startslot + bs[i].nslots - 1
  omega

section Find

variable (hpos : ∀ b ∈ bs1 ++ bs2, 1 ≤ b.nslots) (h1 : ∀ b ∈ bs1, b.startslot + b.nslots ≤ x)

include hpos h1

/-- A block that ends below the slot starts below it. -/
theorem endpoints_lt (hi : i < bs1.length) : startAt (bs1 ++ bs2) i < x ∧
    endAt (bs1 ++ bs2) i < x := by
  have hlt : i < (bs1 ++ bs2).length := by
    rw [length_append]
    omega
  have hend : endAt (bs1 ++ bs2) i < x := endAt_append_left h1 hi
  exact ⟨(startAt_le_endAt hpos hlt).trans_lt hend, hend⟩

/-- The search for a slot that no block of the row contains ends on either side of its place. -/
theorem findIndex_miss (hne : bs1 ++ bs2 ≠ []) (h2 : ∀ b ∈ bs2, x < b.startslot) :
    ∃ i, findIndex (bs1 ++ bs2) x = some i ∧ i < (bs1 ++ bs2).length ∧
      (i + 1 = bs1.length ∧ startAt (bs1 ++ bs2) i < x ∧ endAt (bs1 ++ bs2) i < x ∨
        i = bs1.length ∧ x < startAt (bs1 ++ bs2) i) := by
  have hlen : 0 < (bs1 ++ bs2).length := length_pos_iff.2 hne
  have hguides : Guides (findMove (bs1 ++ bs2) x) (bs1 ++ bs2).length
      (bs1.length - 1) (min bs1.length ((bs1 ++ bs2).length - 1)) := by
    refine guides_miss hlen (by simp) (fun i => endpoints_lt hpos h1) ?_
    intro i hi hlt
    have hstart := startAt_append_right h2 hi hlt
    exact ⟨hstart, hstart.trans_le (startAt_le_endAt hpos hlt)⟩
  obtain ⟨i, hi, hlo, hhi⟩ := search_spec hguides
  refine ⟨i, hi, by omega, ?_⟩
  rcases lt_or_ge i bs1.length with hir | hir
  · exact .inl ⟨by omega, endpoints_lt hpos h1 hir⟩
  · exact .inr ⟨by omega, startAt_append_right h2 hir (by omega)⟩

end Find

/-- The search for a slot that a block of the row contains ends at that block. -/
theorem findIndex_found (hpos : ∀ b' ∈ bs1 ++ b :: bs2, 1 ≤ b'.nslots)
    (h1 : ∀ b' ∈ bs1, b'.startslot + b'.nslots ≤ x) (h2 : ∀ b' ∈ bs2, x < b'.startslot)
    (hs : b.startslot ≤ x) (he : x < b.startslot + b.nslots) :
    findIndex (bs1 ++ b :: bs2) x = some bs1.length := by
  refine search_found (by simp) (fun i => endpoints_lt hpos h1) ?_ ?_
  · rw [startAt_middle, endAt_middle]
    omega
  · intro i hi hlt
    have hstart := startAt_append_cons h2 hi hlt
    exact ⟨hstart, hstart.trans_le (startAt_le_endAt hpos hlt)⟩

end CharmRuntime.Isomalloc
