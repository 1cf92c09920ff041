import Mathlib.Data.List.Range
import Mathlib.Algebra.Order.Ring.Int

/-!
# Allocation from a memory pool

A pool is a list of blocks, each cut into slots whose sizes are the cut-off points. `mempool_malloc`
takes a free slot of the smallest power that is large enough, or cuts a larger one; if no block has
one, it gets another block from the allocator. It holds `mempoolLock` from its start and gives the
lock back only where it returns a slot, so the pool stays usable after the calls that find a slot
and after no others (`mempoolMalloc_usable_iff`).
-/

set_option autoImplicit false

namespace CharmRuntime.Mempool

open Function List

/-! ## Slots and blocks -/

def cutOffNum : Nat := 25

/-- `cutOffPoints`, at the indices below `cutOffNum`. -/
def cutOffPoints (i : Nat) : Nat := 64 * 2 ^ i

/-- `which_pow2`. -/
def whichPow2 (size : Nat) : Nat :=
  ((range cutOffNum).find? fun i => size ≤ cutOffPoints i).getD cutOffNum

/-- `slot_header`, with its offset in the pool. `size` is the index of a cut-off point. -/
structure Slot where
  loc : Nat
  size : Nat
  free : Bool
  deriving DecidableEq, Repr

/-- `block_header`. The slots are in the order of `gnext`, a free list in the order of `next`. -/
structure Block where
  loc : Nat
  size : Nat
  used : Nat
  slots : List Slot
  freelists : Nat → List Nat

/-- `mempool_type`; `block_head` is the first of the blocks and `block_tail` the last. -/
structure Pool where
  blocks : List Block
  size : Nat
  limit : Nat
  mempoolLock : Bool

/-- `sizeof(used_header)` and `sizeof(block_header)`. -/
structure Sizes where
  usedHeader : Nat
  blockHeader : Nat

/-- The loops of `fillblock`: from power `i - 1` down, a slot for each cut-off point that fits. -/
def carve : (i loc left : Nat) → List Slot
  | 0, _, _ => []
  | i + 1, loc, left =>
    if cutOffPoints i ≤ left then
      ⟨loc, i, true⟩ :: carve i (loc + cutOffPoints i) (left - cutOffPoints i)
    else carve i loc left

/-- The offsets of the slots of one power. -/
def offsets (slots : List Slot) (i : Nat) : List Nat :=
  (slots.filter fun s => s.size = i).map Slot.loc

/-- `fillblock`. With no room for a slot it writes through an uninitialised pointer, and with more
than the last cut-off point it reads beyond the table. -/
def fillblock (sizes : Sizes) (loc size : Nat) : Option Block :=
  let left := size - sizes.blockHeader
  let power := whichPow2 left
  if power = cutOffNum ∨ left < cutOffPoints 0 then none
  else
    let power := if left < cutOffPoints power then power - 1 else power
    let slots := carve (power + 1) (loc + sizes.blockHeader) left
    some ⟨loc, size, 0, slots, offsets slots⟩

/-- The free slots of the powers `i`, `i + 1`, ... one behind the other. -/
def ascend : (n i loc : Nat) → List Slot
  | 0, _, _ => []
  | n + 1, i, loc => ⟨loc, i, true⟩ :: ascend n (i + 1) (loc + cutOffPoints i)

/-- The slot at `loc` of power `powiter` is broken into two of the power that is needed and one of
each between them. -/
def Block.split (b : Block) (power powiter loc : Nat) (rest : List Nat) : Block :=
  let pieces := ⟨loc, power, true⟩ :: ascend (powiter - power) power (loc + cutOffPoints power)
  { b with
    slots := b.slots.flatMap fun s => if s.loc = loc then pieces else [s]
    freelists := fun i =>
      if i = powiter then rest
      else if power ≤ i ∧ i < powiter then offsets pieces i
      else b.freelists i }

/-- `checkblock`; `none` is the answer 0. -/
def checkblock (b : Block) (power : Nat) : Option Block :=
  match (range' power (cutOffNum - power)).find? fun i => b.freelists i ≠ [] with
  | none => none
  | some powiter =>
    if powiter = power then some b
    else
      match b.freelists powiter with
      | [] => none
      | loc :: rest => some (b.split power powiter loc rest)

/-- The first slot of the free list is given out. -/
def Block.take (b : Block) (power : Nat) : Option (Nat × Block) :=
  match b.freelists power with
  | [] => none
  | loc :: rest => some (loc, { b with
      used := b.used + power
      slots := b.slots.map fun s => if s.loc = loc then { s with free := false } else s
      freelists := update b.freelists power rest })

/-- The search of `mempool_malloc` through the blocks, and what it does with the slot it has
found. -/
def search (power : Nat) : List Block → Option (Nat × List Block)
  | [] => none
  | b :: bs =>
    match (checkblock b power).bind (·.take power) with
    | some (loc, b') => some (loc, b' :: bs)
    | none => (search power bs).map fun r => (r.1, b :: r.2)

/-- The loop of `removeblocks`, over the blocks after the first one. -/
def removeUnused (limit : Nat) : Nat → List Block → Nat × List Block
  | size, [] => (size, [])
  | size, b :: bs =>
    if b.used = 0 then
      if size - b.size < limit then (size - b.size, bs) else removeUnused limit (size - b.size) bs
    else
      let r := removeUnused limit size bs
      (r.1, b :: r.2)

/-- `removeblocks`. -/
def removeblocks (pool : Pool) : Pool :=
  let r := removeUnused pool.limit pool.size (pool.blocks.drop 1)
  { pool with size := r.1, blocks := pool.blocks.take 1 ++ r.2 }

/-- The power of the slot that a request needs; the sum is one of `size_t`. -/
def requestPower (sizes : Sizes) (size : Nat) : Nat :=
  whichPow2 ((size + sizes.usedHeader) % 2 ^ 64)

/-- `mempool_malloc`, with the offset of the memory that is returned. `alloc` is the answer of
`newblockfn`. The call does not return if the lock is held, if it aborts, or if `fillblock`
fails. -/
def mempoolMalloc (sizes : Sizes) (alloc : Nat → Option (Nat × Nat)) (pool : Pool) (size : Nat)
    (expand : Bool) : Option (Option Nat × Pool) :=
  if pool.mempoolLock then none
  else
    let pool := { pool with mempoolLock := true }
    let power := requestPower sizes size
    if power = cutOffNum then none
    else
      match search power pool.blocks with
      | some (loc, blocks) =>
        some (some (loc + sizes.usedHeader), { pool with blocks := blocks, mempoolLock := false })
      | none =>
        if expand then
          let pool := if pool.size > pool.limit ∧ pool.limit > 0 then removeblocks pool else pool
          match alloc (2 * cutOffPoints power + sizes.blockHeader) with
          | none => some (none, pool)
          | some (at_, size) =>
            (fillblock sizes at_ size).map fun b =>
              let pool := { pool with size := pool.size + size }
              match search power [b] with
              | some (loc, bs) =>
                (some (loc + sizes.usedHeader),
                  { pool with blocks := pool.blocks ++ bs, mempoolLock := false })
              | none => (none, { pool with blocks := pool.blocks ++ [b] })
        else some (none, pool)

/-! ## Where a slot is found -/

/-- A free slot of at least this power. -/
def Block.Offers (b : Block) (power : Nat) : Prop :=
  ∃ i, power ≤ i ∧ i < cutOffNum ∧ b.freelists i ≠ []

theorem take_eq_none_iff {b : Block} {power : Nat} : b.take power = none ↔
    b.freelists power = [] := by
  unfold Block.take
  split <;> simp_all

/-- The slot that is broken leaves one of the power that was asked for. -/
theorem take_split (b : Block) {power powiter : Nat} (hlt : power < powiter) (loc : Nat)
    (rest : List Nat) : (b.split power powiter loc rest).take power ≠ none := by
  rw [Ne, take_eq_none_iff]
  simp [Block.split, hlt, hlt.ne, offsets]

theorem checkblock_take_eq_none_iff {b : Block} {power : Nat} :
    (checkblock b power).bind (·.take power) = none ↔ ¬b.Offers power := by
  unfold checkblock
  split
  case h_1 hfind =>
    simp only [Option.bind_none, true_iff]
    rintro ⟨i, hle, hlt, hne⟩
    have hempty := find?_eq_none.1 hfind i (mem_range'_1.2 ⟨hle, by omega⟩)
    exact hempty (by simpa using hne)
  case h_2 powiter hfind =>
    have hne : b.freelists powiter ≠ [] := by simpa using find?_some hfind
    have hmem := mem_range'_1.1 (mem_of_find?_eq_some hfind)
    have hoffers : b.Offers power := ⟨powiter, hmem.1, by omega, hne⟩
    simp only [hoffers, not_true_eq_false, iff_false]
    split
    case isTrue heq =>
      rw [Option.bind_some, take_eq_none_iff, ← heq]
      exact hne
    case isFalse hpower =>
      cases hlist : b.freelists powiter with
      | nil => exact absurd hlist hne
      | cons loc rest => exact take_split b (lt_of_le_of_ne hmem.1 (Ne.symm hpower)) loc rest

theorem search_eq_none_iff {power : Nat} {bs : List Block} :
    search power bs = none ↔ ∀ b ∈ bs, ¬b.Offers power := by
  induction bs with
  | nil => simp [search]
  | cons b bs ih =>
    rw [search, forall_mem_cons, ← checkblock_take_eq_none_iff]
    split
    case h_1 hsome => simp [hsome]
    case h_2 hnone => simp [hnone, ih]

theorem exists_offers_of_search {power : Nat} {bs : List Block} {r : Nat × List Block}
    (h : search power bs = some r) : ∃ b ∈ bs, b.Offers power := by
  by_contra hno
  rw [search_eq_none_iff.2 fun b hb hoffer => hno ⟨b, hb, hoffer⟩] at h
  cases h

/-! ## New blocks -/

/-- The first cut-off point that is large enough. -/
theorem whichPow2_spec {size : Nat} (h : whichPow2 size ≠ cutOffNum) :
    whichPow2 size < cutOffNum ∧ size ≤ cutOffPoints (whichPow2 size) ∧
      ∀ i < whichPow2 size, cutOffPoints i < size := by
  unfold whichPow2 at h ⊢
  cases hfind : (range cutOffNum).find? fun i => size ≤ cutOffPoints i with
  | none => exact absurd (by rw [hfind, Option.getD_none]) h
  | some i =>
    obtain ⟨hle, hi, hbefore⟩ := find?_range_eq_some.1 hfind
    refine ⟨mem_range.1 hi, of_decide_eq_true hle, ?_⟩
    intro j hj
    simpa using hbefore j hj

theorem cutOffPoints_le_iff {i j : Nat} : cutOffPoints i ≤ cutOffPoints j ↔ i ≤ j := by
  rw [cutOffPoints, cutOffPoints, Nat.mul_le_mul_left_iff (by decide),
    Nat.pow_le_pow_iff_right (by decide)]

theorem size_lt_of_mem_carve {i loc left : Nat} {s : Slot} (h : s ∈ carve i loc left) :
    s.size < i := by
  induction i generalizing loc left with
  | zero => cases h
  | succ i ih =>
    rw [carve] at h
    split at h
    · rcases mem_cons.1 h with rfl | h
      · exact Nat.lt_succ_self i
      · exact Nat.lt_succ_of_lt (ih h)
    · exact Nat.lt_succ_of_lt (ih h)

theorem offsets_ne_nil_iff {slots : List Slot} {i : Nat} : offsets slots i ≠ [] ↔ ∃ s ∈ slots,
    s.size = i := by
  simp [offsets, filter_eq_nil_iff]

/-- A new block offers what is not larger than its usable part. -/
theorem fillblock_offers {sizes : Sizes} {loc size : Nat} {b : Block}
    (h : fillblock sizes loc size = some b) (power : Nat) :
    b.Offers power ↔ cutOffPoints power ≤ size - sizes.blockHeader := by
  unfold fillblock at h
  dsimp only at h
  generalize size - sizes.blockHeader = left at h ⊢
  split at h
  · cases h
  · rename_i hroom
    rw [not_or, not_lt] at hroom
    obtain ⟨hlt, hle, hbefore⟩ := whichPow2_spec hroom.1
    generalize whichPow2 left = w at h hlt hle hbefore
    -- The largest power that fits, of which `carve` makes the first slot.
    obtain ⟨top, htop, hfits, hmax⟩ : ∃ top, (if left < cutOffPoints w then w - 1 else w) = top ∧
        cutOffPoints top ≤ left ∧ top < cutOffNum ∧ left < cutOffPoints (top + 1) := by
      split
      case isTrue hsmall =>
        have hw : w ≠ 0 := by
          rintro rfl
          exact absurd hsmall (not_lt.2 hroom.2)
        refine ⟨w - 1, rfl, (hbefore (w - 1) (by omega)).le, by omega, ?_⟩
        rwa [Nat.sub_add_cancel (Nat.pos_of_ne_zero hw)]
      case isFalse hlarge =>
        refine ⟨w, rfl, not_lt.1 hlarge, hlt, hle.trans_lt ?_⟩
        exact lt_of_not_ge (mt cutOffPoints_le_iff.1 (by omega))
    rw [htop] at h
    cases h
    constructor
    · rintro ⟨i, hi, -, hne⟩
      obtain ⟨s, hs, rfl⟩ := offsets_ne_nil_iff.1 hne
      have hs' := size_lt_of_mem_carve hs
      exact (cutOffPoints_le_iff.2 (by omega)).trans hfits
    · intro hpower
      have hlt' : power < top + 1 := by
        by_contra hge
        exact absurd (hpower.trans_lt hmax.2) (not_lt.2 (cutOffPoints_le_iff.2 (not_lt.1 hge)))
      refine ⟨top, by
        omega, hmax.1, offsets_ne_nil_iff.2 ⟨⟨loc + sizes.blockHeader, top, true⟩, ?_, rfl⟩⟩
      rw [carve, if_pos hfits]
      exact mem_cons_self

/-! ## The lock -/

/-- The offsets of the live allocations. -/
def Pool.live (pool : Pool) : List Nat :=
  pool.blocks.flatMap fun b => (b.slots.filter fun s => !s.free).map Slot.loc

/-- The bytes on the free lists of a block. -/
def Block.available (b : Block) : Nat :=
  ((range cutOffNum).map fun i => (b.freelists i).length * cutOffPoints i).sum

/-- The lock is free, and a call that returns `NULL` has changed neither the live allocations nor
what is available in a block of the pool. -/
def Usable (pool : Pool) (ptr : Option Nat) (pool' : Pool) : Prop :=
  pool'.mempoolLock = false ∧
    (ptr = none → (∀ loc, loc ∈ pool'.live ↔ loc ∈ pool.live) ∧
      ∀ b ∈ pool.blocks, ∀ b' ∈ pool'.blocks, b'.loc = b.loc → b'.available = b.available)

/-- A block of the pool offers a slot, or the allocator's new block does; or the call does not
return. -/
def Answered (sizes : Sizes) (alloc : Nat → Option (Nat × Nat)) (pool : Pool) (size : Nat)
    (expand : Bool) : Prop :=
  let power := requestPower sizes size
  pool.mempoolLock = true ∨ power = cutOffNum ∨ (∃ b ∈ pool.blocks, b.Offers power) ∨
    expand = true ∧ ∃ new, alloc (2 * cutOffPoints power + sizes.blockHeader) = some new ∧
      (fillblock sizes new.1 new.2 = none ∨ cutOffPoints power ≤ new.2 - sizes.blockHeader)

/-- The pool stays usable exactly if a slot is found or the call does not return. -/
theorem mempoolMalloc_usable_iff (sizes : Sizes) (alloc : Nat → Option (Nat × Nat)) (pool : Pool)
    (size : Nat) (expand : Bool) :
    (∀ ptr pool', mempoolMalloc sizes alloc pool size expand = some (ptr, pool') →
      Usable pool ptr pool') ↔ Answered sizes alloc pool size expand := by
  unfold mempoolMalloc Answered
  by_cases hlock : pool.mempoolLock = true
  · simp [hlock]
  by_cases hpower : requestPower sizes size = cutOffNum
  · simp [hlock, hpower]
  simp only [hlock, hpower, if_false, false_or]
  cases hsearch : search (requestPower sizes size) pool.blocks with
  | some r =>
    have hoffers := exists_offers_of_search hsearch
    simp [hoffers, Usable]
  | none =>
    have hnone : ¬∃ b ∈ pool.blocks, b.Offers (requestPower sizes size) := by
      rintro ⟨b, hb, hoffer⟩
      exact search_eq_none_iff.1 hsearch b hb hoffer
    cases expand with
    | false => simp [hnone, Usable]
    | true =>
      simp only [if_true, hnone, false_or, true_and]
      cases alloc (2 * cutOffPoints (requestPower sizes size) + sizes.blockHeader) with
      | none => simp [Usable, removeblocks, apply_ite Pool.mempoolLock]
      | some answer =>
        cases hfill : fillblock sizes answer.1 answer.2 with
        | none => simp [hfill]
        | some b =>
          have hoffers := fillblock_offers hfill (requestPower sizes size)
          cases hnew : search (requestPower sizes size) [b] with
          | some r =>
            have hfits : b.Offers (requestPower sizes size) := by
              simpa using exists_offers_of_search hnew
            simp [hfill, hnew, Usable, ← hoffers, hfits]
          | none =>
            have hfits : ¬b.Offers (requestPower sizes size) :=
              search_eq_none_iff.1 hnew b mem_cons_self
            simp [hfill, hnew, Usable, removeblocks, apply_ite Pool.mempoolLock, ← hoffers, hfits]

/-- A pool with one slot, which is in use, and a request for 100 bytes that must not expand it:
`NULL` is returned with the lock held. -/
theorem mempoolMalloc_keeps_lock :
    let pool : Pool := ⟨[⟨0, 816, 3, [⟨304, 3, false⟩], fun _ => []⟩], 816, 0, false⟩
    ∃ pool', mempoolMalloc ⟨40, 256⟩ (fun _ => none) pool 100 false = some (none, pool') ∧
      pool'.mempoolLock = true ∧ ¬Usable pool none pool' :=
  ⟨_, rfl, rfl, fun h => nomatch h.1⟩

end CharmRuntime.Mempool
