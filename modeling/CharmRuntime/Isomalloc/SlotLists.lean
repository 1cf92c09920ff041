import Mathlib.Algebra.Group.Nat.Defs
import Mathlib.Data.Nat.Log
import CharmRuntime.Lib.BinarySearch
import CharmRuntime.Lib.BTree
import CharmRuntime.Lib.LinkedList
import Mathlib.Algebra.Group.Int.Defs

/-!
# The binned lists of slot blocks

A `slotset` keeps its free blocks twice: in a B-tree ordered by the first slot, and in an array of
doubly linked lists, where bin `b` holds the blocks of `2 ^ (b - 1) + 1` to `2 ^ b` slots. A list
node (`dllnode`) points to the cell of the tree that holds its block, and the block points back to
its list node.

The memory of the list nodes is given field by field: `previous`, `next` and `sb` of every address,
with `0` for `NULL`. A cell of the tree is addressed by the address of its node and the index in
`blocks`. `malloc` returns the addresses one after the other.

`find_list_bin` searches the bin by halving steps, and returns `Nat.clog 2 nslots` for every size up
to `2 ^ 62` (`findListBin_eq`). `Heap.Binned h P` says that the lists hold exactly the list nodes
`x` with `P x b`, each in its bin `b`.
-/

set_option autoImplicit false

namespace CharmRuntime.Isomalloc

open Lib Function
open LinkedList (pushPrev unlinkPrev unlinkNext unlinkHead Family)

/-- `&(node->blocks[i])`: the address of the node and the index. -/
abbrev Ptr := Nat × Nat

/-- `slotblock`. -/
structure SlotBlock where
  startslot : Int
  nslots : Int
  listblock : Nat
  deriving DecidableEq

/-- A node of the B-tree. -/
abbrev BTreeNode := BTree SlotBlock

/-- `list_array`, the fields of the list nodes, and the next address that `malloc` returns. -/
structure Heap where
  listArray : Nat → Nat
  previous : Nat → Nat
  next : Nat → Nat
  sb : Nat → Ptr
  fresh : Nat

/-- `LIST_ARRAY_SIZE`. -/
def listArraySize : Nat := 64

/-- The loop of `find_list_bin`; `fuel` bounds the number of iterations. -/
def findListBinLoop (nslots : Int) : Nat → Nat → Nat → Nat → Option Nat
  | 0, _, _, _ => none
  | fuel + 1, listBin, compNum, inc =>
    if nslots > ((compNum >>> 1 : Nat) : Int) ∧ nslots ≤ (compNum : Int) then some listBin
    else if nslots < (compNum : Int) then
      findListBinLoop nslots fuel (listBin - inc) (compNum >>> inc) (BinarySearch.halve inc)
    else
      findListBinLoop nslots fuel (listBin + inc) (compNum <<< inc) (BinarySearch.halve inc)

/-- `find_list_bin`. -/
def findListBin (nslots : Int) : Option Nat :=
  findListBinLoop nslots (2 * listArraySize) 32 0x100000000 16

/-- `list_insert`: the address of the new list node. -/
def listInsert (h : Heap) (sb : Ptr) (nslots : Int) : Option (Heap × Nat) :=
  (findListBin nslots).map fun listBin =>
    let x := h.fresh
    let head := h.listArray listBin
    ({ listArray := update h.listArray listBin x
       previous := pushPrev h.previous head x
       next := update h.next x head
       sb := update h.sb x sb
       fresh := h.fresh + 1 }, x)

/-- `list_delete`. -/
def listDelete (h : Heap) (b : SlotBlock) : Option Heap :=
  let x := b.listblock
  let h' := { h with
    previous := unlinkPrev h.previous h.next x
    next := unlinkNext h.previous h.next x }
  if h.previous x ≠ 0 then some h'
  else (findListBin b.nslots).map fun listBin =>
    { h' with listArray := update h.listArray listBin (h.next x) }

/-- The part of `list_move` that takes the list node out of its old bin and inserts it at the
beginning of the new one. -/
def Heap.relink (h : Heap) (x oldBin newBin : Nat) : Heap :=
  let previous := unlinkPrev h.previous h.next x
  let next := unlinkNext h.previous h.next x
  let listArray := update h.listArray oldBin
    (unlinkHead h.previous h.next (h.listArray oldBin) x)
  { h with
    previous := pushPrev previous (listArray newBin) x
    next := update next x (listArray newBin)
    listArray := update listArray newBin x }

/-! ## The bin of a size -/

/-- The bin of a size. -/
def listBin (nslots : Int) : Nat := Nat.clog 2 nslots.toNat

/-- The direction of the search for the bin. -/
def binMove (nslots : Int) (bin : Nat) : BinarySearch.Move :=
  if nslots > ((2 ^ bin >>> 1 : Nat) : Int) ∧ nslots ≤ ((2 ^ bin : Nat) : Int) then .here
  else if nslots < ((2 ^ bin : Nat) : Int) then .left
  else .right

theorem half_pow_succ (bin : Nat) : 2 ^ (bin + 1) >>> 1 = 2 ^ bin := by
  rw [Nat.shiftRight_eq_div_pow, Nat.pow_one, pow_succ, Nat.mul_div_cancel _ (by decide)]

/-- The search is led to the bin of the size. -/
theorem guides_binMove {n : Nat} (h1 : 1 ≤ n) (h2 : n ≤ 2 ^ 62) :
    BinarySearch.Guides (binMove n) 63 (Nat.clog 2 n) (Nat.clog 2 n) := by
  have hle : n ≤ 2 ^ Nat.clog 2 n := Nat.le_pow_clog (by decide) n
  refine ⟨le_rfl, ?_, ?_, ?_, ?_⟩
  · exact Nat.lt_succ_of_le (Nat.clog_le_of_le_pow h2)
  · intro i hlo hhi
    have hi : i = Nat.clog 2 n := le_antisymm hhi hlo
    subst hi
    rw [binMove, if_pos]
    refine ⟨?_, by exact_mod_cast hle⟩
    cases hc : Nat.clog 2 n with
    | zero =>
      exact_mod_cast h1
    | succ k =>
      rw [half_pow_succ]
      have : 2 ^ k < n := Nat.pow_lt_of_lt_clog (by omega)
      exact_mod_cast this
  · intro i hi
    have hlt : 2 ^ i < n := Nat.pow_lt_of_lt_clog hi
    rw [binMove, if_neg, if_neg]
    · exact_mod_cast Nat.not_lt.2 hlt.le
    · rintro ⟨-, hn⟩
      exact absurd (by exact_mod_cast hn) (Nat.not_le.2 hlt)
  · intro i hi _
    obtain ⟨k, rfl⟩ : ∃ k, i = k + 1 := ⟨i - 1, by omega⟩
    have hk : n ≤ 2 ^ k := hle.trans (Nat.pow_le_pow_right (by decide) (by omega))
    rw [binMove, if_neg, if_pos]
    · have : n < 2 ^ (k + 1) := lt_of_le_of_lt hk (Nat.pow_lt_pow_right (by decide) (by omega))
      exact_mod_cast this
    · rintro ⟨hn, -⟩
      rw [half_pow_succ] at hn
      exact absurd (by exact_mod_cast hn) (Nat.not_lt.2 hk)

/-- The shifted number is the bound of the current bin. -/
theorem findListBinLoop_eq {n : Nat} (h1 : 1 ≤ n) (h2 : n ≤ 2 ^ 62) :
    ∀ fuel bin inc, BinarySearch.Room 63 bin inc →
      findListBinLoop n fuel bin (2 ^ bin) inc = BinarySearch.loop (binMove n) fuel bin inc := by
  intro fuel
  induction fuel with
  | zero => exact fun _ _ _ => rfl
  | succ fuel ih =>
    intro bin inc hroom
    have hbin := hroom.1
    rw [findListBinLoop, BinarySearch.loop, binMove]
    by_cases hhere : (n : Int) > ((2 ^ bin >>> 1 : Nat) : Int) ∧ (n : Int) ≤ ((2 ^ bin : Nat) : Int)
    · rw [if_pos hhere, if_pos hhere]
    · rw [if_neg hhere, if_neg hhere]
      by_cases hleft : (n : Int) < ((2 ^ bin : Nat) : Int)
      · rw [if_pos hleft, if_pos hleft]
        have hb0 : bin ≠ 0 := by
          rintro rfl
          omega
        have hinc : inc ≤ bin := by
          rcases lt_or_ge inc 2 with h | h
          · omega
          · have := hroom.2 h
            omega
        rw [Nat.shiftRight_eq_div_pow, Nat.pow_div hinc (by decide)]
        exact ih _ _ hroom.left
      · rw [if_neg hleft, if_neg hleft]
        have hgt : 2 ^ bin < 2 ^ 62 := by
          omega
        have hlt : bin < 62 := (Nat.pow_lt_pow_iff_right (by decide)).1 hgt
        rw [Nat.shiftLeft_eq, ← Nat.pow_add]
        exact ih _ _ (hroom.right (by omega))

/-- `find_list_bin` returns the bin for every size up to `2 ^ 62`. -/
theorem findListBin_eq {nslots : Int} (h1 : 1 ≤ nslots) (h2 : nslots ≤ 2 ^ 62) :
    findListBin nslots = some (listBin nslots) := by
  obtain ⟨n, rfl⟩ := Int.eq_ofNat_of_zero_le (by omega : 0 ≤ nslots)
  have hn1 : 1 ≤ n := by exact_mod_cast h1
  have hn2 : n ≤ 2 ^ 62 := by exact_mod_cast h2
  have hroom : BinarySearch.Room 63 32 16 := ⟨by decide, fun _ => by decide⟩
  obtain ⟨i, hi, hlo, hhi⟩ := BinarySearch.loop_spec (guides_binMove hn1 hn2) (2 * listArraySize) 32
    16 hroom (.inl (by decide))
  have heq := findListBinLoop_eq hn1 hn2 (2 * listArraySize) 32 16 hroom
  rw [hi] at heq
  rw [listBin, Int.toNat_natCast, le_antisymm hlo hhi]
  exact heq

/-! ## The lists -/

/-- Bin `b` holds exactly the list nodes `x` with `P x b`. -/
def Heap.Binned (h : Heap) (P : Nat → Nat → Prop) : Prop :=
  Family h.listArray h.previous h.next P

section Lists

variable {h : Heap} {P : Nat → Nat → Prop}

section Binned

variable (hb : h.Binned P) (hfun : ∀ x b b', P x b → P x b' → b = b')

include hb hfun

/-- `list_insert` adds one list node to the bin of its block. -/
theorem listInsert_spec (h0 : h.fresh ≠ 0) (hx : ∀ b, ¬ P h.fresh b) (sb : Ptr) {nslots : Int}
    (h1 : 1 ≤ nslots) (h2 : nslots ≤ 2 ^ 62) : ∃ h', listInsert h sb nslots = some (h', h.fresh) ∧
      h'.Binned (fun x b => P x b ∨ (x = h.fresh ∧ b = listBin nslots)) ∧
      h'.sb = update h.sb h.fresh sb ∧ h'.fresh = h.fresh + 1 := by
  rw [listInsert, findListBin_eq h1 h2, Option.map_some]
  exact ⟨_, rfl, LinkedList.Family.push hb hfun h0 hx (listBin nslots), rfl, rfl⟩

/-- `list_delete` removes the list node of its block. -/
theorem listDelete_spec {d : SlotBlock} (hd : P d.listblock (listBin d.nslots)) (h1 : 1 ≤ d.nslots)
    (h2 : d.nslots ≤ 2 ^ 62) :
    ∃ h', listDelete h d = some h' ∧ h'.Binned (fun x b => P x b ∧ x ≠ d.listblock) ∧
      h'.sb = h.sb ∧ h'.fresh = h.fresh := by
  have hun := LinkedList.Family.unlink hb hfun hd
  rw [listDelete, findListBin_eq h1 h2]
  by_cases hp : h.previous d.listblock ≠ 0
  · refine ⟨_, if_pos hp, ?_, rfl, rfl⟩
    rw [unlinkHead, if_pos hp, update_eq_self] at hun
    exact hun
  · refine ⟨_, if_neg hp, ?_, rfl, rfl⟩
    rw [unlinkHead, if_neg hp] at hun
    exact hun

/-- `list_move` moves the list node of a block to another bin. -/
theorem relink_spec {x oldBin : Nat} (hx : P x oldBin) (h0 : x ≠ 0) (newBin : Nat) :
    (h.relink x oldBin newBin).Binned (fun y b => (P y b ∧ y ≠ x) ∨ (y = x ∧ b = newBin)) := by
  have hun := LinkedList.Family.unlink hb hfun hx
  exact hun.push (fun y b b' hy hy' => hfun y b b' hy.1 hy'.1) h0 (fun b hy => hy.2 rfl) newBin

end Binned

end Lists

end CharmRuntime.Isomalloc
