import CharmRuntime.Isomalloc.TreeDelete
import CharmRuntime.Lib.Intervals

/-!
# Slot sets

A `slotset` is a B-tree of free blocks together with the binned lists of their list nodes.
`grab_slots` takes a range out of the block that contains it, and `free_slots` adds a range to the
blocks beside it or as a new block.

Its purpose is a set of free slots: `grab_slots` removes a range and `free_slots` adds one
(`SlotOp.apply`). `SlotSet.Valid` relates a slot set to the set of its free slots, and says that the
tree is balanced and that the lists agree with it. Every run of legal operations on a new slot set
returns a valid one (`slotset_valid`).
-/

set_option autoImplicit false

namespace CharmRuntime.Isomalloc

open Lib BTree List Option

/-- `slotset`; `list_array` is part of the memory. -/
structure SlotSet where
  btreeRoot : BTreeNode
  heap : Heap

/-- `list_move` of a list node whose block had `oldNslots` slots. -/
def listMove (ss : SlotSet) (dlln : Nat) (oldNslots : Int) : Option SlotSet :=
  (findListBin oldNslots).bind fun oldBin =>
    (ss.btreeRoot.deref (ss.heap.sb dlln)).bind fun sb =>
      (findListBin sb.nslots).map fun newBin =>
        if newBin ≠ oldBin then { ss with heap := ss.heap.relink dlln oldBin newBin } else ss

/-- Change the range of the block at `p` and move its list node to the new bin. -/
def setRange (ss : SlotSet) (p : Ptr) (startslot nslots : Int) : Option SlotSet :=
  (ss.btreeRoot.deref p).bind fun sb =>
    listMove
      { ss with btreeRoot := ss.btreeRoot.modify p fun sb => { sb with startslot, nslots } }
      sb.listblock sb.nslots

/-- `ss->btree_root = btree_insert(ss, ss->btree_root, startslot, nslots)`. -/
def insertBlock (ss : SlotSet) (startslot nslots : Int) : Option SlotSet :=
  (btreeInsert ss.heap ss.btreeRoot startslot nslots).map fun r => ⟨r.2, r.1⟩

/-- `ss->btree_root = btree_delete(ss, ss->btree_root, startslot)`. -/
def deleteBlock (ss : SlotSet) (startslot : Int) : Option SlotSet :=
  (btreeDelete ss.heap ss.btreeRoot startslot).map fun r => ⟨r.2, r.1⟩

/-- `new_slotset`. -/
def newSlotset (startslot nslots : Int) : Option SlotSet :=
  (findListBin nslots).map fun listBin =>
    { btreeRoot := .node 1 [⟨startslot, nslots, 2⟩] []
      heap :=
        { listArray := Function.update (fun _ => 0) listBin 2
          previous := fun _ => 0
          next := fun _ => 0
          sb := fun _ => (1, 0)
          fresh := 3 } }

/-- `grab_slots`; `none` if it aborts. -/
def grabSlots (ss : SlotSet) (sslot nslots : Int) : Option SlotSet :=
  (findBtreeSlotblock ss.btreeRoot sslot).bind fun found =>
    found.bind fun p =>
      (ss.btreeRoot.deref p).bind fun sb =>
        if sb.startslot = sslot then
          if sb.nslots = nslots then deleteBlock ss sslot
          else setRange ss p (sb.startslot + nslots) (sb.nslots - nslots)
        else
          let endslot := sb.startslot + sb.nslots - 1
          if endslot = sslot + nslots - 1 then setRange ss p sb.startslot (sb.nslots - nslots)
          else
            (setRange ss p sb.startslot (sslot - sb.startslot)).bind fun ss =>
              insertBlock ss (sslot + nslots) (endslot - (sslot + nslots) + 1)

/-- `free_slots`. -/
def freeSlots (ss : SlotSet) (sslot nslots : Int) : Option SlotSet :=
  (findBtreeSlotblock ss.btreeRoot (sslot - 1)).bind fun sbLow =>
    (findBtreeSlotblock ss.btreeRoot (sslot + nslots)).bind fun sbHigh =>
      match sbLow, sbHigh with
      | none, none => insertBlock ss sslot nslots
      | none, some high =>
        (ss.btreeRoot.deref high).bind fun sb => setRange ss high sslot (sb.nslots + nslots)
      | some low, none =>
        (ss.btreeRoot.deref low).bind fun sb =>
          setRange ss low sb.startslot (sb.nslots + nslots)
      | some low, some high =>
        (ss.btreeRoot.deref low).bind fun sb =>
          (ss.btreeRoot.deref high).bind fun sb' =>
            (setRange ss low sb.startslot (sb.nslots + nslots + sb'.nslots)).bind fun ss =>
              (ss.btreeRoot.deref high).bind fun sb' => deleteBlock ss sb'.startslot

/-! ## Finding the block of a slot -/

/-- The slot is in the block. -/
abbrev Holds (b : SlotBlock) (x : Int) : Prop :=
  Intervals.Covers SlotBlock.startslot SlotBlock.nslots b x

/-- What the search needs: the blocks are not empty, and each one ends before the next one
starts. -/
structure Spaced (bs : List SlotBlock) : Prop where
  pos : ∀ b ∈ bs, 1 ≤ b.nslots
  gaps : bs.Pairwise fun b b' => b.startslot + b.nslots < b'.startslot

section Find

variable {bs bs' bs1 bs2 : List SlotBlock} {x : Int} {b : SlotBlock} {a : Nat}

theorem Spaced.sublist (h : Spaced bs) (hs : Sublist bs' bs) : Spaced bs' :=
  ⟨fun b hb => h.pos b (hs.subset hb), h.gaps.sublist hs⟩

theorem Spaced.sorted (h : Spaced bs) : Sorted SlotBlock.startslot bs := by
  refine (Pairwise.and_mem.1 h.gaps).imp fun {b b'} hb => ?_
  have := h.pos b hb.1
  omega

theorem Spaced.sorted_end (h : Spaced bs) :
    Sorted (fun b : SlotBlock => b.startslot + b.nslots) bs := by
  refine (Pairwise.and_mem.1 h.gaps).imp fun {b b'} hb => ?_
  have := h.pos b' hb.2.1
  dsimp only
  omega

/-- A block that holds the slot is between blocks that end before and blocks that start after it. -/
theorem Spaced.around (h : Spaced (bs1 ++ b :: bs2)) (hb : Holds b x) :
    (∀ b' ∈ bs1, b'.startslot + b'.nslots ≤ x) ∧ ∀ b' ∈ bs2, x < b'.startslot := by
  have hg := h.gaps
  rw [pairwise_append, pairwise_cons] at hg
  obtain ⟨-, ⟨hr, -⟩, hl⟩ := hg
  constructor
  · intro b' hb'
    have := hl b' hb' b mem_cons_self
    have := hb.1
    omega
  · intro b' hb'
    have := hr b' hb'
    have := hb.2
    omega

/-- A row without a block that holds the slot. -/
theorem Spaced.split (h : Spaced bs) (hb : ∀ b ∈ bs, ¬ Holds b x) :
    ∃ bs1 bs2, bs = bs1 ++ bs2 ∧ (∀ b ∈ bs1, b.startslot + b.nslots ≤ x) ∧
      ∀ b ∈ bs2, x < b.startslot := by
  have hne : ∀ b ∈ bs, b.startslot ≠ x := by
    intro b hmem heq
    have := h.pos b hmem
    exact hb b hmem ⟨by omega, by omega⟩
  refine ⟨_, _, sorted_split h.sorted hne, fun b hmem => ?_, fun b hmem => (mem_upper.1 hmem).2⟩
  obtain ⟨hmem, hlt⟩ := mem_lower.1 hmem
  by_contra hle
  exact hb b hmem ⟨by omega, by omega⟩

theorem findBtreeSlotblock_found (a : Nat) (cs : List BTreeNode)
    (h : Spaced (bs1 ++ b :: bs2)) (hb : Holds b x) (hx : 0 ≤ x) :
    findBtreeSlotblock (.node a (bs1 ++ b :: bs2) cs) x = some (some (a, bs1.length)) := by
  obtain ⟨hl, hr⟩ := h.around hb
  have hmem : (bs1 ++ b :: bs2)[bs1.length]? = some b := by simp
  have h1 := hb.1
  have h2 := hb.2
  rw [findBtreeSlotblock, if_neg (by simp; omega), findIndex_found h.pos hl hr h1 h2,
    bind_some, hmem, bind_some, if_pos (by omega)]

/-- The slot is not in the row: the search goes to one child. -/
theorem findBtreeSlotblock_miss (a : Nat) (cs : List BTreeNode) (h : Spaced (bs1 ++ bs2))
    (hne : bs1 ++ bs2 ≠ []) (hl : ∀ b ∈ bs1, b.startslot + b.nslots ≤ x)
    (hr : ∀ b ∈ bs2, x < b.startslot) (hx : 0 ≤ x) :
    findBtreeSlotblock (.node a (bs1 ++ bs2) cs) x =
      match cs[bs1.length]? with
      | some c => findBtreeSlotblock c x
      | none => some none := by
  obtain ⟨i, hi, hlt, hside⟩ := findIndex_miss h.pos hl hne hr
  have hb : (bs1 ++ bs2)[i]? = some (bs1 ++ bs2)[i] := getElem?_eq_getElem hlt
  have hs : startAt (bs1 ++ bs2) i = (bs1 ++ bs2)[i].startslot := by
    rw [startAt, hb]
    rfl
  have he : endAt (bs1 ++ bs2) i = (bs1 ++ bs2)[i].startslot + (bs1 ++ bs2)[i].nslots - 1 := by
    rw [endAt, hb]
    rfl
  rw [hs, he] at hside
  have htake : takeChild (bs1 ++ bs2)[i] x i = bs1.length := by
    rw [takeChild]
    rcases hside with ⟨hi', hlt', -⟩ | ⟨hi', hlt'⟩
    · rw [if_neg (by omega)]
      omega
    · rw [if_pos hlt', hi']
  have hcond : ¬ (x < 0 ∨ (bs1 ++ bs2).length = 0) := by
    rintro (h | h)
    · omega
    · exact hne (length_eq_zero_iff.1 h)
  rw [findBtreeSlotblock, if_neg hcond, hi, bind_some, hb, bind_some, if_neg (by omega)]
  split
  · rename_i c hc
    rw [htake] at hc
    rw [hc]
  · rename_i hc
    rw [htake] at hc
    rw [hc]

/-- The pointer that `find_btree_slotblock` returns. -/
def Finds (t : BTreeNode) (x : Int) : Option Ptr → Prop
  | some p => ∃ b, (p, b) ∈ t.cells ∧ Holds b x
  | none => ∀ b ∈ t.elems, ¬ Holds b x

/-- The block is in the row of the root. -/
theorem finds_row {cs : List BTreeNode} (h : Spaced bs) (hb : ∃ b ∈ bs, Holds b x)
    (hx : 0 ≤ x) : ∃ r, findBtreeSlotblock (.node a bs cs) x = some r ∧
    Finds (.node a bs cs) x r := by
  obtain ⟨b, hmem, hb⟩ := hb
  obtain ⟨bs1, bs2, rfl⟩ := append_of_mem hmem
  refine ⟨_, findBtreeSlotblock_found a cs h hb hx, b, ?_, hb⟩
  rw [mem_cells_node, row_append, zero_add]
  exact .inr (mem_append_right _ mem_cons_self)

/-- A slot that the row leads to a child is in that child or nowhere. -/
theorem Finds.child {cs1 cs2 : List BTreeNode} {c : BTreeNode}
    (h : Spaced (elems (.node a (bs1 ++ bs2) (cs1 ++ c :: cs2))))
    (hlen1 : cs1.length = bs1.length) (hlen2 : cs2.length = bs2.length)
    (hl : ∀ b ∈ bs1, b.startslot + b.nslots ≤ x) (hr : ∀ b ∈ bs2, x < b.startslot) {r : Option Ptr}
    (hfind : Finds c x r) : Finds (.node a (bs1 ++ bs2) (cs1 ++ c :: cs2)) x r := by
  cases r with
  | some p =>
    obtain ⟨b, hmem, hb⟩ := hfind
    exact ⟨b, mem_cells_node.2 (.inl ⟨c, mem_append_right _ mem_cons_self, hmem⟩), hb⟩
  | none =>
    intro b hmem hb
    have h1 := hb.1
    have h2 := hb.2
    have hs := h.sorted
    have he := h.sorted_end
    rw [elems_focus a c hlen1 hlen2] at hmem hs he
    rcases mem_append.1 hmem with hmem | hmem
    · have := before_lt (x := x + 1) (by rwa [List.length_map]) he
        (fun b' hb' => Int.lt_add_one_of_le (hl b' hb')) b hmem
      omega
    · rcases mem_append.1 hmem with hmem | hmem
      · exact hfind b hmem hb
      · have hs' := (pairwise_append.1 (pairwise_append.1 hs).2.1).2.1
        have := after_gt (by rwa [List.length_map]) hs' hr b hmem
        omega

theorem findBtreeSlotblock_spec (hx : 0 ≤ x) : ∀ {n lo : Nat} {t : BTreeNode}, n = 0 ∨ 1 ≤ lo →
    NodeShape lo n t → Spaced t.elems → ∃ r, findBtreeSlotblock t x = some r ∧ Finds t x r := by
  intro n
  induction n with
  | zero =>
    rintro lo ⟨a, bs, cs⟩ - ⟨-, rfl⟩ hsp
    have hsp' := hsp.sublist (row_sublist a bs [])
    by_cases hb : ∃ b ∈ bs, Holds b x
    · exact finds_row hsp' hb hx
    · have hno : ∀ b ∈ bs, ¬ Holds b x := fun b hmem hc => hb ⟨b, hmem, hc⟩
      refine ⟨none, ?_, fun b hmem => hno b (by rwa [elems_leaf] at hmem)⟩
      by_cases hnil : bs = []
      · rw [findBtreeSlotblock, if_pos (.inr (by rw [hnil]; rfl))]
      · obtain ⟨bs1, bs2, rfl, hl, hr⟩ := hsp'.split hno
        exact findBtreeSlotblock_miss a [] hsp' hnil hl hr hx
  | succ n ih =>
    rintro lo ⟨a, bs, cs⟩ hlo ⟨hrow, hlen, hcs⟩ hsp
    have hsp' := hsp.sublist (row_sublist a bs cs)
    by_cases hb : ∃ b ∈ bs, Holds b x
    · exact finds_row hsp' hb hx
    · have hno : ∀ b ∈ bs, ¬ Holds b x := fun b hmem hc => hb ⟨b, hmem, hc⟩
      have hnil : bs ≠ [] := length_pos_iff.1 (by omega)
      obtain ⟨bs1, bs2, rfl, hl, hr⟩ := hsp'.split hno
      obtain ⟨cs1, c, cs2, rfl, hlen1, hlen2⟩ := exists_child hlen
      obtain ⟨r, hrec, hfind⟩ := ih (.inr (by decide))
        (hcs c (mem_append_right _ mem_cons_self)) (hsp.sublist (child_sublist _ _ _ _ _))
      refine ⟨r, ?_, hfind.child hsp hlen1 hlen2 hl hr⟩
      have hc : (cs1 ++ c :: cs2)[bs1.length]? = some c := by
        rw [← hlen1]
        simp
      rw [findBtreeSlotblock_miss a _ hsp' hnil hl hr hx, hc]
      exact hrec

end Find

/-! ## Changing one block -/

/-- The list nodes of the blocks, with their bins. -/
def InBin (bs : List SlotBlock) (x bin : Nat) : Prop :=
  ∃ b ∈ bs, b.listblock = x ∧ bin = listBin b.nslots

/-- The tree and the lists agree. -/
structure SlotSet.Linked (ss : SlotSet) : Prop where
  root : RootShape ss.btreeRoot
  ok : TreeOk ss.heap ss.btreeRoot
  lists : ss.heap.Binned (InBin ss.btreeRoot.elems)
  size : ∀ b ∈ ss.btreeRoot.elems, 1 ≤ b.nslots ∧ b.nslots ≤ 2 ^ 62
  addrs : ss.btreeRoot.addrs.Nodup
  addrs_lt : ∀ y ∈ ss.btreeRoot.addrs, y < ss.heap.fresh
  ne_null : ∀ b ∈ ss.btreeRoot.elems, b.listblock ≠ 0
  fresh : ss.heap.fresh ≠ 0

section Linked

variable {ss : SlotSet} {b' b : SlotBlock} {k : Int}

section

variable (h : ss.Linked)

include h

/-- A list node belongs to one block. -/
theorem SlotSet.Linked.eq_of_listblock_eq
    (hb : b ∈ ss.btreeRoot.elems) (hb' : b' ∈ ss.btreeRoot.elems)
    (heq : b.listblock = b'.listblock) : b = b' :=
  inj_on_of_nodup_map h.ok.nodup hb hb' heq

theorem SlotSet.Linked.inBin_unique :
    ∀ x bin bin', InBin ss.btreeRoot.elems x bin → InBin ss.btreeRoot.elems x bin' →
    bin = bin' := by
  rintro x _ _ ⟨b, hb, hx, rfl⟩ ⟨b', hb', hx', rfl⟩
  rw [h.eq_of_listblock_eq hb hb' (hx.trans hx'.symm)]

theorem SlotSet.Linked.not_inBin_fresh : ∀ bin, ¬ InBin ss.btreeRoot.elems ss.heap.fresh bin := by
  rintro bin ⟨b, hb, hx, -⟩
  exact absurd hx (h.ok.fresh b hb).ne

/-- `btree_insert` adds a block. -/
theorem insertBlock_spec {x : Int}
    (hx : ∀ b ∈ ss.btreeRoot.elems, b.startslot ≠ x) (h1 : 1 ≤ k) (h2 : k ≤ 2 ^ 62) :
    ∃ ss', insertBlock ss x k = some ss' ∧ ss'.Linked ∧
      ∀ b, b ∈ ss'.btreeRoot.elems ↔ b ∈ ss.btreeRoot.elems ∨ b = ⟨x, k, ss.heap.fresh⟩ := by
  obtain ⟨h', t', heq, hins⟩ := btreeInsert_spec h.lists h.inBin_unique h.fresh h.not_inBin_fresh
    h1 h2 h.root h.ok hx
  have hmem : ∀ b, b ∈ t'.elems ↔ b ∈ ss.btreeRoot.elems ∨ b = ⟨x, k, ss.heap.fresh⟩ := by
    intro b
    rw [hins.elems, mem_append, mem_cons, mem_lower, mem_upper]
    constructor
    · rintro (⟨hb, -⟩ | rfl | ⟨hb, -⟩)
      · exact .inl hb
      · exact .inr rfl
      · exact .inl hb
    · rintro (hb | rfl)
      · rcases Int.lt_or_gt_of_ne (hx b hb) with hlt | hgt
        · exact .inl ⟨hb, hlt⟩
        · exact .inr (.inr ⟨hb, hgt⟩)
      · exact .inr (.inl rfl)
  obtain ⟨hnd, hlt⟩ := hins.addrs.nodup h.addrs h.addrs_lt
  have hfresh := hins.fresh
  refine ⟨⟨t', h'⟩, ?_, ⟨hins.root, hins.ok, ?_, ?_, hnd, hlt, ?_, ?_⟩, hmem⟩
  · rw [insertBlock, heq]
    rfl
  · refine LinkedList.Family.congr hins.lists fun y bin => ?_
    constructor
    · rintro (⟨b, hb, hy, hbin⟩ | ⟨rfl, rfl⟩)
      · exact ⟨b, (hmem b).2 (.inl hb), hy, hbin⟩
      · exact ⟨_, (hmem _).2 (.inr rfl), rfl, rfl⟩
    · rintro ⟨b, hb, hy, hbin⟩
      rcases (hmem b).1 hb with hb | rfl
      · exact .inl ⟨b, hb, hy, hbin⟩
      · exact .inr ⟨hy.symm, hbin⟩
  · intro b hb
    rcases (hmem b).1 hb with hb | rfl
    · exact h.size b hb
    · exact ⟨h1, h2⟩
  · intro b hb
    rcases (hmem b).1 hb with hb | rfl
    · exact h.ne_null b hb
    · exact h.fresh
  · exact Nat.ne_of_gt (Nat.lt_of_le_of_lt (Nat.zero_le _) hfresh)

/-- `btree_delete` removes a block. -/
theorem deleteBlock_spec {d : SlotBlock} (hd : d ∈ ss.btreeRoot.elems) :
    ∃ ss', deleteBlock ss d.startslot = some ss' ∧ ss'.Linked ∧
      ∀ b, b ∈ ss'.btreeRoot.elems ↔ b ∈ ss.btreeRoot.elems ∧ b ≠ d := by
  obtain ⟨h1, h2⟩ := h.size d hd
  obtain ⟨h', t', heq, hroot, hok, l1, l2, htaken⟩ := btreeDelete_spec h.lists h.inBin_unique
    ⟨d, hd, rfl, rfl⟩ h1 h2 h.root h.ok hd
  have hmem : ∀ b, b ∈ t'.elems ↔ b ∈ ss.btreeRoot.elems ∧ b ≠ d := by
    intro b
    have hnd : ss.btreeRoot.elems.Nodup := h.ok.nodup.of_map
    rw [htaken.elems, nodup_middle, nodup_cons] at hnd
    rw [htaken.elems, htaken.rest]
    constructor
    · refine fun hb => ⟨?_, fun heq => hnd.1 (heq ▸ hb)⟩
      exact ((Sublist.refl _).append (sublist_cons_self _ _)).subset hb
    · rintro ⟨hb, hne⟩
      rcases mem_append.1 hb with hb | hb
      · exact mem_append_left _ hb
      · exact mem_append_right _ ((mem_cons.1 hb).resolve_left hne)
  refine ⟨⟨t', h'⟩, ?_, ⟨hroot, hok, ?_, ?_, ?_, ?_, ?_, ?_⟩, hmem⟩
  · rw [deleteBlock, heq]
    rfl
  · refine LinkedList.Family.congr htaken.lists fun y bin => ?_
    constructor
    · rintro ⟨⟨b, hb, hy, hbin⟩, hne⟩
      exact ⟨b, (hmem b).2 ⟨hb, fun heq => hne (by rw [← hy, heq])⟩, hy, hbin⟩
    · rintro ⟨b, hb, hy, hbin⟩
      obtain ⟨hb, hne⟩ := (hmem b).1 hb
      refine ⟨⟨b, hb, hy, hbin⟩, fun heq => hne ?_⟩
      exact h.eq_of_listblock_eq hb hd (hy.trans heq)
  · exact fun b hb => h.size b ((hmem b).1 hb).1
  · obtain ⟨l, hperm, hsub⟩ := htaken.addrs
    exact hperm.nodup_iff.1 (h.addrs.sublist hsub)
  · intro y hy
    have := h.addrs_lt y (htaken.addrs.subset hy)
    rwa [← htaken.fresh] at this
  · exact fun b hb => h.ne_null b ((hmem b).1 hb).1
  · have := h.fresh
    rwa [← htaken.fresh] at this

end

theorem mem_replace {l1 l2 : List SlotBlock} {e : SlotBlock} (hnd : (l1 ++ b :: l2).Nodup) :
    e ∈ l1 ++ b' :: l2 ↔ (e ∈ l1 ++ b :: l2 ∧ e ≠ b) ∨ e = b' := by
  rw [nodup_middle, nodup_cons, mem_append, not_or] at hnd
  simp only [mem_append, mem_cons]
  constructor
  · rintro (he | rfl | he)
    · exact .inl ⟨.inl he, fun heq => hnd.1.1 (heq ▸ he)⟩
    · exact .inr rfl
    · exact .inl ⟨.inr (.inr he), fun heq => hnd.1.2 (heq ▸ he)⟩
  · rintro (⟨he | rfl | he, hne⟩ | rfl)
    · exact .inl he
    · exact absurd rfl hne
    · exact .inr (.inr he)
    · exact .inr (.inl rfl)

variable {b : SlotBlock} {p : Ptr} {s : Int}

/-- The block `b` stays at its place among the others when it begins at `s`. -/
def StaysAt (bs : List SlotBlock) (b : SlotBlock) (s : Int) : Prop :=
  ∀ e ∈ bs, (e.startslot < b.startslot → e.startslot < s) ∧
    (b.startslot < e.startslot → s < e.startslot)

/-- Writing a block changes its range and nothing else in the tree. -/
theorem TreeOk.modify {h : Heap} {t : BTreeNode} (ht : TreeOk h t) (hnd : t.addrs.Nodup)
    (hb : (p, b) ∈ t.cells) (k : Int) (horder : StaysAt t.elems b s) :
    TreeOk h (t.modify p fun sb => { sb with startslot := s, nslots := k }) ∧
      ∀ e, e ∈ (t.modify p fun sb => { sb with startslot := s, nslots := k }).elems ↔
        (e ∈ t.elems ∧ e ≠ b) ∨ e = ⟨s, k, b.listblock⟩ := by
  obtain ⟨l1, l2, hold, hnew⟩ := elems_modify hnd hb fun sb =>
    { sb with startslot := s, nslots := k }
  have hnodup : (l1 ++ b :: l2).Nodup := by
    rw [← hold]
    exact ht.nodup.of_map
  have htags : (l1 ++ { b with startslot := s, nslots := k } :: l2).map SlotBlock.listblock =
      t.elems.map SlotBlock.listblock := by
    rw [hold]
    simp
  refine ⟨⟨?_, ?_, ?_, ?_⟩, fun e => ?_⟩
  · have hs := ht.sorted
    rw [hold] at hs horder
    rw [hnew]
    rw [Sorted, pairwise_append, pairwise_cons] at hs ⊢
    obtain ⟨hs1, ⟨hbs, hs2⟩, hcross⟩ := hs
    refine ⟨hs1, ⟨fun e he => ?_, hs2⟩, fun e he e' he' => ?_⟩
    · exact (horder e (mem_append_right _ (mem_cons_of_mem _ he))).2 (hbs e he)
    · rcases mem_cons.1 he' with rfl | he'
      · exact (horder e (mem_append_left _ he)).1 (hcross e he b mem_cons_self)
      · exact hcross e he e' (mem_cons_of_mem _ he')
  · intro x hx
    rw [cells_modify] at hx
    obtain ⟨x0, hx0, rfl⟩ := mem_map.1 hx
    have := ht.located x0 hx0
    rw [modifyCell]
    split
    · exact this
    · exact this
  · rw [hnew, htags]
    exact ht.nodup
  · intro e he
    have hmem : e.listblock ∈ t.elems.map SlotBlock.listblock := by
      rw [← htags, ← hnew]
      exact List.mem_map_of_mem he
    obtain ⟨e', he', heq⟩ := mem_map.1 hmem
    rw [← heq]
    exact ht.fresh e' he'
  · rw [hnew, hold]
    exact mem_replace hnodup

/-- The bins after the range of the block `b` has changed. -/
theorem SlotSet.Linked.inBin_replace (h : ss.Linked)
    (hb : b ∈ ss.btreeRoot.elems) {bs : List SlotBlock}
    (hmem : ∀ e, e ∈ bs ↔ (e ∈ ss.btreeRoot.elems ∧ e ≠ b) ∨ e = ⟨s, k, b.listblock⟩)
    (y bin : Nat) :
    (InBin ss.btreeRoot.elems y bin ∧ y ≠ b.listblock) ∨ (y = b.listblock ∧ bin = listBin k) ↔
      InBin bs y bin := by
  constructor
  · rintro (⟨⟨e, he, hy, hbin⟩, hne⟩ | ⟨rfl, rfl⟩)
    · exact ⟨e, (hmem e).2 (.inl ⟨he, fun heq => hne (by rw [← hy, heq])⟩), hy, hbin⟩
    · exact ⟨_, (hmem _).2 (.inr rfl), rfl, rfl⟩
  · rintro ⟨e, he, hy, hbin⟩
    rcases (hmem e).1 he with ⟨he, hne⟩ | rfl
    · refine .inl ⟨⟨e, he, hy, hbin⟩, fun heq => hne ?_⟩
      exact h.eq_of_listblock_eq he hb (hy.trans heq)
    · exact .inr ⟨hy.symm, hbin⟩

/-- Changing the range of a block and moving its list node. -/
theorem setRange_spec (h : ss.Linked) (hb : (p, b) ∈ ss.btreeRoot.cells)
    (h1 : 1 ≤ k) (h2 : k ≤ 2 ^ 62) (horder : StaysAt ss.btreeRoot.elems b s) :
    ∃ ss', setRange ss p s k = some ss' ∧ ss'.Linked ∧
      (∀ e, e ∈ ss'.btreeRoot.elems ↔ (e ∈ ss.btreeRoot.elems ∧ e ≠ b) ∨ e = ⟨s, k, b.listblock⟩) ∧
      ∀ q e, (q, e) ∈ ss.btreeRoot.cells → q ≠ p → (q, e) ∈ ss'.btreeRoot.cells := by
  obtain ⟨hok, hmem⟩ := h.ok.modify h.addrs hb k horder
  generalize ht : (ss.btreeRoot.modify p fun sb => { sb with startslot := s, nslots := k }) =
    t at hok hmem
  have hbe : b ∈ ss.btreeRoot.elems := List.mem_map_of_mem hb
  have haddrs : t.addrs = ss.btreeRoot.addrs := by
    rw [← ht]
    exact addrs_modify ..
  have hcell : (p, (⟨s, k, b.listblock⟩ : SlotBlock)) ∈ t.cells := by
    rw [← ht, cells_modify]
    refine mem_map.2 ⟨(p, b), hb, ?_⟩
    rw [modifyCell, if_pos rfl]
  have hderef := deref_of_mem (haddrs ▸ h.addrs) hcell
  have hold : findListBin b.nslots = some (listBin b.nslots) :=
    findListBin_eq (h.size b hbe).1 (h.size b hbe).2
  have hnew : findListBin k = some (listBin k) := findListBin_eq h1 h2
  have hP : InBin ss.btreeRoot.elems b.listblock (listBin b.nslots) := ⟨b, hbe, rfl, rfl⟩
  have hbins := h.inBin_replace hbe hmem
  have hroot : RootShape t := by
    rw [← ht]
    rcases h.root with hs | ⟨n, hs⟩
    · exact .inl (hs.modify _ _)
    · exact .inr ⟨n, hs.modify _ _⟩
  have hsize : ∀ e ∈ t.elems, 1 ≤ e.nslots ∧ e.nslots ≤ 2 ^ 62 := by
    intro e he
    rcases (hmem e).1 he with ⟨he, -⟩ | rfl
    · exact h.size e he
    · exact ⟨h1, h2⟩
  have hnull : ∀ e ∈ t.elems, e.listblock ≠ 0 := by
    intro e he
    rcases (hmem e).1 he with ⟨he, -⟩ | rfl
    · exact h.ne_null e he
    · exact h.ne_null b hbe
  have hcells : ∀ q e, (q, e) ∈ ss.btreeRoot.cells → q ≠ p → (q, e) ∈ t.cells := by
    intro q e hqe hne
    rw [← ht, cells_modify]
    refine mem_map.2 ⟨(q, e), hqe, ?_⟩
    rw [modifyCell, if_neg hne]
  rw [setRange, deref_of_mem h.addrs hb, bind_some, listMove, hold, bind_some]
  rw [ht, h.ok.located (p, b) hb, hderef, bind_some, hnew, map_some]
  by_cases hbin : listBin k = listBin b.nslots
  · rw [if_neg (not_not_intro hbin)]
    refine ⟨_, rfl, ⟨hroot, hok, ?_, hsize, ?_, ?_, hnull, h.fresh⟩, hmem, hcells⟩
    · refine LinkedList.Family.congr h.lists fun y bin => ?_
      rw [← hbins]
      constructor
      · intro hy
        by_cases hyb : y = b.listblock
        · subst hyb
          exact .inr ⟨rfl, (h.inBin_unique _ _ _ hy hP).trans hbin.symm⟩
        · exact .inl ⟨hy, hyb⟩
      · rintro (hy | ⟨rfl, rfl⟩)
        · exact hy.1
        · rw [hbin]
          exact hP
    · rw [haddrs]
      exact h.addrs
    · rw [haddrs]
      exact h.addrs_lt
  · rw [if_pos hbin]
    refine ⟨_, rfl, ⟨hroot, ?_, ?_, hsize, ?_, ?_, hnull, h.fresh⟩, hmem, hcells⟩
    · exact { hok with }
    · refine LinkedList.Family.congr ?_ hbins
      exact relink_spec h.lists h.inBin_unique hP (h.ne_null b hbe) (listBin k)
    · rw [haddrs]
      exact h.addrs
    · rw [haddrs]
      exact h.addrs_lt

end Linked

end CharmRuntime.Isomalloc
