import Mathlib.Algebra.Order.Group.Multiset
import CharmRuntime.Isomalloc.TreeSearch

/-!
# Insertion into the slot tree

`btree_insert_int` descends to a leaf, makes room for the new block there, and splits every node
that reaches `TREE_NODE_SIZE` blocks on the way back, handing the middle block and the new right
node to the parent. The four copies of the code for the left and the right side of an index, for a
leaf and for an inner node, differ only in the position `insertIndex`. Whenever blocks move inside a
node or to another node their list nodes are pointed to the new cells.

The result is described by `Inserted`: the new block is in its place, the balance condition holds
for the node and, after a split, for both halves, and the list nodes of all their blocks point to
them; the middle block handed up is pointed to by nobody yet.
-/

set_option autoImplicit false

namespace CharmRuntime.Isomalloc

open Lib BTree List Option SlotBlock Function
open Multiset (coe_eq_coe nodup_add mem_add coe_add)

/-- `TREE_NODE_SIZE`. -/
def treeNodeSize : Nat := 128

/-- `TREE_NODE_MID`. -/
def treeNodeMid : Nat := 63

/-- Shift the entries from index `i` on and put `x` there. -/
def insertAt {α : Type} (l : List α) (i : Nat) (x : α) : List α := l.take i ++ x :: l.drop i

/-- Point the list nodes of a row of blocks to the cells from index `i` of node `a` on. -/
def Heap.repoint (h : Heap) (a i : Nat) (bs : List SlotBlock) : Heap :=
  { h with sb := BTree.repoint listblock h.sb a i bs }

/-- `if (node->num_blocks == TREE_NODE_SIZE)`: the upper blocks move to a new node, and the middle
block is returned with it. -/
def splitNode (h : Heap) (a : Nat) (bs : List SlotBlock) (cs : List BTreeNode) :
    Option (Heap × BTreeNode × Option (SlotBlock × BTreeNode)) :=
  if bs.length = treeNodeSize then
    (bs[treeNodeMid]?).map fun sb =>
      let upper := bs.drop (treeNodeMid + 1)
      ({ h.repoint h.fresh 0 upper with fresh := h.fresh + 1 },
        .node a (bs.take treeNodeMid) (cs.take (treeNodeMid + 1)),
        some (sb, .node h.fresh upper (cs.drop (treeNodeMid + 1))))
  else some (h, .node a bs cs, none)

/-- `btree_insert_int`: the memory, the node, and the block and the node to be inserted into the
parent, if there are. -/
def btreeInsertInt (h : Heap) (node : BTreeNode) (startslot nslots : Int) :
    Option (Heap × BTreeNode × Option (SlotBlock × BTreeNode)) :=
  match node with
  | .node a bs cs =>
    (insertIndex bs startslot).bind fun index =>
      match hc : cs[index]? with
      | some c =>
        (btreeInsertInt h c startslot nslots).bind fun r =>
          match r with
          | (h, c, none) => some (h, .node a bs (cs.set index c), none)
          | (h, c, some (sb, btn)) =>
            let bs := insertAt bs index sb
            splitNode (h.repoint a index (bs.drop index)) a bs
              (insertAt (cs.set index c) (index + 1) btn)
      | none =>
        (listInsert (h.repoint a (index + 1) (bs.drop index)) (a, index) nslots).bind fun r =>
          splitNode r.1 a (insertAt bs index ⟨startslot, nslots, r.2⟩) cs
termination_by node
decreasing_by
  have := sizeOf_lt_of_mem (mem_of_getElem? hc)
  simp only [BTree.node.sizeOf_spec]
  omega

/-- `btree_insert`. -/
def btreeInsert (h : Heap) (node : BTreeNode) (startslot nslots : Int) :
    Option (Heap × BTreeNode) :=
  match node with
  | .node a bs cs =>
    if bs.length = 0 then
      (listInsert h (a, 0) nslots).map fun r => (r.1, .node a [⟨startslot, nslots, r.2⟩] cs)
    else
      (btreeInsertInt h node startslot nslots).map fun r =>
        match r with
        | (h, node, none) => (h, node)
        | (h, node, some (sb, btn)) =>
          ({ h.repoint h.fresh 0 [sb] with fresh := h.fresh + 1 }, .node h.fresh [sb] [node, btn])

/-! ## Memory -/

/-- The nodes at `as'` are those at `as` and new ones. -/
def Heap.Allocates (h h' : Heap) (as as' : List Nat) : Prop :=
  h.fresh ≤ h'.fresh ∧ ∃ new : Multiset Nat, new.Nodup ∧
    (∀ y ∈ new, h.fresh ≤ y ∧ y < h'.fresh) ∧ (as' : Multiset Nat) = new + as

section Allocates

variable {h h₁ h₂ : Heap} {as as1 as2 : List Nat}

theorem Heap.Allocates.of_perm (hf : h.fresh ≤ h₁.fresh) (hp : as1.Perm as) :
    h.Allocates h₁ as as1 := by
  refine ⟨hf, 0, Multiset.nodup_zero, by simp, ?_⟩
  exact coe_eq_coe.2 hp

/-- One new node. -/
theorem Heap.Allocates.node (hf : h₁.fresh = h.fresh + 1) (hp : as1.Perm (h.fresh :: as)) :
    h.Allocates h₁ as as1 := by
  refine ⟨by omega, {h.fresh}, Multiset.nodup_singleton _, ?_, ?_⟩
  · intro y hy
    rw [Multiset.mem_singleton] at hy
    omega
  · exact coe_eq_coe.2 hp

theorem Heap.Allocates.trans (h1 : h.Allocates h₁ as as1) (h2 : h₁.Allocates h₂ as1 as2) :
    h.Allocates h₂ as as2 := by
  obtain ⟨hf1, n1, hn1, hb1, he1⟩ := h1
  obtain ⟨hf2, n2, hn2, hb2, he2⟩ := h2
  refine ⟨hf1.trans hf2, n2 + n1, ?_, ?_, ?_⟩
  · refine nodup_add.2 ⟨hn2, hn1, Multiset.disjoint_left.2 fun {y} hy hy' => ?_⟩
    have := hb2 y hy
    have := hb1 y hy'
    omega
  · intro y hy
    rcases mem_add.1 hy with hy | hy
    · have := hb2 y hy
      omega
    · have := hb1 y hy
      omega
  · rw [he2, he1, add_assoc]

/-- A part of the tree grows. -/
theorem Heap.Allocates.focus (l r : List Nat) (h1 : h.Allocates h₁ as as1) :
    h.Allocates h₁ (l ++ (as ++ r)) (l ++ (as1 ++ r)) := by
  obtain ⟨hf, n, hn, hb, he⟩ := h1
  refine ⟨hf, n, hn, hb, ?_⟩
  rw [← coe_add, ← coe_add, he, ← coe_add, ← coe_add]
  simp only [add_assoc, add_left_comm]

/-- Addresses stay distinct and below the next one. -/
theorem Heap.Allocates.nodup (h1 : h.Allocates h₁ as as1) (hnd : as.Nodup)
    (hlt : ∀ y ∈ as, y < h.fresh) : as1.Nodup ∧ ∀ y ∈ as1, y < h₁.fresh := by
  obtain ⟨hf, n, hn, hb, he⟩ := h1
  constructor
  · rw [← Multiset.coe_nodup, he]
    refine nodup_add.2 ⟨hn, Multiset.coe_nodup.2 hnd, ?_⟩
    refine Multiset.disjoint_left.2 fun {y} hy hy' => ?_
    have := hb y hy
    have := hlt y (Multiset.mem_coe.1 hy')
    omega
  · intro y hy
    rw [← Multiset.mem_coe, he, mem_add] at hy
    rcases hy with hy | hy
    · exact (hb y hy).2
    · exact (hlt y (Multiset.mem_coe.1 hy)).trans_le hf

end Allocates

/-- What the functions on the tree rely on: the blocks are ordered, their list nodes are distinct,
were returned by `malloc`, and point to their cells. -/
structure TreeOk (h : Heap) (t : BTreeNode) : Prop where
  sorted : Sorted startslot t.elems
  located : Located listblock h.sb t
  nodup : (t.elems.map listblock).Nodup
  fresh : ∀ e ∈ t.elems, e.listblock < h.fresh

variable {a : Nat} {cs cs1 cs2 : List BTreeNode} {bs : List SlotBlock} {h : Heap} {c : BTreeNode}

theorem TreeOk.child (ht : TreeOk h (.node a bs cs)) (hc : c ∈ cs) : TreeOk h c := by
  obtain ⟨cs1, cs2, rfl⟩ := append_of_mem hc
  have hsub : Sublist c.elems (elems (.node a bs (cs1 ++ c :: cs2))) :=
    child_sublist a bs cs1 cs2 c
  refine ⟨ht.sorted.sublist hsub, (located_node.1 ht.located).2 c hc, ?_, ?_⟩
  · exact ht.nodup.sublist (hsub.map _)
  · exact fun e he => ht.fresh e (hsub.subset he)

/-- What is outside a child stays in place if nothing but the blocks of the child moves. -/
theorem TreeOk.context {h' : Heap} (ht : TreeOk h (.node a bs (cs1 ++ c :: cs2)))
    (hframe : ∀ y, y ∉ c.elems.map listblock → y < h.fresh → h'.sb y = h.sb y) :
    RowLocated listblock h'.sb a 0 bs ∧ ∀ c' ∈ cs1 ++ cs2, Located listblock h'.sb c' := by
  obtain ⟨hrow, hout⟩ := tags_child ht.nodup
  obtain ⟨hlrow, hlcs⟩ := located_node.1 ht.located
  constructor
  · refine hlrow.congr fun b hb => hframe _ (hrow b hb) (ht.fresh b ?_)
    exact (row_sublist _ _ _).subset hb
  · intro c' hc'
    have hmem : c' ∈ cs1 ++ c :: cs2 := by
      rcases mem_append.1 hc' with h | h
      · exact mem_append_left _ h
      · exact mem_append_right _ (mem_cons_of_mem _ h)
    refine (hlcs c' hmem).congr fun e he => hframe _ (hout c' hc' e he) (ht.fresh e ?_)
    exact mem_elems_node.2 (.inl ⟨c', hmem, he⟩)

/-! ## Splitting a node -/

/-- The blocks of a node and of what is handed to its parent. -/
def joined (t : BTreeNode) : Option (SlotBlock × BTreeNode) → List SlotBlock
  | none => t.elems
  | some (sb, btn) => t.elems ++ sb :: btn.elems

/-- The nodes of a node and of what is handed to its parent. -/
def joinedAddrs (t : BTreeNode) : Option (SlotBlock × BTreeNode) → List Nat
  | none => t.addrs
  | some (_, btn) => t.addrs ++ btn.addrs

/-- The balance condition of a tree of height `n` with at least `lo` blocks in the root. -/
abbrev NodeShape (lo n : Nat) (t : BTreeNode) : Prop :=
  Shape treeNodeMid (treeNodeSize - 1) lo (treeNodeSize - 1) n t

/-- A node and what is handed to its parent are balanced, and the list nodes of their blocks point
to their cells. -/
structure Balanced (lo n : Nat) (h : Heap) (t : BTreeNode) (up : Option (SlotBlock × BTreeNode)) :
    Prop where
  shape : up = none → NodeShape lo n t
  shapes : ∀ sb btn, up = some (sb, btn) → NodeShape treeNodeMid n t ∧ NodeShape treeNodeMid n btn
  located : Located listblock h.sb t
  right : ∀ sb btn, up = some (sb, btn) → Located listblock h.sb btn

theorem exists_cut {α : Type} {l : List α} {i : Nat} (hi : i < l.length) :
    ∃ l1 x l2, l = l1 ++ x :: l2 ∧ l1.length = i := by
  refine ⟨l.take i, l[i], l.drop (i + 1), ?_, length_take_of_le hi.le⟩
  rw [← drop_eq_getElem_cons hi, take_append_drop]

variable {sb : SlotBlock}

theorem splitNode_full {bs1 bs2 : List SlotBlock} (h₁ : bs1.length = treeNodeMid)
    (h₂ : bs2.length = treeNodeMid + 1) : splitNode h a (bs1 ++ sb :: bs2) cs =
      some ({ h.repoint h.fresh 0 bs2 with fresh := h.fresh + 1 },
        .node a bs1 (cs.take (treeNodeMid + 1)),
        some (sb, .node h.fresh bs2 (cs.drop (treeNodeMid + 1)))) := by
  have hlen : (bs1 ++ sb :: bs2).length = treeNodeSize := by
    rw [length_append, length_cons, h₁, h₂]
    rfl
  have hmid : (bs1 ++ sb :: bs2)[treeNodeMid]? = some sb := by
    rw [← h₁]
    simp
  have htake : (bs1 ++ sb :: bs2).take treeNodeMid = bs1 := by
    rw [← h₁]
    simp
  have hdrop : (bs1 ++ sb :: bs2).drop (treeNodeMid + 1) = bs2 := by
    rw [← h₁]
    simp
  rw [splitNode, if_pos hlen, hmid, map_some, htake, hdrop]

/-- A node that has at most `TREE_NODE_SIZE` blocks is split if it has that many. -/
structure Split (lo n : Nat) (h : Heap) (t : BTreeNode) (h' : Heap) (t' : BTreeNode)
    (up : Option (SlotBlock × BTreeNode)) : Prop where
  balanced : Balanced lo n h' t' up
  elems : joined t' up = t.elems
  frame : ∀ y, y ∉ t.elems.map listblock → h'.sb y = h.sb y
  lists : ∀ P, h.Binned P → h'.Binned P
  addrs : h.Allocates h' t.addrs (joinedAddrs t' up)

theorem splitNode_spec {lo n : Nat}
    (hs : Shape treeNodeMid (treeNodeSize - 1) lo treeNodeSize n (.node a bs cs))
    (hl : Located listblock h.sb (.node a bs cs))
    (hnd : ((elems (.node a bs cs)).map listblock).Nodup) :
    ∃ h' t' up, splitNode h a bs cs = some (h', t', up) ∧ Split lo n h
    (.node a bs cs) h' t' up := by
  have hrow := hs.row
  by_cases hfull : bs.length = treeNodeSize
  · have hlt : treeNodeMid < bs.length := by
      rw [hfull]
      decide
    obtain ⟨bs1, sb, bs2, rfl, h₁⟩ := exists_cut hlt
    have h₂ : bs2.length = treeNodeMid + 1 := by
      rw [length_append, length_cons, h₁, treeNodeSize, treeNodeMid] at hfull
      rw [treeNodeMid]
      omega
    have hkids := (shape_iff.1 hs).2
    rw [length_append, length_cons, ← add_assoc, add_right_comm] at hkids
    obtain ⟨hk1, hk2⟩ := hkids.split
    have hcs : cs = cs.take (bs1.length + 1) ++ cs.drop (bs1.length + 1) :=
      (take_append_drop _ _).symm
    rw [splitNode_full h₁ h₂, ← h₁]
    generalize cs.take (bs1.length + 1) = cs1 at *
    generalize cs.drop (bs1.length + 1) = cs2 at *
    subst hcs
    obtain ⟨hleft, hright⟩ := hl.cut (hk1.elems a h.fresh sb hk2 ▸ hnd)
    refine ⟨_, _, _, rfl, ⟨?_, ?_, hleft, ?_⟩, (hk1.elems a h.fresh sb hk2).symm, ?_, ?_, ?_⟩
    · intro hup
      cases hup
    · rintro _ _ ⟨⟩
      refine ⟨shape_iff.2 ⟨?_, hk1⟩, shape_iff.2 ⟨?_, hk2⟩⟩
      · rw [h₁]
        decide
      · rw [h₂]
        decide
    · rintro _ _ ⟨⟩
      exact hright
    · intro y hy
      refine repoint_of_notMem fun hmem => hy ?_
      refine map_subset _ (row_sublist _ _ _).subset ?_
      rw [map_append, map_cons]
      exact mem_append_right _ (mem_cons_of_mem _ hmem)
    · exact fun _ hP => hP
    · refine Heap.Allocates.node rfl ?_
      rw [joinedAddrs, addrs_node, addrs_node, addrs_node, flatMap_append, cons_append]
      exact (perm_middle.cons a).trans (Perm.swap _ _ _)
  · refine ⟨h, .node a bs cs, none, if_neg hfull, ⟨?_, ?_, hl, ?_⟩, rfl, ?_, ?_, ?_⟩
    · intro _
      refine hs.bounds hrow.1 ?_
      omega
    · intro sb btn hup
      cases hup
    · intro sb btn hup
      cases hup
    · exact fun _ _ => rfl
    · exact fun _ hP => hP
    · exact Heap.Allocates.of_perm le_rfl (Perm.refl _)

/-! ## Insertion -/

/-- A block has been inserted into a tree of height `n`; the lists held the list nodes `P`. -/
structure Inserted (P : Nat → Nat → Prop) (lo n : Nat) (h : Heap) (t : BTreeNode) (new : SlotBlock)
    (h' : Heap) (t' : BTreeNode) (up : Option (SlotBlock × BTreeNode)) : Prop where
  balanced : Balanced lo n h' t' up
  elems : joined t' up = lower startslot new.startslot t.elems ++
    new :: upper startslot new.startslot t.elems
  frame : ∀ y, y ∉ t.elems.map listblock → y < h.fresh → h'.sb y = h.sb y
  lists : h'.Binned fun x b => P x b ∨ (x = h.fresh ∧ b = listBin new.nslots)
  addrs : h.Allocates h' t.addrs (joinedAddrs t' up)
  fresh : h.fresh < h'.fresh

@[simp] theorem insertAt_length {α : Type} (l1 l2 : List α) (x : α) :
    insertAt (l1 ++ l2) l1.length x = l1 ++ x :: l2 := by
  simp [insertAt]

section Insert

variable {P : Nat → Nat → Prop} {lo n : Nat} {h h₁ h' : Heap} {t t1 t' : BTreeNode}
  {new : SlotBlock} {up : Option (SlotBlock × BTreeNode)}

/-- Blocks in order with a new one at its place. -/
abbrev withNew (new : SlotBlock) (l : List SlotBlock) : List SlotBlock :=
  lower startslot new.startslot l ++ new :: upper startslot new.startslot l

/-- The blocks with the new one have distinct list nodes. -/
theorem TreeOk.nodup_insert (ht : TreeOk h t) (new : SlotBlock)
    (hx : ∀ e ∈ t.elems, e.startslot ≠ new.startslot) (hnew : new.listblock = h.fresh) :
    ((withNew new t.elems).map listblock).Nodup := by
  have hp : (withNew new t.elems).Perm (new :: t.elems) := by
    refine perm_middle.trans ?_
    rw [← sorted_split ht.sorted hx]
  rw [(hp.map _).nodup_iff, map_cons, nodup_cons]
  refine ⟨fun hmem => ?_, ht.nodup⟩
  obtain ⟨e, he, heq⟩ := mem_map.1 hmem
  have := ht.fresh e he
  omega

theorem notMem_insert {y : Nat} (hy : y ∉ t.elems.map listblock) (hne : y ≠ new.listblock) :
    y ∉ (withNew new t.elems).map listblock := by
  intro hmem
  rw [map_append, map_cons, mem_append, mem_cons] at hmem
  rcases hmem with hmem | hmem | hmem
  · exact hy (map_subset _ (filter_subset_self _) hmem)
  · exact hne hmem
  · exact hy (map_subset _ (filter_subset_self _) hmem)

/-- The node with the new block in it is split at the end. -/
theorem Split.inserted (hsplit : Split lo n h₁ t1 h' t' up)
    (helems : t1.elems = withNew new t.elems) (hnew : new.listblock = h.fresh)
    (hframe : ∀ y, y ∉ t.elems.map listblock → y < h.fresh → h₁.sb y = h.sb y)
    (hlists : h₁.Binned fun x b => P x b ∨ (x = h.fresh ∧ b = listBin new.nslots))
    (haddrs : h.Allocates h₁ t.addrs t1.addrs) (hfresh : h.fresh < h₁.fresh) :
    Inserted P lo n h t new h' t' up := by
  refine ⟨hsplit.balanced, hsplit.elems.trans helems, ?_, hsplit.lists _ hlists,
    haddrs.trans hsplit.addrs, hfresh.trans_le hsplit.addrs.1⟩
  intro y hy hlt
  rw [hsplit.frame y, hframe y hy hlt]
  rw [helems]
  exact notMem_insert hy (by omega)

variable {bs1 bs2 : List SlotBlock} {x k : Int}

theorem btreeInsertInt_leaf (a : Nat) (hi : insertIndex (bs1 ++ bs2) x = some bs1.length) :
    btreeInsertInt h (.node a (bs1 ++ bs2) []) x k =
      (listInsert (h.repoint a (bs1.length + 1) bs2) (a, bs1.length) k).bind fun r =>
        splitNode r.1 a (bs1 ++ ⟨x, k, r.2⟩ :: bs2) [] := by
  rw [btreeInsertInt, hi]
  simp only [bind_some, getElem?_nil, insertAt_length, drop_left]

theorem btreeInsertInt_inner (a : Nat)
    (c : BTreeNode) (hi : insertIndex (bs1 ++ bs2) x = some bs1.length)
    (h₁ : cs1.length = bs1.length) : btreeInsertInt h (.node a (bs1 ++ bs2) (cs1 ++ c :: cs2)) x k =
      (btreeInsertInt h c x k).bind fun r => match r with
        | (h, c, none) => some (h, .node a (bs1 ++ bs2) (cs1 ++ c :: cs2), none)
        | (h, c, some (sb, btn)) =>
          splitNode (h.repoint a bs1.length (sb :: bs2)) a (bs1 ++ sb :: bs2)
            (cs1 ++ c :: btn :: cs2) := by
  have hc : (cs1 ++ c :: cs2)[bs1.length]? = some c := by
    rw [← h₁]
    simp
  have hset : ∀ c', (cs1 ++ c :: cs2).set bs1.length c' = cs1 ++ c' :: cs2 := by
    intro c'
    rw [← h₁]
    simp
  have hins : ∀ c' btn, insertAt (cs1 ++ c' :: cs2) (bs1.length + 1) btn =
      cs1 ++ c' :: btn :: cs2 := by
    intro c' btn
    have := insertAt_length (cs1 ++ [c']) cs2 btn
    simpa [h₁] using this
  rw [btreeInsertInt, hi, bind_some]
  split
  · rename_i c' hc'
    rw [hc, some.injEq] at hc'
    subst hc'
    congr 1
    funext r
    obtain ⟨h', c', up⟩ := r
    cases up with
    | none => simp only [hset]
    | some up => simp only [hset, hins, insertAt_length, drop_left]
  · rename_i hc'
    rw [hc] at hc'
    cases hc'

variable {cs : List BTreeNode}

/-- The row of a node around the place of a new block. -/
theorem TreeOk.row_split (ht : TreeOk h (.node a bs cs))
    (hx : ∀ e ∈ bs, e.startslot ≠ x) :
    ∃ bs1 bs2, bs = bs1 ++ bs2 ∧ (∀ b ∈ bs1, b.startslot < x) ∧ ∀ b ∈ bs2, x < b.startslot :=
  ⟨_, _, sorted_split (ht.sorted.sublist (row_sublist _ _ _)) hx, fun _ hb => (mem_lower.1 hb).2,
    fun _ hb => (mem_upper.1 hb).2⟩

section Inner

variable {bs1 bs2 : List SlotBlock} {cs1 cs2 : List BTreeNode} {c c' : BTreeNode}
  (hs : NodeShape lo (n + 1) (.node a (bs1 ++ bs2) (cs1 ++ c :: cs2)))
  (ht : TreeOk h (.node a (bs1 ++ bs2) (cs1 ++ c :: cs2)))
  (hl : ∀ b ∈ bs1, b.startslot < new.startslot) (hr : ∀ b ∈ bs2, new.startslot < b.startslot)
  (hlen1 : cs1.length = bs1.length) (hlen2 : cs2.length = bs2.length)

include hs ht hl hr hlen1 hlen2

/-- Insertion into a child that hands nothing up. -/
theorem insert_inner_none (hins : Inserted P treeNodeMid n h c new h₁ c' none) :
    Inserted P lo (n + 1) h (.node a (bs1 ++ bs2) (cs1 ++ c :: cs2)) new h₁
      (.node a (bs1 ++ bs2) (cs1 ++ c' :: cs2)) none := by
  obtain ⟨hrow, hcs⟩ := ht.context hins.frame
  have hfocus := lower_focus hlen1 hlen2 ht.sorted hl hr
  refine ⟨⟨?_, ?_, ?_, ?_⟩, ?_, ?_, hins.lists, ?_, hins.fresh⟩
  · intro _
    refine ⟨hs.1, ?_, ?_⟩
    · have := hs.2.1
      rwa [length_append, length_cons] at this ⊢
    · exact forall_mem_middle.2 ⟨(forall_mem_middle.1 hs.2.2).1, hins.balanced.shape rfl⟩
  · rintro _ _ ⟨⟩
  · exact located_node.2 ⟨hrow, forall_mem_middle.2 ⟨hcs, hins.balanced.located⟩⟩
  · rintro _ _ ⟨⟩
  · have helems : elems c' = _ := hins.elems
    rw [joined, elems_focus a c' hlen1 hlen2, helems, hfocus.1, hfocus.2]
    simp
  · exact fun y hy => hins.frame y fun hmem =>
      hy (map_subset _ (child_sublist _ _ _ _ _).subset hmem)
  · rw [joinedAddrs, addrs_node, addrs_node, flatMap_append, flatMap_append,
      flatMap_cons, flatMap_cons, ← cons_append, ← cons_append]
    exact hins.addrs.focus _ _

/-- Insertion into a child that hands a block and a node up. -/
theorem insert_inner_some (hx : ∀ e ∈ elems (.node a (bs1 ++ bs2) (cs1 ++ c :: cs2)),
      e.startslot ≠ new.startslot) (hnb : new.listblock = h.fresh) {btn : BTreeNode}
    (hins : Inserted P treeNodeMid n h c new h₁ c' (some (sb, btn))) :
    ∃ h' t' up, splitNode (h₁.repoint a bs1.length (sb :: bs2)) a (bs1 ++ sb :: bs2)
        (cs1 ++ c' :: btn :: cs2) = some (h', t', up) ∧
      Inserted P lo (n + 1) h (.node a (bs1 ++ bs2) (cs1 ++ c :: cs2)) new h' t' up := by
  obtain ⟨hrow, hcs⟩ := ht.context hins.frame
  have hfocus := lower_focus hlen1 hlen2 ht.sorted hl hr
  have helems : elems (.node a (bs1 ++ sb :: bs2) (cs1 ++ c' :: btn :: cs2)) =
      withNew new (elems (.node a (bs1 ++ bs2) (cs1 ++ c :: cs2))) := by
    have hjoin : elems c' ++ sb :: elems btn = _ := hins.elems
    rw [elems_window a c' btn sb hlen1 hlen2, hjoin, withNew, hfocus.1, hfocus.2]
    simp
  have hnd := ht.nodup_insert new hx hnb
  rw [← helems] at hnd
  have hloc : Located listblock (h₁.repoint a bs1.length (sb :: bs2)).sb
      (.node a (bs1 ++ sb :: bs2) (cs1 ++ c' :: btn :: cs2)) := by
    refine located_reRow (rowLocated_append.1 hrow).1
      (forall_mem_middle.2 ⟨?_, hins.balanced.located⟩) hnd
    exact forall_mem_middle.2 ⟨hcs, hins.balanced.right _ _ rfl⟩
  have hshape : Shape treeNodeMid (treeNodeSize - 1) lo treeNodeSize (n + 1)
      (.node a (bs1 ++ sb :: bs2) (cs1 ++ c' :: btn :: cs2)) := by
    obtain ⟨hbounds, hlen, hcs'⟩ := hs
    obtain ⟨hsl, hsr⟩ := hins.balanced.shapes _ _ rfl
    simp only [length_append, length_cons, treeNodeSize] at hbounds hlen
    refine ⟨?_, ?_, ?_⟩
    · simp only [length_append, length_cons, treeNodeSize]
      omega
    · simp only [length_append, length_cons]
      omega
    · exact forall_mem_middle.2 ⟨forall_mem_middle.2 ⟨(forall_mem_middle.1 hcs').1, hsr⟩, hsl⟩
  obtain ⟨h', t', up, heq, hsplit⟩ := splitNode_spec hshape hloc hnd
  refine ⟨h', t', up, heq, hsplit.inserted helems hnb ?_ hins.lists ?_ hins.fresh⟩
  · intro y hy hlt
    have hy' : y ∉ (sb :: bs2).map listblock := by
      have hnot := notMem_insert hy (hlt.trans_eq hnb.symm).ne
      rw [← helems] at hnot
      refine fun hmem => hnot (map_subset _ (row_sublist _ _ _).subset ?_)
      rw [map_append]
      exact mem_append_right _ hmem
    rw [← hins.frame y (fun hmem =>
      hy (map_subset _ (child_sublist _ _ _ _ _).subset hmem)) hlt]
    exact repoint_of_notMem hy'
  · rw [addrs_node, addrs_node, flatMap_append, flatMap_append,
      flatMap_cons, flatMap_cons, flatMap_cons, ← cons_append,
      ← cons_append, ← append_assoc (addrs c')]
    exact hins.addrs.focus _ _

end Inner

/-! ## The root -/

/-- The balance condition of a whole tree: the root is a leaf or has at least one block. -/
def RootShape (t : BTreeNode) : Prop := NodeShape 0 0 t ∨ ∃ n, NodeShape 1 (n + 1) t

theorem RootShape.children_eq_nil (hs : RootShape (.node a [] cs)) : cs = [] := by
  rcases hs with hs | ⟨n, hs⟩
  · exact hs.2
  · exact absurd hs.row.1 (by decide)

/-- A root with blocks has a shape with a positive lower bound. -/
theorem RootShape.cases (hs : RootShape (.node a bs cs)) (hne : bs.length ≠ 0) :
    ∃ lo n, 1 ≤ lo ∧ NodeShape lo n (.node a bs cs) ∧ ∀ t, NodeShape lo n t → RootShape t := by
  rcases hs with hs | ⟨n, hs⟩
  · refine ⟨1, 0, le_rfl, hs.bounds (by omega) hs.row.2, ?_⟩
    rintro ⟨a', bs', cs'⟩ hs'
    exact .inl (hs'.bounds (Nat.zero_le _) hs'.row.2)
  · exact ⟨1, n + 1, le_rfl, hs, fun t hs' => .inr ⟨n, hs'⟩⟩

/-- A block has been inserted into a whole tree. -/
structure TreeInserted (P : Nat → Nat → Prop) (h : Heap) (t : BTreeNode) (new : SlotBlock)
    (h' : Heap) (t' : BTreeNode) : Prop where
  root : RootShape t'
  ok : TreeOk h' t'
  elems : t'.elems = lower startslot new.startslot t.elems ++
    new :: upper startslot new.startslot t.elems
  lists : h'.Binned fun x b => P x b ∨ (x = h.fresh ∧ b = listBin new.nslots)
  addrs : h.Allocates h' t.addrs t'.addrs
  fresh : h.fresh < h'.fresh

section Root

variable (ht : TreeOk h t) (hx : ∀ e ∈ t.elems, e.startslot ≠ new.startslot)
  (hnb : new.listblock = h.fresh)

include ht hx hnb

/-- The blocks with the new one are what the functions rely on. -/
theorem TreeOk.insert (helems : t'.elems = withNew new t.elems) (hloc : Located listblock h'.sb t')
    (hf : h.fresh < h'.fresh) : TreeOk h' t' := by
  refine ⟨?_, hloc, ?_, ?_⟩
  · rw [helems, Sorted, pairwise_append, pairwise_cons]
    refine ⟨ht.sorted.filter _, ⟨fun e he => (mem_upper.1 he).2, ht.sorted.filter _⟩, ?_⟩
    intro e he e' he'
    have hlt := (mem_lower.1 he).2
    rcases mem_cons.1 he' with rfl | he'
    · exact hlt
    · exact Int.lt_trans hlt (mem_upper.1 he').2
  · rw [helems]
    exact ht.nodup_insert new hx hnb
  · intro e he
    rw [helems, mem_append, mem_cons] at he
    rcases he with he | rfl | he
    · exact (ht.fresh e (mem_lower.1 he).1).trans hf
    · rwa [hnb]
    · exact (ht.fresh e (mem_upper.1 he).1).trans hf

theorem Inserted.root_none (hins : Inserted P lo n h t new h' t' none) (hroot : RootShape t') :
    TreeInserted P h t new h' t' :=
  ⟨hroot, ht.insert hx hnb hins.elems hins.balanced.located hins.fresh, hins.elems, hins.lists,
    hins.addrs, hins.fresh⟩

/-- `create_btree_node` for the new root. -/
theorem Inserted.root_some {btn : BTreeNode}
    (hins : Inserted P lo n h t new h' t' (some (sb, btn))) :
    TreeInserted P h t new { h'.repoint h'.fresh 0 [sb] with fresh := h'.fresh + 1 }
      (.node h'.fresh [sb] [t', btn]) := by
  obtain ⟨hsl, hsr⟩ := hins.balanced.shapes _ _ rfl
  have helems : BTree.elems (.node h'.fresh [sb] [t', btn]) = withNew new t.elems := by
    rw [withNew, ← hins.elems, elems_node]
    simp [weave, joined]
  have hnd := ht.nodup_insert new hx hnb
  rw [← helems] at hnd
  have hchild : ∀ c ∈ [t', btn], Located listblock h'.sb c := by
    intro c hc
    rcases mem_pair.1 hc with rfl | rfl
    · exact hins.balanced.located
    · exact hins.balanced.right _ _ rfl
  have hloc : Located listblock (h'.repoint h'.fresh 0 [sb]).sb
      (.node h'.fresh ([] ++ [sb]) [t', btn]) :=
    located_reRow (by simp [RowLocated, row]) hchild hnd
  refine ⟨.inr ⟨n, ⟨le_rfl, by simp [treeNodeSize]⟩, rfl, ?_⟩,
    ht.insert hx hnb helems hloc (hins.fresh.trans (Nat.lt_succ_self _)), helems, hins.lists, ?_,
    hins.fresh.trans (Nat.lt_succ_self _)⟩
  · intro c hc
    rcases mem_pair.1 hc with rfl | rfl
    · exact hsl
    · exact hsr
  · refine hins.addrs.trans (Heap.Allocates.node rfl ?_)
    rw [addrs_node, joinedAddrs]
    simp

end Root

section Spec

variable (hP : h.Binned P) (hfun : ∀ x b b', P x b → P x b' → b = b') (h0 : h.fresh ≠ 0)
  (hnew : ∀ b, ¬ P h.fresh b) {x k : Int} (h1 : 1 ≤ k) (h2 : k ≤ 2 ^ 62)

include hP hfun h0 hnew h1 h2

/-- Insertion into a leaf. -/
theorem insert_leaf (hlo : 1 ≤ lo) (hs : NodeShape lo 0 (.node a bs []))
    (ht : TreeOk h (.node a bs [])) (hx : ∀ e ∈ elems (.node a bs []), e.startslot ≠ x) :
    ∃ h' t' up, btreeInsertInt h (.node a bs []) x k = some (h', t', up) ∧
      Inserted P lo 0 h (.node a bs []) ⟨x, k, h.fresh⟩ h' t' up := by
  obtain ⟨bs1, bs2, rfl, hl, hr⟩ := ht.row_split fun e he => hx e ((row_sublist _ _ _).subset he)
  have hne : bs1 ++ bs2 ≠ [] := length_pos_iff.1 (hlo.trans hs.row.1)
  obtain ⟨h₁, hins, hlists, hsb, hf⟩ := listInsert_spec (h := h.repoint a (bs1.length + 1) bs2)
    hP hfun h0 hnew (a, bs1.length) h1 h2
  have hwrite : h₁.sb = write listblock h.sb
      (row a (bs1.length + 1) bs2 ++ [((a, bs1.length), ⟨x, k, h.fresh⟩)]) := by
    rw [hsb, write_append, ← repoint_eq_write]
    rfl
  have hnd := ht.nodup_insert ⟨x, k, h.fresh⟩ hx rfl
  have helems : elems (.node a (bs1 ++ ⟨x, k, h.fresh⟩ :: bs2) []) =
      withNew ⟨x, k, h.fresh⟩ (elems (.node a (bs1 ++ bs2) [])) := by
    have := lower_middle (m := []) hl hr
    rw [nil_append] at this
    rw [elems_leaf, elems_leaf, withNew, this.1, this.2]
    simp [lower, upper]
  rw [← helems] at hnd
  have hloc : Located listblock h₁.sb (.node a (bs1 ++ ⟨x, k, h.fresh⟩ :: bs2) []) := by
    rw [hwrite]
    refine write_located hnd ?_ fun y hy => ?_
    · intro y
      simp only [mem_cells, row_append, row, mem_append, mem_cons, zero_add]
      tauto
    · have hold := ht.located y
      simp only [mem_cells, row_append, row, mem_append, mem_cons, zero_add] at hy hold ⊢
      tauto
  rw [btreeInsertInt_leaf a (insertIndex_spec hne hl hr), hins, bind_some]
  have hshape : Shape treeNodeMid (treeNodeSize - 1) lo treeNodeSize 0
      (.node a (bs1 ++ ⟨x, k, h.fresh⟩ :: bs2) []) := by
    have hrow := hs.row
    simp only [length_append, treeNodeSize] at hrow
    refine ⟨⟨?_, ?_⟩, rfl⟩ <;> simp only [length_append, length_cons, treeNodeSize] <;>
      omega
  obtain ⟨h', t', up, heq, hsplit⟩ := splitNode_spec hshape hloc hnd
  refine ⟨h', t', up, heq, hsplit.inserted helems rfl ?_ hlists ?_ ?_⟩
  · intro y hy hlt
    rw [hwrite]
    refine write_of_notMem fun hmem => hy ?_
    rw [map_append, row_map_snd, map_append, mem_append] at hmem
    rw [elems_leaf, map_append]
    exact mem_append_right _ (hmem.resolve_right fun hnew => hlt.ne (by simpa using hnew))
  · refine Heap.Allocates.of_perm ?_ ?_
    · rw [hf]
      exact Nat.le_succ _
    · rw [addrs_node, addrs_node]
  · rw [hf]
    exact Nat.lt_succ_self _

/-- Insertion into a tree of any height. -/
theorem btreeInsertInt_spec : ∀ {n lo : Nat} {t : BTreeNode}, 1 ≤ lo → NodeShape lo n t →
    TreeOk h t → (∀ e ∈ t.elems, e.startslot ≠ x) →
    ∃ h' t' up, btreeInsertInt h t x k = some (h', t', up) ∧
      Inserted P lo n h t ⟨x, k, h.fresh⟩ h' t' up := by
  intro n
  induction n with
  | zero =>
    rintro lo ⟨a, bs, cs⟩ hlo hs ht hx
    obtain ⟨hrow, rfl⟩ := hs
    exact insert_leaf hP hfun h0 hnew h1 h2 hlo ⟨hrow, rfl⟩ ht hx
  | succ n ih =>
    rintro lo ⟨a, bs, cs⟩ hlo hs ht hx
    obtain ⟨bs1, bs2, rfl, hl, hr⟩ := ht.row_split fun e he => hx e ((row_sublist _ _ _).subset he)
    have hne : bs1 ++ bs2 ≠ [] := length_pos_iff.1 (hlo.trans hs.row.1)
    -- the child to descend to has as many siblings before it as there are blocks below `x`
    obtain ⟨cs1, c, cs2, rfl, hlen1, hlen2⟩ := exists_child hs.2.1
    have hc : c ∈ cs1 ++ c :: cs2 := mem_append_right _ mem_cons_self
    obtain ⟨h₁, c', up, hrec, hins⟩ := ih (by decide) (hs.2.2 c hc) (ht.child hc)
      fun e he => hx e (mem_elems_node.2 (.inl ⟨c, hc, he⟩))
    rw [btreeInsertInt_inner a c (insertIndex_spec hne hl hr) hlen1, hrec, bind_some]
    cases up with
    | none => exact ⟨_, _, _, rfl, insert_inner_none hs ht hl hr hlen1 hlen2 hins⟩
    | some up => exact insert_inner_some hs ht hl hr hlen1 hlen2 hx rfl hins

/-- `btree_insert` puts the block in its place. -/
theorem btreeInsert_spec (hs : RootShape t) (ht : TreeOk h t)
    (hx : ∀ e ∈ t.elems, e.startslot ≠ x) : ∃ h' t', btreeInsert h t x k = some (h', t') ∧
      TreeInserted P h t ⟨x, k, h.fresh⟩ h' t' := by
  obtain ⟨a, bs, cs⟩ := t
  by_cases hempty : bs.length = 0
  · obtain rfl := length_eq_zero_iff.1 hempty
    obtain rfl := hs.children_eq_nil
    obtain ⟨h', hins, hlists, hsb, hf⟩ := listInsert_spec hP hfun h0 hnew (a, 0) h1 h2
    refine ⟨h', .node a [⟨x, k, h.fresh⟩] [], ?_, ?_⟩
    · rw [btreeInsert, if_pos hempty, hins, map_some]
    · refine ⟨.inl ⟨⟨Nat.zero_le _, by simp [treeNodeSize]⟩, rfl⟩, ?_,
        by simp [elems_leaf, lower, upper],
        hlists, ?_, by omega⟩
      · refine ⟨by simp [elems_leaf], ?_, by simp [elems_leaf], by simp [elems_leaf, hf]⟩
        refine located_node.2 ⟨rowLocated_cons.2 ⟨?_, by simp [RowLocated, row]⟩, by simp⟩
        rw [hsb]
        exact update_self _ _ _
      · exact Heap.Allocates.of_perm (by omega) (by rw [addrs_node, addrs_node])
  · obtain ⟨lo, n, hlo, hs', hroot⟩ := hs.cases hempty
    obtain ⟨h', t', up, hrec, hins⟩ := btreeInsertInt_spec hP hfun h0 hnew h1 h2 hlo hs' ht hx
    rw [btreeInsert, if_neg hempty, hrec, map_some]
    cases up with
    | none => exact ⟨_, _, rfl, hins.root_none ht hx rfl (hroot t' (hins.balanced.shape rfl))⟩
    | some up => exact ⟨_, _, rfl, hins.root_some ht hx rfl⟩

end Spec

end Insert

end CharmRuntime.Isomalloc
