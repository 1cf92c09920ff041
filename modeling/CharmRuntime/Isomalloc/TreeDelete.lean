import CharmRuntime.Isomalloc.TreeInsert

/-!
# Deletion from the slot tree

`btree_delete_int` deletes a block from a leaf. If the block is found in an inner node, a pointer to
its cell is passed down to the leaf with the next larger block, which is moved into the cell. On the
way back a child that has become deficient takes a block from a sibling through the parent, to the
right or to the left, or is merged with a sibling and the block of the parent between them.

The three repairs act on a window of the parent: two neighbouring children and the block between
them. They do not change the order of the blocks and keep the list nodes pointed to their cells
(`fixDeficient_spec`). The result of a deletion is described by `Removed`.
-/

set_option autoImplicit false

namespace CharmRuntime.Isomalloc

open Lib BTree List Option SlotBlock Function

/-- `node->child[i]->num_blocks`. -/
def numBlocksAt (cs : List BTreeNode) (i : Nat) : Nat :=
  match cs[i]? with
  | some (.node _ bs _) => bs.length
  | none => 0

section Fix

variable (h : Heap) (a : Nat) (bs : List SlotBlock) (cs : List BTreeNode)

/-- Rotate to the right around `blocks[i]`: the block of the parent moves to the front of the right
child, and the largest block of the left child moves to the parent. -/
def rotateRight (i : Nat) : Option (Heap × BTreeNode) :=
  match cs[i]?, bs[i]?, cs[i + 1]? with
  | some (.node al bl cl), some p, some (.node ar br cr) =>
    (bl[bl.length - 1]?).map fun q =>
      ((h.repoint ar 0 (p :: br)).repoint a i [q], .node a (bs.set i q)
          ((cs.set i (.node al (bl.take (bl.length - 1)) (cl.take bl.length))).set (i + 1)
            (.node ar (p :: br) (cl.drop bl.length ++ cr))))
  | _, _, _ => none

/-- Rotate to the left around `blocks[i]`: the block of the parent moves to the end of the left
child, and the smallest block of the right child moves to the parent. -/
def rotateLeft (i : Nat) : Option (Heap × BTreeNode) :=
  match cs[i]?, bs[i]?, cs[i + 1]? with
  | some (.node al bl cl), some p, some (.node ar br cr) =>
    (br[0]?).map fun q =>
      (((h.repoint al bl.length [p]).repoint a i [q]).repoint ar 0 (br.drop 1), .node a (bs.set i q)
          ((cs.set i (.node al (bl ++ [p]) (cl ++ cr.take 1))).set (i + 1)
            (.node ar (br.drop 1) (cr.drop 1))))
  | _, _, _ => none

/-- Merge `child[i]`, `blocks[i]` and `child[i+1]` into the left child. -/
def mergeChildren (i : Nat) : Option (Heap × BTreeNode) :=
  match cs[i]?, bs[i]?, cs[i + 1]? with
  | some (.node al bl cl), some p, some (.node _ br cr) =>
    some ((h.repoint al bl.length (p :: br)).repoint a i (bs.drop (i + 1)),
      .node a (bs.eraseIdx i) ((cs.set i (.node al (bl ++ p :: br) (cl ++ cr))).eraseIdx (i + 1)))
  | _, _, _ => none

/-- Rotate or merge if `child[defChild]` is deficient. -/
def repairChild (index defChild : Nat) : Option (Heap × BTreeNode) :=
  if defChild ≠ 0 ∧ numBlocksAt cs (defChild - 1) > treeNodeMid then
    rotateRight h a bs cs (defChild - 1)
  else if defChild + 1 ≤ bs.length ∧ numBlocksAt cs (defChild + 1) > treeNodeMid then
    rotateLeft h a bs cs defChild
  else mergeChildren h a bs cs index

/-- The check for deficient children at the end of `btree_delete_int`. -/
def fixDeficient (index : Nat) : Option (Heap × BTreeNode) :=
  if numBlocksAt cs index < treeNodeMid then repairChild h a bs cs index index
  else if numBlocksAt cs (index + 1) < treeNodeMid then repairChild h a bs cs index (index + 1)
  else some (h, .node a bs cs)

end Fix

/-- `btree_delete_int`. The pointer `sb` is passed with the block it points to, and the block that
is written to it is returned. -/
def btreeDeleteInt (h : Heap) (node : BTreeNode) (startslot : Int)
    (sb : Option (Ptr × SlotBlock)) : Option (Heap × BTreeNode × Option SlotBlock) :=
  match node with
  | .node a bs cs =>
    match sb with
    | some (p, b) =>
      match _hc : cs[0]? with
      | some c =>
        (btreeDeleteInt h c startslot (some (p, b))).bind fun r =>
          (fixDeficient r.1 a bs (cs.set 0 r.2.1) 0).map fun r' => (r'.1, r'.2, r.2.2)
      | none =>
        (listDelete h b).bind fun h =>
          (bs[0]?).map fun m =>
            (Heap.repoint { h with sb := update h.sb m.listblock p } a 0 (bs.drop 1),
              .node a (bs.drop 1) cs, some m)
    | none =>
      (deleteIndex bs startslot).bind fun index =>
        (bs[index]?).bind fun b =>
          if startslot = b.startslot then
            match _hc : cs[index + 1]? with
            | some c =>
              (btreeDeleteInt h c startslot (some ((a, index), b))).bind fun r =>
                r.2.2.bind fun m =>
                  (fixDeficient r.1 a (bs.set index m) (cs.set (index + 1) r.2.1) index).map
                    fun r' => (r'.1, r'.2, none)
            | none =>
              (listDelete h b).map fun h =>
                (h.repoint a index (bs.drop (index + 1)), .node a (bs.eraseIdx index) cs, none)
          else
            match _hc : cs[takeChild b startslot index]? with
            | none => none
            | some c =>
              (btreeDeleteInt h c startslot none).bind fun r =>
                (fixDeficient r.1 a bs (cs.set (takeChild b startslot index) r.2.1) index).map
                  fun r' => (r'.1, r'.2, none)
termination_by node
decreasing_by
  all_goals
    have := sizeOf_lt_of_mem (mem_of_getElem? _hc)
    simp only [BTree.node.sizeOf_spec]
    omega

/-- The left-most child of an empty root becomes the new root. -/
def dropEmptyRoot : BTreeNode → BTreeNode
  | .node _ [] (c :: _) => c
  | t => t

/-- `btree_delete`. -/
def btreeDelete (h : Heap) (node : BTreeNode) (startslot : Int) : Option (Heap × BTreeNode) :=
  (btreeDeleteInt h node startslot none).map fun r => (r.1, dropEmptyRoot r.2.1)

/-! ## Repairing a window -/

theorem exists_concat {α : Type} {l : List α} (hne : l ≠ []) : ∃ l' x, l = l' ++ [x] :=
  ⟨_, _, (dropLast_append_getLast hne).symm⟩

theorem eraseIdx_length {α : Type} (l1 l2 : List α) (x : α) :
    (l1 ++ x :: l2).eraseIdx l1.length = l1 ++ l2 := by
  rw [eraseIdx_append_of_length_le le_rfl, Nat.sub_self, eraseIdx_cons_zero]

/-- A node has been repaired: its blocks are the same, and all its children are balanced. -/
structure Repaired (lo n : Nat) (h : Heap) (t : BTreeNode) (h' : Heap) (t' : BTreeNode) : Prop where
  shape : NodeShape lo n t'
  located : Located listblock h'.sb t'
  elems : t'.elems = t.elems
  frame : ∀ y, y ∉ t.elems.map listblock → h'.sb y = h.sb y
  lists : ∀ P, h.Binned P → h'.Binned P
  fresh : h'.fresh = h.fresh
  addrs : t'.addrs.Subperm t.addrs

/-- Point the list nodes of the blocks of some cells to them. -/
def Heap.write (h : Heap) (w : List (Ptr × SlotBlock)) : Heap :=
  { h with sb := BTree.write listblock h.sb w }

theorem Heap.repoint_eq (h : Heap) (a i : Nat) (bs : List SlotBlock) :
    h.repoint a i bs = h.write (row a i bs) := by
  rw [Heap.repoint, repoint_eq_write, Heap.write]

theorem Heap.write_write (h : Heap) (w w' : List (Ptr × SlotBlock)) :
    (h.write w).write w' = h.write (w ++ w') := by
  rw [Heap.write, Heap.write, Heap.write, write_append]

/-- Blocks that stay in order may move to other cells if each that moves is written. -/
theorem Repaired.of_write {lo n : Nat} {h : Heap} {t t' : BTreeNode} {w : List (Ptr × SlotBlock)}
    (hl : Located listblock h.sb t) (hnd : (t.elems.map listblock).Nodup)
    (hshape : NodeShape lo n t')
    (helems : t'.elems = t.elems) (haddrs : t'.addrs.Subperm t.addrs) (hw : w ⊆ t'.cells)
    (hcells : t'.cells ⊆ w ++ t.cells) : Repaired lo n h t (h.write w) t' := by
  rw [← helems] at hnd
  refine ⟨hshape, write_located hnd hw fun x hx => ?_, helems,
    fun y hy => write_of_notMem fun hmem => hy ?_, fun _ hP => hP, rfl, haddrs⟩
  · exact (mem_append.1 (hcells hx)).imp_right (hl x)
  · rw [← helems]
    exact map_subset _ (map_subset _ hw) hmem

section Rotate

variable {n al ar : Nat} {bl br : List SlotBlock} {cl cr xs : List BTreeNode}
  (hkl : Kids treeNodeMid (treeNodeSize - 1) n bl.length cl)
  (hkx : Kids treeNodeMid (treeNodeSize - 1) n 0 xs)
  (hkr : Kids treeNodeMid (treeNodeSize - 1) n br.length cr)

include hkl hkx hkr

/-- A block and the child beside it move between two nodes. -/
theorem elems_moved (al ar : Nat) (p q : SlotBlock) :
    elems (.node al (bl ++ [p]) (cl ++ xs)) ++ q :: elems (.node ar br cr) =
      elems (.node al bl cl) ++ p :: elems (.node ar (q :: br) (xs ++ cr)) := by
  have hl : elems (.node al (bl ++ [p]) (cl ++ xs)) =
      elems (.node al bl cl) ++ p :: elems (.node ar [] xs) := hkl.elems al ar p hkx
  have hr : elems (.node ar ([] ++ q :: br) (xs ++ cr)) =
      elems (.node ar [] xs) ++ q :: elems (.node ar br cr) := Kids.elems ar ar q hkx hkr
  rw [nil_append] at hr
  rw [hl, hr]
  simp

omit hkl hkx hkr in
theorem addrs_moved (p q : SlotBlock) :
    (addrs (.node al (bl ++ [p]) (cl ++ xs)) ++ addrs (.node ar br cr)).Perm
      (addrs (.node al bl cl) ++ addrs (.node ar (q :: br) (xs ++ cr))) := by
  simp only [addrs_node, flatMap_append, cons_append]
  refine Perm.cons al ?_
  rw [append_assoc]
  refine Perm.append_left _ ?_
  exact perm_middle

end Rotate

variable {a i lo n : Nat} {cs cs1 cs2 : List BTreeNode} {h : Heap} {t : BTreeNode}

theorem numBlocksAt_length (bs : List SlotBlock) (hi : cs1.length = i) :
    numBlocksAt (cs1 ++ .node a bs cs :: cs2) i = bs.length := by
  rw [numBlocksAt, ← hi]
  simp

/-- Two children of a node and the block `p` between them. -/
@[mk_iff]
structure Window (lo n : Nat) (h : Heap) (a : Nat) (bs : List SlotBlock) (cs : List BTreeNode)
    (bs1 bs2 : List SlotBlock) (cs1 cs2 : List BTreeNode) (l : BTreeNode) (p : SlotBlock)
    (r : BTreeNode) : Prop where
  blocks : bs = bs1 ++ p :: bs2
  children : cs = cs1 ++ l :: r :: cs2
  left : cs1.length = bs1.length
  right : cs2.length = bs2.length
  located : Located listblock h.sb (.node a bs cs)
  nodup : ((elems (.node a bs cs)).map listblock).Nodup
  row : lo ≤ bs.length ∧ bs.length ≤ treeNodeSize - 1
  outside : ∀ c ∈ cs1 ++ cs2, NodeShape treeNodeMid n c

/-- One of two neighbours may have lost a block. -/
def Deficient (n : Nat) (l r : BTreeNode) : Prop :=
  (NodeShape (treeNodeMid - 1) n l ∧ NodeShape treeNodeMid n r) ∨
    (NodeShape treeNodeMid n l ∧ NodeShape (treeNodeMid - 1) n r)

/-- A repair of the node succeeds. -/
def Repairs (lo n : Nat) (h : Heap) (t : BTreeNode) (o : Option (Heap × BTreeNode)) : Prop :=
  ∃ h' t', o = some (h', t') ∧ Repaired lo n h t h' t'

theorem Repairs.pred {o : Option (Heap × BTreeNode)}
    (hr : Repairs lo n h t o) : Repairs (lo - 1) n h t o := by
  obtain ⟨h', ⟨a, bs, cs⟩, heq, hr⟩ := hr
  have hs := hr.shape
  exact ⟨h', _, heq, { hr with shape := hs.bounds ((Nat.sub_le _ _).trans hs.row.1) hs.row.2 }⟩

namespace Window

variable {lo n a : Nat} {h h' : Heap} {bs bs1 bs2 : List SlotBlock} {p q : SlotBlock}
  {cs cs1 cs2 : List BTreeNode} {l r l' r' : BTreeNode}

/-- A window and the one to its left. -/
theorem shift_iff {p' : SlotBlock} {c : BTreeNode} :
    Window lo n h a bs cs (bs1 ++ [p']) bs2 (cs1 ++ [c]) cs2 l p r ∧ NodeShape treeNodeMid n r ↔
      Window lo n h a bs cs bs1 (p :: bs2) cs1 (r :: cs2) c p' l ∧ NodeShape treeNodeMid n c := by
  simp only [window_iff, append_assoc, singleton_append, length_append, length_cons, length_nil,
    add_left_inj, forall_mem_middle]
  tauto

variable (w : Window lo n h a bs cs bs1 bs2 cs1 cs2 l p r)

include w

theorem elems_eq : elems (.node a bs cs) =
    before (cs1.map elems) bs1 ++ ((l.elems ++ p :: r.elems) ++ after bs2 (cs2.map elems)) := by
  rw [w.blocks, w.children]
  exact elems_window a l r p w.left w.right

/-- The children of a window and the block between them are replaced, and the blocks that move are
written. -/
theorem rotate {w' : List (Ptr × SlotBlock)} (hl : NodeShape treeNodeMid n l')
    (hr : NodeShape treeNodeMid n r') (helems : l'.elems ++ q :: r'.elems = l.elems ++ p :: r.elems)
    (haddrs : (l'.addrs ++ r'.addrs).Perm (l.addrs ++ r.addrs))
    (hw : w' ⊆ cells (.node a (bs1 ++ q :: bs2) (cs1 ++ l' :: r' :: cs2)))
    (hcells : cells (.node a (bs1 ++ q :: bs2) (cs1 ++ l' :: r' :: cs2)) ⊆
      w' ++ cells (.node a bs cs)) :
    Repaired lo (n + 1) h (.node a bs cs) (h.write w')
      (.node a (bs1 ++ q :: bs2) (cs1 ++ l' :: r' :: cs2)) := by
  refine .of_write w.located w.nodup ⟨?_, ?_, ?_⟩ ?_ ?_ hw hcells
  · simpa [w.blocks] using w.row
  · simp only [length_append, length_cons, w.left, w.right]
    omega
  · exact forall_mem_middle.2 ⟨forall_mem_middle.2 ⟨w.outside, hr⟩, hl⟩
  · rw [w.elems_eq, elems_window a l' r' q w.left w.right, helems]
  · refine Perm.subperm ?_
    rw [w.children, addrs_node, addrs_node]
    simp only [flatMap_append, flatMap_cons]
    rw [← append_assoc (addrs l'), ← append_assoc (addrs l)]
    exact ((haddrs.append_right _).append_left _).cons a

variable {bl br : List SlotBlock} {cl cr : List BTreeNode} {al ar : Nat}

section

variable (hl : l = .node al bl cl)

include hl

/-- Merging two children and the block between them repairs a node. -/
theorem merge (hr : r = .node ar br cr) (hkl : Kids treeNodeMid (treeNodeSize - 1) n bl.length cl)
    (hkr : Kids treeNodeMid (treeNodeSize - 1) n br.length cr)
    (hlen : treeNodeMid ≤ (bl ++ p :: br).length ∧ (bl ++ p :: br).length ≤ treeNodeSize - 1) :
    Repaired (lo - 1) (n + 1) h (.node a bs cs)
      ((h.repoint al bl.length (p :: br)).repoint a bs1.length bs2)
      (.node a (bs1 ++ bs2) (cs1 ++ .node al (bl ++ p :: br) (cl ++ cr) :: cs2)) := by
  subst hl hr
  rw [Heap.repoint_eq, Heap.repoint_eq, Heap.write_write]
  refine .of_write w.located w.nodup ⟨?_, ?_, ?_⟩ ?_ ?_ (fun x => ?_) fun x => ?_
  · have hrow := w.row
    rw [w.blocks] at hrow
    simp only [length_append, length_cons] at hrow ⊢
    omega
  · simp only [length_append, length_cons, w.left, w.right]
    omega
  · refine forall_mem_middle.2 ⟨w.outside, shape_iff.2 ⟨hlen, ?_⟩⟩
    have := hkl.append hkr
    rwa [add_assoc, add_comm 1, ← length_cons (a := p), ← length_append] at this
  · rw [elems_focus a _ w.left w.right, hkl.elems al ar p hkr, w.elems_eq]
  · rw [w.children, addrs_node, addrs_node]
    simp only [flatMap_append, flatMap_cons, addrs_node, cons_append, append_assoc]
    refine Sublist.subperm (Sublist.cons_cons a ?_)
    refine (Sublist.refl _).append (Sublist.cons_cons al ?_)
    exact (Sublist.refl _).append (sublist_cons_self _ _)
  · simp only [mem_cells, flatMap_append, flatMap_cons, row_append, mem_append, zero_add]
    tauto
  · simp only [w.blocks, w.children, mem_cells, flatMap_append, flatMap_cons, row_append,
      mem_append, zero_add]
    tauto

omit hl in
/-- `rotateRight` repairs a deficient right child. -/
theorem rotateRight_spec (hl : NodeShape (treeNodeMid + 1) n l) (hr : r = .node ar br cr)
    (hsr : NodeShape (treeNodeMid - 1) n r) (hdef : br.length < treeNodeMid) :
    Repairs lo (n + 1) h (.node a bs cs) (rotateRight h a bs cs bs1.length) := by
  obtain ⟨al, bl, cl⟩ := l
  obtain ⟨hbl, hkl⟩ := shape_iff.1 hl
  subst hr
  obtain ⟨hbr, hkr⟩ := shape_iff.1 hsr
  obtain ⟨bl, q, rfl⟩ := exists_concat (length_pos_iff.1 ((Nat.succ_pos _).trans_le hbl.1))
  have hlen : (bl ++ [q]).length = bl.length + 1 := by simp
  have hcl : cl = cl.take (bl.length + 1) ++ cl.drop (bl.length + 1) :=
    (take_append_drop _ _).symm
  have hkl' : Kids treeNodeMid (treeNodeSize - 1) n (bl.length + 1 + 0) cl := by
    rwa [hlen] at hkl
  obtain ⟨hk1, hk0⟩ := hkl'.split
  have heq : rotateRight h a bs cs bs1.length =
      some ((h.repoint ar 0 (p :: br)).repoint a bs1.length [q],
        .node a (bs1 ++ q :: bs2) (cs1 ++ .node al bl (cl.take (bl.length + 1)) ::
          .node ar (p :: br) (cl.drop (bl.length + 1) ++ cr) :: cs2)) := by
    rw [rotateRight, w.blocks, w.children, ← w.left]
    simp [w.left]
  rw [Heap.repoint_eq, Heap.repoint_eq, Heap.write_write] at heq
  refine ⟨_, _, heq, ?_⟩
  generalize cl.take (bl.length + 1) = cl1 at *
  generalize cl.drop (bl.length + 1) = xs at *
  subst hcl
  refine w.rotate (shape_iff.2 ⟨?_, hk1⟩) (shape_iff.2 ⟨?_, ?_⟩)
    (elems_moved hk1 hk0 hkr al ar q p).symm
    (addrs_moved q p).symm (fun x => ?_) fun x => ?_
  · omega
  · rw [length_cons]
    omega
  · have := hk0.append hkr
    rwa [zero_add, add_comm] at this
  · simp only [mem_cells, flatMap_append, flatMap_cons, row_append, BTree.row, mem_append,
      mem_cons, zero_add]
    tauto
  · simp only [w.blocks, w.children, mem_cells, flatMap_append, flatMap_cons, row_append, BTree.row,
      mem_append, mem_cons, zero_add]
    tauto

/-- `rotateLeft` repairs a deficient left child. -/
theorem rotateLeft_spec (hsl : NodeShape (treeNodeMid - 1) n l)
    (hdef : bl.length < treeNodeMid) (hr : NodeShape (treeNodeMid + 1) n r) :
    Repairs lo (n + 1) h (.node a bs cs) (rotateLeft h a bs cs bs1.length) := by
  obtain ⟨ar, br, cr⟩ := r
  obtain ⟨hbr, hkr⟩ := shape_iff.1 hr
  subst hl
  obtain ⟨hbl, hkl⟩ := shape_iff.1 hsl
  cases br with
  | nil => exact absurd hbr.1 (by decide)
  | cons q br =>
    have hcr : cr = cr.take (0 + 1) ++ cr.drop (0 + 1) := (take_append_drop _ _).symm
    have hkr' : Kids treeNodeMid (treeNodeSize - 1) n (0 + 1 + br.length) cr := by
      rwa [length_cons, add_comm, ← zero_add 1] at hkr
    obtain ⟨hk0, hk2⟩ := hkr'.split
    have heq : rotateLeft h a bs cs bs1.length =
        some (((h.repoint al bl.length [p]).repoint a bs1.length [q]).repoint ar 0 br,
          .node a (bs1 ++ q :: bs2) (cs1 ++ .node al (bl ++ [p]) (cl ++ cr.take (0 + 1)) ::
            .node ar br (cr.drop (0 + 1)) :: cs2)) := by
      rw [rotateLeft, w.blocks, w.children, ← w.left]
      simp [w.left]
    rw [Heap.repoint_eq, Heap.repoint_eq, Heap.repoint_eq, Heap.write_write, Heap.write_write]
      at heq
    refine ⟨_, _, heq, ?_⟩
    generalize cr.take (0 + 1) = xs at *
    generalize cr.drop (0 + 1) = cr2 at *
    subst hcr
    refine w.rotate (shape_iff.2 ⟨?_, ?_⟩) (shape_iff.2 ⟨?_, hk2⟩)
      (elems_moved hkl hk0 hk2 al ar p q)
      (addrs_moved p q) (fun x => ?_) fun x => ?_
    · rw [length_append, length_singleton]
      omega
    · rw [length_append, length_singleton]
      exact hkl.append hk0
    · rw [length_cons] at hbr
      omega
    · simp only [mem_cells, flatMap_append, flatMap_cons, row_append, BTree.row, mem_append,
        mem_cons, zero_add]
      tauto
    · simp only [w.blocks, w.children, mem_cells, flatMap_append, flatMap_cons, row_append,
        BTree.row, mem_append, mem_cons, zero_add]
      tauto

/-- `mergeChildren` repairs two children that have a few blocks. -/
theorem mergeChildren_spec (hsl : NodeShape (treeNodeMid - 1) n l)
    (hr : r = .node ar br cr) (hsr : NodeShape (treeNodeMid - 1) n r)
    (hfew : bl.length + br.length < treeNodeMid + treeNodeMid) :
    Repairs (lo - 1) (n + 1) h (.node a bs cs) (mergeChildren h a bs cs bs1.length) := by
  have hsl' := hl ▸ hsl
  have hsr' := hr ▸ hsr
  obtain ⟨hbl, hkl⟩ := shape_iff.1 hsl'
  obtain ⟨hbr, hkr⟩ := shape_iff.1 hsr'
  have heq : mergeChildren h a bs cs bs1.length =
      some ((h.repoint al bl.length (p :: br)).repoint a bs1.length bs2,
        .node a (bs1 ++ bs2) (cs1 ++ .node al (bl ++ p :: br) (cl ++ cr) :: cs2)) := by
    have herase := eraseIdx_length (cs1 ++ [.node al (bl ++ p :: br) (cl ++ cr)]) cs2 r
    rw [append_assoc, append_assoc, singleton_append, singleton_append,
      length_append, length_singleton, w.left, hr] at herase
    have hp := eraseIdx_length bs1 bs2 p
    rw [mergeChildren, w.blocks, w.children, ← w.left]
    simp [w.left, hl, hr, herase, hp]
  refine ⟨_, _, heq, w.merge hl hr hkl hkr ?_⟩
  rw [length_append, length_cons]
  rw [treeNodeMid, treeNodeSize] at *
  omega

theorem numBlocks_left : numBlocksAt cs bs1.length = bl.length := by
  rw [w.children, hl]
  exact numBlocksAt_length _ w.left

end

theorem numBlocks_right (hr : r = .node ar br cr) :
    numBlocksAt cs (bs1.length + 1) = br.length := by
  rw [w.children, hr, ← singleton_append, ← append_assoc]
  exact numBlocksAt_length _ (by simp [w.left])

/-- The left child of the window is deficient. -/
theorem repairChild_left (hl : NodeShape (treeNodeMid - 1) n l) (hr : NodeShape treeNodeMid n r)
    (hl' : l = .node al bl cl) (hdef : bl.length < treeNodeMid) :
    Repairs (lo - 1) (n + 1) h (.node a bs cs) (repairChild h a bs cs bs1.length bs1.length) := by
  rw [repairChild]
  by_cases hleft : bs1.length ≠ 0 ∧ numBlocksAt cs (bs1.length - 1) > treeNodeMid
  · -- rotate to the right around the block before the window
    rw [if_pos hleft]
    obtain ⟨bs1, p', rfl⟩ := exists_concat (length_pos_iff.1 (Nat.pos_of_ne_zero hleft.1))
    obtain ⟨cs1, ⟨ac, bc, cc⟩, rfl⟩ := exists_concat (l := cs1) (length_pos_iff.1 (by
      rw [w.left]
      exact Nat.pos_of_ne_zero hleft.1))
    have w' := (shift_iff.1 ⟨w, hr⟩).1
    rw [length_append, length_singleton, Nat.add_sub_cancel] at hleft ⊢
    have hc := w.outside (.node ac bc cc) (by simp)
    have hbig : treeNodeMid < bc.length := by
      rw [← w'.numBlocks_left rfl]
      exact hleft.2
    exact (w'.rotateRight_spec (hc.bounds hbig hc.row.2) hl' hl hdef).pred
  · rw [if_neg hleft]
    obtain ⟨ar, br, cr⟩ := r
    have hnr := w.numBlocks_right rfl
    by_cases hright : br.length > treeNodeMid
    · rw [if_pos ⟨by simp [w.blocks], by rwa [hnr]⟩]
      exact (w.rotateLeft_spec hl' hl hdef (hr.bounds hright hr.row.2)).pred
    · rw [if_neg fun hcon => hright (by rw [← hnr]; exact hcon.2)]
      refine w.mergeChildren_spec hl' hl rfl
        (hr.bounds ((Nat.sub_le _ _).trans hr.row.1) hr.row.2) ?_
      omega

/-- The right child of the window is deficient. -/
theorem repairChild_right (hl : NodeShape treeNodeMid n l) (hr : NodeShape (treeNodeMid - 1) n r)
    (hr' : r = .node ar br cr) (hdef : br.length < treeNodeMid) :
    Repairs (lo - 1) (n + 1) h (.node a bs cs)
    (repairChild h a bs cs bs1.length (bs1.length + 1)) := by
  obtain ⟨al, bl, cl⟩ := l
  rw [repairChild, Nat.add_sub_cancel, w.numBlocks_left rfl]
  by_cases hleft : bl.length > treeNodeMid
  · rw [if_pos ⟨by simp, hleft⟩]
    exact (w.rotateRight_spec (hl.bounds hleft hl.row.2) hr' hr hdef).pred
  · rw [if_neg fun hcon => hleft hcon.2]
    by_cases hright : bs1.length + 1 + 1 ≤ bs.length ∧
        numBlocksAt cs (bs1.length + 1 + 1) > treeNodeMid
    · -- rotate to the left around the block after the window
      rw [if_pos hright]
      obtain ⟨p', bs2, rfl⟩ : ∃ p' bs, bs2 = p' :: bs := by
        refine exists_cons_of_ne_nil fun hnil => ?_
        rw [w.blocks, hnil] at hright
        exact absurd hright.1 (by simp)
      obtain ⟨⟨ac, bc, cc⟩, cs2, rfl⟩ := exists_cons_of_length_eq_add_one w.right
      have w' := (shift_iff.2 ⟨w, hl⟩).1
      have hlen : (bs1 ++ [p]).length = bs1.length + 1 := by simp
      have hc := w.outside (.node ac bc cc) (mem_append_right _ mem_cons_self)
      have hbig : treeNodeMid < bc.length := by
        rw [← w'.numBlocks_right rfl, hlen]
        exact hright.2
      have hrep := w'.rotateLeft_spec hr' hr hdef (hc.bounds hbig hc.row.2)
      rw [hlen] at hrep
      exact hrep.pred
    · rw [if_neg hright]
      refine w.mergeChildren_spec rfl (hl.bounds ((Nat.sub_le _ _).trans hl.row.1) hl.row.2) hr' hr
        ?_
      omega

/-- The window with the child from which a block has been taken is repaired. -/
theorem fixDeficient_spec (hwin : Deficient n l r) :
    Repairs (lo - 1) (n + 1) h (.node a bs cs) (fixDeficient h a bs cs bs1.length) := by
  obtain ⟨al, bl, cl⟩ := l
  obtain ⟨ar, br, cr⟩ := r
  rw [fixDeficient, w.numBlocks_left rfl, w.numBlocks_right rfl]
  by_cases hdl : bl.length < treeNodeMid
  · rw [if_pos hdl]
    rcases hwin with ⟨hl, hr⟩ | ⟨hl, hr⟩
    · exact w.repairChild_left hl hr rfl hdl
    · exact absurd hdl (Nat.not_lt.2 hl.row.1)
  · rw [if_neg hdl]
    by_cases hdr : br.length < treeNodeMid
    · rw [if_pos hdr]
      rcases hwin with ⟨hl, hr⟩ | ⟨hl, hr⟩
      · exact absurd hdr (Nat.not_lt.2 hr.row.1)
      · exact w.repairChild_right hl hr rfl hdr
    · rw [if_neg hdr]
      have hkids : ∀ c ∈ cs, NodeShape treeNodeMid n c := by
        rw [w.children]
        refine forall_mem_middle.2 ⟨forall_mem_middle.2 ⟨w.outside, ?_⟩, ?_⟩
        · rcases hwin with ⟨-, hr⟩ | ⟨-, hr⟩
          · exact hr
          · exact hr.bounds (Nat.not_lt.1 hdr) hr.row.2
        · rcases hwin with ⟨hl, -⟩ | ⟨hl, -⟩
          · exact hl.bounds (Nat.not_lt.1 hdl) hl.row.2
          · exact hl
      refine ⟨h, _, rfl, ⟨⟨(Nat.sub_le _ _).trans w.row.1, w.row.2⟩, ?_, hkids⟩, w.located, rfl,
        fun _ _ => rfl, fun _ hP => hP, rfl, Subperm.refl _⟩
      simp only [w.blocks, w.children, length_append, length_cons, w.left, w.right]
      omega

end Window

/-! ## Taking out a block -/

/-- The block `e` has been taken out of a tree, and the list node of `d` out of the lists, which
held the list nodes `P`. -/
structure Taken (P : Nat → Nat → Prop) (h : Heap) (t : BTreeNode) (d : SlotBlock)
    (l1 : List SlotBlock) (e : SlotBlock) (l2 : List SlotBlock) (h' : Heap) (t' : BTreeNode) :
    Prop where
  elems : t.elems = l1 ++ e :: l2
  rest : t'.elems = l1 ++ l2
  located : Located listblock h'.sb t'
  frame : ∀ y, y ∉ t.elems.map listblock → h'.sb y = h.sb y
  lists : h'.Binned fun x b => P x b ∧ x ≠ d.listblock
  fresh : h'.fresh = h.fresh
  addrs : t'.addrs.Subperm t.addrs

section Taken

variable {P : Nat → Nat → Prop} {lo n a : Nat} {h h₁ h' : Heap} {t t1 t' c c' : BTreeNode}
  {d e : SlotBlock} {l1 l2 bs1 bs2 : List SlotBlock} {cs1 cs2 : List BTreeNode}

theorem Taken.sublist (ht : Taken P h t d l1 e l2 h' t') : Sublist t'.elems t.elems := by
  rw [ht.rest, ht.elems]
  exact (Sublist.refl _).append (sublist_cons_self _ _)

/-- The repair of a node comes after taking out a block below it. -/
theorem Taken.repair (ht : Taken P h t d l1 e l2 h₁ t1) (hrep : Repaired lo n h₁ t1 h' t') :
    Taken P h t d l1 e l2 h' t' := by
  refine ⟨ht.elems, hrep.elems.trans ht.rest, hrep.located, ?_, hrep.lists _ ht.lists,
    hrep.fresh.trans ht.fresh, hrep.addrs.trans ht.addrs⟩
  intro y hy
  rw [hrep.frame y fun hmem => hy (map_subset _ ht.sublist.subset hmem), ht.frame y hy]

section Child

variable (hlen1 : cs1.length = bs1.length) (hlen2 : cs2.length = bs2.length) {l : BTreeNode}

include hlen1 hlen2

/-- A block is taken out of a child. -/
theorem Taken.context (ht : TreeOk h (.node a (bs1 ++ bs2) (cs1 ++ c :: cs2)))
    (hc : Taken P h c d l1 e l2 h₁ c') :
    Taken P h (.node a (bs1 ++ bs2) (cs1 ++ c :: cs2)) d (before (cs1.map BTree.elems) bs1 ++ l1) e
      (l2 ++ after bs2 (cs2.map BTree.elems)) h₁ (.node a (bs1 ++ bs2) (cs1 ++ c' :: cs2)) := by
  obtain ⟨hrow, hout⟩ := ht.context fun y hy _ => hc.frame y hy
  refine ⟨?_, ?_, located_node.2 ⟨hrow, forall_mem_middle.2 ⟨hout, hc.located⟩⟩, ?_, hc.lists,
    hc.fresh, ?_⟩
  · rw [elems_focus a c hlen1 hlen2, hc.elems]
    simp
  · rw [elems_focus a c' hlen1 hlen2, hc.rest]
    simp
  · exact fun y hy => hc.frame y fun hmem =>
      hy (map_subset _ (child_sublist _ _ _ _ _).subset hmem)
  · simp only [addrs_node, flatMap_append, flatMap_cons]
    rw [subperm_cons, subperm_append_left, subperm_append_right]
    exact hc.addrs

/-- The block `d` of an inner node is overwritten by the next one, which has been taken out of the
child after it. -/
theorem Taken.swap (ht : TreeOk h (.node a (bs1 ++ d :: bs2) (cs1 ++ l :: c :: cs2)))
    (hc : Taken P h c d [] e l2 h₁ c') (hcell : h₁.sb e.listblock = (a, bs1.length)) :
    Taken P h (.node a (bs1 ++ d :: bs2) (cs1 ++ l :: c :: cs2)) d
      (before (cs1.map BTree.elems) bs1 ++ l.elems) d
      (e :: l2 ++ after bs2 (cs2.map BTree.elems)) h₁
      (.node a (bs1 ++ e :: bs2) (cs1 ++ l :: c' :: cs2)) := by
  have hcs : cs1 ++ l :: c :: cs2 = (cs1 ++ [l]) ++ c :: cs2 := by simp
  have hctx : RowLocated listblock h₁.sb a 0 (bs1 ++ d :: bs2) ∧
      ∀ c' ∈ (cs1 ++ [l]) ++ cs2, Located listblock h₁.sb c' := by
    rw [hcs] at ht
    exact ht.context fun y hy _ => hc.frame y hy
  rw [rowLocated_append, rowLocated_cons] at hctx
  obtain ⟨⟨hrow1, -, hrow2⟩, hout⟩ := hctx
  refine ⟨?_, ?_, located_node.2 ⟨?_, ?_⟩, ?_, hc.lists, hc.fresh, ?_⟩
  · rw [elems_window a l c d hlen1 hlen2, hc.elems]
    simp
  · rw [elems_window a l c' e hlen1 hlen2, hc.rest]
    simp
  · refine rowLocated_append.2 ⟨hrow1, rowLocated_cons.2 ⟨?_, hrow2⟩⟩
    rwa [zero_add]
  · rw [append_cons]
    exact forall_mem_middle.2 ⟨hout, hc.located⟩
  · refine fun y hy => hc.frame y fun hmem => hy ?_
    rw [hcs]
    exact map_subset _ (child_sublist _ _ _ _ _).subset hmem
  · simp only [addrs_node, flatMap_append, flatMap_cons]
    rw [subperm_cons, subperm_append_left, subperm_append_left, subperm_append_right]
    exact hc.addrs

/-- Taking out a block of a child and the check for deficient children. -/
theorem Taken.fix {p : SlotBlock} {r : BTreeNode} (ht : TreeOk h t)
    (htaken : Taken P h t d l1 e l2 h₁ (.node a (bs1 ++ p :: bs2) (cs1 ++ l :: r :: cs2)))
    (hrow : lo ≤ (bs1 ++ p :: bs2).length ∧ (bs1 ++ p :: bs2).length ≤ treeNodeSize - 1)
    (hcs : ∀ c ∈ cs1 ++ cs2, NodeShape treeNodeMid n c) (hwin : Deficient n l r) :
    ∃ h' t', fixDeficient h₁ a (bs1 ++ p :: bs2) (cs1 ++ l :: r :: cs2) bs1.length =
        some (h', t') ∧ NodeShape (lo - 1) (n + 1) t' ∧ Taken P h t d l1 e l2 h' t' ∧
      h'.sb e.listblock = h₁.sb e.listblock := by
  have hnd := ht.nodup
  obtain ⟨h', t', heq, hrep⟩ := Window.fixDeficient_spec ⟨rfl, rfl, hlen1, hlen2, htaken.located,
    hnd.sublist (htaken.sublist.map _), hrow, hcs⟩ hwin
  refine ⟨h', t', heq, hrep.shape, htaken.repair hrep, hrep.frame _ ?_⟩
  rw [htaken.elems, map_append, map_cons, nodup_middle, nodup_cons] at hnd
  rw [htaken.rest, map_append]
  exact hnd.1

end Child

variable (htaken : Taken P h t d l1 e l2 h' t')

include htaken

theorem Taken.ok (ht : TreeOk h t) : TreeOk h' t' := by
  refine ⟨ht.sorted.sublist htaken.sublist, htaken.located, ?_, ?_⟩
  · exact ht.nodup.sublist (htaken.sublist.map _)
  · rw [htaken.fresh]
    exact fun e he => ht.fresh e (htaken.sublist.subset he)

/-- An empty inner root has one child, which becomes the root. -/
theorem Taken.dropEmptyRoot (hs : NodeShape 0 n t') :
    RootShape (dropEmptyRoot t') ∧ Taken P h t d l1 e l2 h' (dropEmptyRoot t') := by
  obtain ⟨a, bs, cs⟩ := t'
  cases n with
  | zero =>
    obtain ⟨hrow, rfl⟩ := hs
    have hkeep : Isomalloc.dropEmptyRoot (.node a bs []) = .node a bs [] := by
      cases bs <;> rfl
    rw [hkeep]
    exact ⟨.inl ⟨hrow, rfl⟩, htaken⟩
  | succ n =>
    cases bs with
    | cons b bs => exact ⟨.inr ⟨n, hs.bounds (Nat.succ_pos _) hs.row.2⟩, htaken⟩
    | nil =>
      obtain ⟨-, hlen, hcs⟩ := hs
      obtain ⟨c, rfl⟩ := length_eq_one_iff.1 hlen
      have hc := hcs c mem_cons_self
      have hrest : BTree.elems (.node a [] [c]) = c.elems := by
        rw [elems_node]
        simp [weave]
      refine ⟨?_, htaken.elems, hrest.symm.trans htaken.rest,
        (located_node.1 htaken.located).2 c mem_cons_self, htaken.frame, htaken.lists,
        htaken.fresh, Subperm.trans (Sublist.subperm ?_) htaken.addrs⟩
      · obtain ⟨a', bs', cs'⟩ := c
        have hpos : 1 ≤ bs'.length := le_trans (by decide) hc.row.1
        cases n with
        | zero => exact .inl (hc.bounds (Nat.zero_le _) hc.row.2)
        | succ n => exact .inr ⟨n, hc.bounds hpos hc.row.2⟩
      · rw [addrs_node]
        simp [Isomalloc.dropEmptyRoot]

end Taken

/-! ## Deletion -/

variable {bs : List SlotBlock} {a : Nat} {cs : List BTreeNode} {d : SlotBlock}

/-- The row of a node around one of its blocks. -/
theorem TreeOk.row_around (ht : TreeOk h (.node a bs cs)) (hd : d ∈ bs) :
    ∃ bs1 bs2, bs = bs1 ++ d :: bs2 ∧ (∀ b ∈ bs1, b.startslot < d.startslot) ∧
      ∀ b ∈ bs2, d.startslot < b.startslot :=
  ⟨_, _, sorted_split_mem (ht.sorted.sublist (row_sublist _ _ _)) hd,
    fun _ hb => (mem_lower.1 hb).2, fun _ hb => (mem_upper.1 hb).2⟩

variable {x : Int} {p : Ptr} {d : SlotBlock}

theorem btreeDeleteInt_first_leaf (h : Heap) (m : SlotBlock) :
    btreeDeleteInt h (.node a (m :: bs) []) x (some (p, d)) = (listDelete h d).map fun h =>
        (Heap.repoint { h with sb := update h.sb m.listblock p } a 0 bs, .node a bs [],
          some m) := by
  rw [btreeDeleteInt]
  cases listDelete h d with
  | none => rfl
  | some h => rfl

theorem btreeDeleteInt_first_inner (h : Heap) (c : BTreeNode) :
    btreeDeleteInt h (.node a bs (c :: cs)) x (some (p, d)) =
      (btreeDeleteInt h c x (some (p, d))).bind fun r =>
        (fixDeficient r.1 a bs (r.2.1 :: cs) 0).map fun r' => (r'.1, r'.2, r.2.2) := by
  rw [btreeDeleteInt]
  simp only [getElem?_cons_zero, set_cons_zero]

section Steps

variable (h : Heap) (a : Nat) {bs1 bs2 : List SlotBlock} {d : SlotBlock} {cs1 cs2 : List BTreeNode}

theorem btreeDeleteInt_found_leaf
    (hi : deleteIndex (bs1 ++ d :: bs2) d.startslot = some bs1.length) :
    btreeDeleteInt h (.node a (bs1 ++ d :: bs2) []) d.startslot none = (listDelete h d).map fun h =>
        (h.repoint a bs1.length bs2, .node a (bs1 ++ bs2) [], none) := by
  have hb : (bs1 ++ d :: bs2)[bs1.length]? = some d := by simp
  have hdrop : (bs1 ++ d :: bs2).drop (bs1.length + 1) = bs2 := by simp
  rw [btreeDeleteInt, hi, bind_some, hb, bind_some, if_pos rfl, hdrop, eraseIdx_length]
  rfl

theorem btreeDeleteInt_found_inner (l c : BTreeNode) (hlen1 : cs1.length = bs1.length)
    (hi : deleteIndex (bs1 ++ d :: bs2) d.startslot = some bs1.length) :
    btreeDeleteInt h (.node a (bs1 ++ d :: bs2) (cs1 ++ l :: c :: cs2)) d.startslot none =
      (btreeDeleteInt h c d.startslot (some ((a, bs1.length), d))).bind fun r => r.2.2.bind fun m =>
          (fixDeficient r.1 a (bs1 ++ m :: bs2) (cs1 ++ l :: r.2.1 :: cs2) bs1.length).map
            fun r' => (r'.1, r'.2, none) := by
  have hb : (bs1 ++ d :: bs2)[bs1.length]? = some d := by simp
  have hc : (cs1 ++ l :: c :: cs2)[bs1.length + 1]? = some c := by
    rw [← hlen1]
    simp
  have hset : ∀ c', (cs1 ++ l :: c :: cs2).set (bs1.length + 1) c' = cs1 ++ l :: c' :: cs2 := by
    intro c'
    rw [← hlen1]
    simp
  have hsetb : ∀ m, (bs1 ++ d :: bs2).set bs1.length m = bs1 ++ m :: bs2 := by simp
  rw [btreeDeleteInt, hi, bind_some, hb, bind_some, if_pos rfl]
  split <;> rename_i hc' <;> cases hc.symm.trans hc'
  simp only [hset, hsetb]

theorem btreeDeleteInt_miss (c : BTreeNode) (hi : deleteIndex bs x = some i)
    (hlt : i < bs.length) (hne : x ≠ startAt bs i)
    (hlen : cs1.length = if x < startAt bs i then i else i + 1) :
    btreeDeleteInt h (.node a bs (cs1 ++ c :: cs2)) x none =
      (btreeDeleteInt h c x none).bind fun r =>
        (fixDeficient r.1 a bs (cs1 ++ r.2.1 :: cs2) i).map fun r' => (r'.1, r'.2, none) := by
  have hb : bs[i]? = some bs[i] := getElem?_eq_getElem hlt
  have hs : startAt bs i = bs[i].startslot := by rw [startAt, hb]; rfl
  rw [hs] at hne hlen
  have hc : (cs1 ++ c :: cs2)[takeChild bs[i] x i]? = some c := by
    rw [takeChild, ← hlen]
    simp
  have hset : ∀ c', (cs1 ++ c :: cs2).set (takeChild bs[i] x i) c' = cs1 ++ c' :: cs2 := by
    intro c'
    rw [takeChild, ← hlen]
    simp
  rw [btreeDeleteInt, hi, bind_some, hb, bind_some, if_neg hne]
  split <;> rename_i hc' <;> cases hc.symm.trans hc'
  simp only [hset]

end Steps

/-- The deletion of a block leaves a node of the given size and height. -/
def Deletes (P : Nat → Nat → Prop) (h : Heap) (d : SlotBlock) (lo n : Nat) (t : BTreeNode) : Prop :=
  ∃ h' t', btreeDeleteInt h t d.startslot none = some (h', t', none) ∧ NodeShape lo n t' ∧
    ∃ l1 l2, Taken P h t d l1 d l2 h' t'

/-- A block is deleted from the child that the search leads to. -/
theorem delete_miss {P : Nat → Nat → Prop} {h₁ : Heap}
    {bs1 bs2 l1 l2 : List SlotBlock} {c c' : BTreeNode}
    (hs : NodeShape lo (n + 1) (.node a (bs1 ++ bs2) (cs1 ++ c :: cs2)))
    (ht : TreeOk h (.node a (bs1 ++ bs2) (cs1 ++ c :: cs2))) (hne : bs1 ++ bs2 ≠ [])
    (hl : ∀ b ∈ bs1, b.startslot < d.startslot) (hr : ∀ b ∈ bs2, d.startslot < b.startslot)
    (hlen1 : cs1.length = bs1.length) (hlen2 : cs2.length = bs2.length)
    (hrec : btreeDeleteInt h c d.startslot none = some (h₁, c', none))
    (hc' : NodeShape (treeNodeMid - 1) n c') (htaken : Taken P h c d l1 d l2 h₁ c') :
    Deletes P h d (lo - 1) (n + 1) (.node a (bs1 ++ bs2) (cs1 ++ c :: cs2)) := by
  obtain ⟨hrow, -, hcs⟩ := hs
  have hctx := htaken.context hlen1 hlen2 ht
  have hout : ∀ c'' ∈ cs1 ++ cs2, NodeShape treeNodeMid n c'' := (forall_mem_middle.1 hcs).1
  obtain ⟨i, hi, hlt, hside⟩ := deleteIndex_miss hne hl hr
  have hfix : ∃ h' t', fixDeficient h₁ a (bs1 ++ bs2) (cs1 ++ c' :: cs2) i = some (h', t') ∧
      NodeShape (lo - 1) (n + 1) t' ∧ ∃ l1 l2,
        Taken P h (.node a (bs1 ++ bs2) (cs1 ++ c :: cs2)) d l1 d l2 h' t' := by
    rcases hside with ⟨hi', -⟩ | ⟨hi', -⟩
    · -- the index is that of the block before the child
      obtain ⟨bs1, p, rfl⟩ := exists_concat (l := bs1) (length_pos_iff.1 (by omega))
      obtain ⟨cs1, l, rfl⟩ := exists_concat (l := cs1) (length_pos_iff.1 (by omega))
      simp only [length_append, length_singleton, add_left_inj, append_assoc, singleton_append] at *
      rw [← length_append] at hrow
      obtain ⟨hout, hl'⟩ := forall_mem_middle.1 hout
      obtain ⟨h', t', heq, hs', htaken', -⟩ := hctx.fix hlen1 hlen2 ht hrow hout (.inr ⟨hl', hc'⟩)
      rw [hi']
      exact ⟨h', t', heq, hs', _, _, htaken'⟩
    · -- the index is that of the block after the child
      obtain ⟨p, bs2, rfl⟩ := exists_cons_of_length_pos (l := bs2) (by
        rw [length_append] at hlt
        omega)
      obtain ⟨r, cs2, rfl⟩ := exists_cons_of_length_pos (l := cs2) (by
        rw [hlen2]
        exact Nat.succ_pos _)
      obtain ⟨hout, hr'⟩ := forall_mem_middle.1 hout
      obtain ⟨h', t', heq, hs', htaken', -⟩ := hctx.fix hlen1 (by simpa using hlen2) ht hrow hout
        (.inl ⟨hc', hr'⟩)
      rw [hi']
      exact ⟨h', t', heq, hs', _, _, htaken'⟩
  obtain ⟨h', t', heq, hs', htaken'⟩ := hfix
  refine ⟨h', t', ?_, hs', htaken'⟩
  rw [btreeDeleteInt_miss h a c hi hlt (startAt_ne hl hr hlt), hrec, bind_some, heq]
  · rfl
  · rcases hside with ⟨hi', hlt'⟩ | ⟨hi', hlt'⟩
    · rw [if_neg (by omega)]
      omega
    · rw [if_pos hlt']
      omega

section Delete

variable {P : Nat → Nat → Prop} {h : Heap} {d : SlotBlock} (hP : h.Binned P)
  (hfun : ∀ x b b', P x b → P x b' → b = b') (hd : P d.listblock (listBin d.nslots))
  (h1 : 1 ≤ d.nslots) (h2 : d.nslots ≤ 2 ^ 62)

include hP hfun hd h1 h2

/-- The first block of a leaf moves to the cell passed down. -/
theorem deleteFirst_leaf {m : SlotBlock} (x : Int) (p : Ptr)
    (ht : TreeOk h (.node a (m :: bs) [])) :
    ∃ h', btreeDeleteInt h (.node a (m :: bs) []) x (some (p, d)) = some
    (h', .node a bs [], some m) ∧
      Taken P h (.node a (m :: bs) []) d [] m bs h' (.node a bs []) ∧ h'.sb m.listblock = p := by
  obtain ⟨h₁, hdel, hlists, hsb, hf⟩ := listDelete_spec hP hfun hd h1 h2
  have hnd := ht.nodup
  rw [elems_leaf, map_cons, nodup_cons] at hnd
  rw [btreeDeleteInt_first_leaf, hdel, map_some]
  refine ⟨_, rfl, ⟨by rw [elems_leaf]; rfl, by rw [elems_leaf]; rfl, ?_, ?_, hlists, hf, ?_⟩, ?_⟩
  · have hloc : Located listblock
        (Heap.repoint { h₁ with sb := update h₁.sb m.listblock p } a 0 bs).sb
        (.node a ([] ++ bs) []) :=
      located_reRow (by simp [RowLocated, row]) (by simp) (by
        rw [elems_leaf]
        exact hnd.2)
    exact hloc
  · intro y hy
    rw [elems_leaf, map_cons, mem_cons, not_or] at hy
    refine (repoint_of_notMem hy.2).trans ?_
    exact (update_of_ne hy.1 _ _).trans (by rw [hsb])
  · rw [addrs_node, addrs_node]
  · refine (repoint_of_notMem hnd.1).trans ?_
    exact update_self _ _ _

/-- The first block of a tree moves to the cell passed down. -/
theorem deleteFirst_spec (x : Int) (p : Ptr) : ∀ {n lo : Nat} {t : BTreeNode}, 1 ≤ lo →
    NodeShape lo n t → TreeOk h t →
    ∃ h' t' m, btreeDeleteInt h t x (some (p, d)) = some (h', t', some m) ∧
      NodeShape (lo - 1) n t' ∧ Taken P h t d [] m t'.elems h' t' ∧ h'.sb m.listblock = p := by
  intro n
  induction n with
  | zero =>
    rintro lo ⟨a, bs, cs⟩ hlo hs ht
    obtain ⟨hrow, rfl⟩ := hs
    cases bs with
    | nil => exact absurd (hlo.trans hrow.1) (by decide)
    | cons m bs =>
      obtain ⟨h', heq, htaken, hcell⟩ := deleteFirst_leaf hP hfun hd h1 h2 x p ht
      refine ⟨h', _, m, heq, ⟨?_, rfl⟩, ?_, hcell⟩
      · rw [length_cons] at hrow
        omega
      · rw [elems_leaf]
        exact htaken
  | succ n ih =>
    rintro lo ⟨a, bs, cs⟩ hlo hs ht
    obtain ⟨hrow, hlen, hcs⟩ := hs
    obtain ⟨b, bs, rfl⟩ := exists_cons_of_length_pos (hlo.trans hrow.1)
    obtain ⟨c, r, cs, rfl⟩ : ∃ c r cs', cs = c :: r :: cs' := by
      match cs, hlen with
      | c :: r :: cs', _ => exact ⟨c, r, cs', rfl⟩
    have hlen' : cs.length = bs.length := by simpa using hlen
    obtain ⟨h₁, c', m, hrec, hc', htaken, hcell⟩ := ih (by decide) (hcs c mem_cons_self)
      (ht.child mem_cons_self)
    have ht' : TreeOk h (.node a ([] ++ b :: bs) ([] ++ c :: r :: cs)) := ht
    have hctx := Taken.context rfl (by simp [hlen']) ht' htaken
    obtain ⟨h', t', heq, hs', htaken', hsame⟩ := hctx.fix rfl hlen' ht' hrow
      (fun c'' hc'' => hcs c'' (mem_cons_of_mem _ (mem_cons_of_mem _ hc'')))
      (.inl ⟨hc', hcs r (mem_cons_of_mem _ mem_cons_self)⟩)
    refine ⟨h', t', m, ?_, hs', ?_, hsame.trans hcell⟩
    · rw [btreeDeleteInt_first_inner, hrec, bind_some]
      exact congrArg (Option.map _) heq
    · rw [htaken'.rest]
      exact htaken'

variable {bs1 bs2 : List SlotBlock}

/-- A block of a leaf is deleted. -/
theorem delete_leaf (ht : TreeOk h (.node a (bs1 ++ d :: bs2) []))
    (hi : deleteIndex (bs1 ++ d :: bs2) d.startslot = some bs1.length) :
    ∃ h', btreeDeleteInt h (.node a (bs1 ++ d :: bs2) []) d.startslot none =
        some (h', .node a (bs1 ++ bs2) [], none) ∧
      Taken P h (.node a (bs1 ++ d :: bs2) []) d bs1 d bs2 h' (.node a (bs1 ++ bs2) []) := by
  obtain ⟨h₁, hdel, hlists, hsb, hf⟩ := listDelete_spec hP hfun hd h1 h2
  have hnd := ht.nodup
  rw [elems_leaf, map_append, map_cons, nodup_middle, nodup_cons, ← map_append] at hnd
  rw [btreeDeleteInt_found_leaf h a hi, hdel, map_some]
  refine ⟨_, rfl, elems_leaf, elems_leaf, ?_, ?_, hlists, hf, ?_⟩
  · refine located_reRow ?_ (by simp) (by rw [elems_leaf]; exact hnd.2)
    rw [hsb]
    exact (rowLocated_append.1 (located_node.1 ht.located).1).1
  · intro y hy
    rw [elems_leaf, map_append, map_cons, mem_append, mem_cons, not_or, not_or] at hy
    exact (repoint_of_notMem hy.2.2).trans (by rw [hsb])
  · rw [addrs_node, addrs_node]

/-- A block of an inner node is replaced by the next one. -/
theorem delete_inner (hs : NodeShape lo (n + 1) (.node a (bs1 ++ d :: bs2) cs))
    (ht : TreeOk h (.node a (bs1 ++ d :: bs2) cs))
    (hi : deleteIndex (bs1 ++ d :: bs2) d.startslot = some bs1.length) :
    Deletes P h d (lo - 1) (n + 1) (.node a (bs1 ++ d :: bs2) cs) := by
  obtain ⟨hrow, hlen, hcs⟩ := hs
  obtain ⟨cs1, l, cs', rfl, hlen1, hlen'⟩ := exists_child hlen
  obtain ⟨c, cs2, rfl⟩ := exists_cons_of_length_eq_add_one hlen'
  have hlen2 : cs2.length = bs2.length := Nat.succ.inj hlen'
  have hc : c ∈ cs1 ++ l :: c :: cs2 :=
    mem_append_right _ (mem_cons_of_mem _ mem_cons_self)
  obtain ⟨h₁, c', m, hrec, hc', htaken, hcell⟩ := deleteFirst_spec hP hfun hd h1 h2 d.startslot
    (a, bs1.length) (by decide) (hcs c hc) (ht.child hc)
  obtain ⟨h', t', heq, hs', htaken', -⟩ := (htaken.swap hlen1 hlen2 ht hcell).fix hlen1 hlen2 ht
    (by simpa using hrow) (forall_mem_middle.1 (forall_mem_middle.1 hcs).1).1
    (.inr ⟨hcs l (mem_append_right _ mem_cons_self), hc'⟩)
  refine ⟨h', t', ?_, hs', _, _, htaken'⟩
  rw [btreeDeleteInt_found_inner h a l c hlen1 hi, hrec, bind_some, bind_some, heq]
  rfl

/-- A block is deleted from a tree of any height. -/
theorem btreeDeleteInt_spec : ∀ {n lo : Nat} {t : BTreeNode}, 1 ≤ lo → NodeShape lo n t →
    TreeOk h t → d ∈ t.elems → Deletes P h d (lo - 1) n t := by
  intro n
  induction n with
  | zero =>
    rintro lo ⟨a, bs, cs⟩ hlo hs ht hmem
    obtain ⟨hrow, rfl⟩ := hs
    rw [elems_leaf] at hmem
    obtain ⟨bs1, bs2, rfl, hl, hr⟩ := ht.row_around hmem
    obtain ⟨h', heq, htaken⟩ := delete_leaf hP hfun hd h1 h2 ht (deleteIndex_found hl hr)
    refine ⟨h', _, heq, ⟨?_, rfl⟩, bs1, bs2, htaken⟩
    rw [length_append, length_cons] at hrow
    rw [length_append]
    omega
  | succ n ih =>
    rintro lo ⟨a, bs, cs⟩ hlo hs ht hmem
    by_cases hbs : d ∈ bs
    · obtain ⟨bs1, bs2, rfl, hl, hr⟩ := ht.row_around hbs
      exact delete_inner hP hfun hd h1 h2 hs ht (deleteIndex_found hl hr)
    · have hne : ∀ e ∈ bs, e.startslot ≠ d.startslot := by
        intro e he heq
        have := ht.sorted.eq_of_key_eq ((row_sublist _ _ _).subset he) hmem heq
        exact hbs (this ▸ he)
      obtain ⟨bs1, bs2, rfl, hl, hr⟩ := ht.row_split hne
      obtain ⟨cs1, c, cs2, rfl, hlen1, hlen2⟩ := exists_child hs.2.1
      have hc : c ∈ cs1 ++ c :: cs2 := mem_append_right _ mem_cons_self
      obtain ⟨h₁, c', hrec, hc', l1, l2, htaken⟩ := ih (by decide) (hs.2.2 c hc) (ht.child hc)
        (mem_focus hlen1 hlen2 ht.sorted hl hr hmem)
      exact delete_miss hs ht (length_pos_iff.1 (hlo.trans hs.row.1)) hl hr hlen1 hlen2
        hrec hc' htaken

/-- `btree_delete` takes the block out of the tree. -/
theorem btreeDelete_spec (hs : RootShape t) (ht : TreeOk h t) (hmem : d ∈ t.elems) :
    ∃ h' t', btreeDelete h t d.startslot = some (h', t') ∧ RootShape t' ∧ TreeOk h' t' ∧
      ∃ l1 l2, Taken P h t d l1 d l2 h' t' := by
  obtain ⟨a, bs, cs⟩ := t
  have hne : bs.length ≠ 0 := by
    intro hnil
    obtain rfl := length_eq_zero_iff.1 hnil
    obtain rfl := hs.children_eq_nil
    cases hmem
  obtain ⟨n, hn⟩ : ∃ n, NodeShape 1 n (.node a bs cs) := by
    rcases hs with hs | ⟨n, hs⟩
    · exact ⟨0, hs.bounds (Nat.one_le_iff_ne_zero.2 hne) hs.row.2⟩
    · exact ⟨n + 1, hs⟩
  obtain ⟨h', t', heq, hs', l1, l2, htaken⟩ :=
    btreeDeleteInt_spec hP hfun hd h1 h2 le_rfl hn ht hmem
  obtain ⟨hroot, htaken'⟩ := htaken.dropEmptyRoot hs'
  refine ⟨h', _, ?_, hroot, htaken'.ok ht, l1, l2, htaken'⟩
  rw [btreeDelete, heq, map_some]

end Delete

end CharmRuntime.Isomalloc
