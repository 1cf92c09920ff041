import Mathlib.Data.Multiset.AddSub

/-!
# B-trees whose entries know their place

A node has an address, a row of entries and, unless it is a leaf, one child more than it has
entries. The cell of an entry is given by the address of its node and its index in the row, and
`cells` lists the cells of a tree in order. Every entry has a tag, and a map from tags to cells is
kept such that the tag of an entry leads to the cell it is in (`Located`); moving entries re-points
their tags (`repoint`).

The in-order list of a node is that of its children interleaved with its row (`weave`). Around one
child it splits into the part before, the child, and the part after (`elems_focus`), and around two
neighbouring children into the part before, the two with the entry between them, and the part after
(`elems_window`). `Shape` is the balance condition: equal depth of all leaves and a lower and an
upper bound for the length of the rows.

A pointer to an entry is its cell. If no two nodes have the same address, a cell holds at most one
entry (`cells_nodup`), `deref` reads it, and `modify` changes it and nothing else (`cells_modify`).
-/

set_option autoImplicit false

namespace CharmRuntime.Lib

open List Function

universe u v

/-- A B-tree node with its address, its row of entries and its children. -/
inductive BTree (ε : Type u) where
  | node (addr : Nat) (blocks : List ε) (child : List (BTree ε))

namespace BTree

variable {ε : Type u} {β : Type v}

/-- Interleave the lists of the children with the row of a node. -/
def weave : List (List β) → List β → List β
  | [], bs => bs
  | c :: cs, [] => c ++ cs.flatten
  | c :: cs, b :: bs => c ++ b :: weave cs bs

/-- The cells of a row from index `i` on. -/
def row (a : Nat) : Nat → List ε → List ((Nat × Nat) × ε)
  | _, [] => []
  | i, b :: bs => ((a, i), b) :: row a (i + 1) bs

mutual

/-- The cells of a tree in order. -/
def cells : BTree ε → List ((Nat × Nat) × ε)
  | .node a bs cs => weave (cellsList cs) (row a 0 bs)

/-- The cells of every tree of a list. -/
def cellsList : List (BTree ε) → List (List ((Nat × Nat) × ε))
  | [] => []
  | c :: cs => c.cells :: cellsList cs

end

mutual

/-- The addresses of the nodes of a tree. -/
def addrs : BTree ε → List Nat
  | .node a _ cs => a :: addrsList cs

/-- The addresses of the nodes of a list of trees. -/
def addrsList : List (BTree ε) → List Nat
  | [] => []
  | c :: cs => c.addrs ++ addrsList cs

end

/-- The entries of a tree in order. -/
def elems (t : BTree ε) : List ε := t.cells.map Prod.snd

/-- The part of the in-order list before a child. -/
def before (cs : List (List β)) (bs : List β) : List β :=
  (zipWith (fun c b => c ++ [b]) cs bs).flatten

/-- The part of the in-order list after a child. -/
def after (bs : List β) (cs : List (List β)) : List β :=
  (zipWith (fun b c => b :: c) bs cs).flatten

variable {cs : List (BTree ε)}

theorem cellsList_eq_map : cellsList cs = cs.map cells := by
  induction cs with
  | nil => rfl
  | cons c cs ih => rw [cellsList, ih, map_cons]

theorem addrsList_eq_flatMap : addrsList cs = cs.flatMap addrs := by
  induction cs with
  | nil => rfl
  | cons c cs ih => rw [addrsList, ih, flatMap_cons]

variable {a : Nat} {bs : List ε} {x : β}

theorem cells_node : cells (.node a bs cs) = weave (cs.map cells) (row a 0 bs) := by
  rw [cells, cellsList_eq_map]

theorem addrs_node : addrs (.node a bs cs) = a :: cs.flatMap addrs := by
  rw [addrs, addrsList_eq_flatMap]

/-! ## Interleaving -/

theorem mem_weave : ∀ {cs : List (List β)} {bs : List β}, x ∈ weave cs bs ↔
    (∃ c ∈ cs, x ∈ c) ∨ x ∈ bs
  | [], bs => by simp [weave]
  | c :: cs, [] => by simp [weave]
  | c :: cs, b :: bs => by
    simp only [weave, mem_append, mem_cons, mem_weave, or_and_right, exists_or, exists_eq_left]
    simp only [or_assoc, or_left_comm, or_comm]

theorem weave_map {γ : Type*} (f : β → γ) : ∀ (cs : List (List β)) (bs : List β),
    (weave cs bs).map f = weave (cs.map (List.map f)) (bs.map f)
  | [], bs => rfl
  | c :: cs, [] => by simp [weave, map_flatten]
  | c :: cs, b :: bs => by simp [weave, weave_map f cs bs]

theorem row_map_snd (a : Nat) (bs : List ε) : ∀ i, (row a i bs).map Prod.snd = bs := by
  induction bs with
  | nil => exact fun _ => rfl
  | cons b bs ih => intro i; rw [row, map_cons, ih]

theorem elems_node : elems (.node a bs cs) = weave (cs.map elems) bs := by
  rw [elems, cells_node, weave_map, row_map_snd, map_map]
  rfl

/-- A leaf lists its row. -/
theorem elems_leaf : elems (.node a bs []) = bs := by
  rw [elems_node]
  rfl

theorem weave_cons_eq (c : List β) : ∀ (bs : List β) (cs : List (List β)), cs.length = bs.length →
    weave (c :: cs) bs = c ++ after bs cs
  | [], cs, h => by
    have : cs = [] := length_eq_zero_iff.1 h
    subst this
    simp [weave, after]
  | b :: bs, [], h => by simp at h
  | b :: bs, c' :: cs, h => by
    rw [weave, weave_cons_eq c' bs cs (by simpa using h)]
    simp [after]

/-- The in-order list around one child. -/
theorem weave_focus (c : List β) {bs2 : List β} {cs2 : List (List β)}
    (h₂ : cs2.length = bs2.length) : ∀ {bs1 : List β} {cs1 : List (List β)},
    cs1.length = bs1.length →
    weave (cs1 ++ c :: cs2) (bs1 ++ bs2) = before cs1 bs1 ++ (c ++ after bs2 cs2)
  | [], cs1, h => by
    have : cs1 = [] := length_eq_zero_iff.1 h
    subst this
    simpa [before] using weave_cons_eq c bs2 cs2 h₂
  | b :: bs1, [], h => by simp at h
  | b :: bs1, c' :: cs1, h => by
    rw [cons_append, cons_append, weave, weave_focus c h₂ (by simpa using h)]
    simp [before]

/-- The in-order list of a node that is cut at an entry. -/
theorem weave_split (b : β) (bs2 : List β) (cs2 : List (List β)) :
    ∀ {bs1 : List β} {cs1 : List (List β)}, cs1.length = bs1.length + 1 →
    weave (cs1 ++ cs2) (bs1 ++ b :: bs2) = weave cs1 bs1 ++ b :: weave cs2 bs2
  | [], [c], h => by simp [weave]
  | [], [], h => by simp at h
  | [], _ :: _ :: _, h => by simp at h
  | b' :: bs1, [], h => by simp at h
  | b' :: bs1, c :: cs1, h => by
    rw [cons_append, cons_append, weave, weave, weave_split b bs2 cs2 (by simpa using h)]
    simp

/-- All of a list, by the element in the middle and the others. -/
theorem forall_mem_middle {P : β → Prop} {l1 l2 : List β} :
    (∀ y ∈ l1 ++ x :: l2, P y) ↔ (∀ y ∈ l1 ++ l2, P y) ∧ P x := by
  rw [forall_mem_append, forall_mem_append, forall_mem_cons, and_comm (a := P x), and_assoc]

variable {a : Nat} {bs bs1 bs2 : List ε} {cs cs1 cs2 : List (BTree ε)} {c : BTree ε}
  {x : (Nat × Nat) × ε}

/-- The child that comes after as many others as there are entries on the left. -/
theorem exists_child (h : cs.length = (bs1 ++ bs2).length + 1) :
    ∃ cs1 c cs2, cs = cs1 ++ c :: cs2 ∧ cs1.length = bs1.length ∧ cs2.length = bs2.length := by
  rw [length_append] at h
  have hlt : bs1.length < cs.length := by omega
  refine ⟨cs.take bs1.length, cs[bs1.length], cs.drop (bs1.length + 1), ?_,
    length_take_of_le hlt.le, ?_⟩
  · rw [← drop_eq_getElem_cons hlt, take_append_drop]
  · rw [length_drop]
    omega

/-- The entries of a node around one child. -/
theorem elems_focus (a : Nat) (c : BTree ε) (h₁ : cs1.length = bs1.length)
    (h₂ : cs2.length = bs2.length) : elems (.node a (bs1 ++ bs2) (cs1 ++ c :: cs2)) =
      before (cs1.map elems) bs1 ++ (elems c ++ after bs2 (cs2.map elems)) := by
  rw [elems_node, map_append, map_cons]
  exact weave_focus _ (by rwa [List.length_map]) (by rwa [List.length_map])

/-- The entries of a node around two neighbouring children. -/
theorem elems_window (a : Nat) (l r : BTree ε) (b : ε) (h₁ : cs1.length = bs1.length)
    (h₂ : cs2.length = bs2.length) : elems (.node a (bs1 ++ b :: bs2) (cs1 ++ l :: r :: cs2)) =
      before (cs1.map elems) bs1 ++ ((elems l ++ b :: elems r) ++ after bs2 (cs2.map elems)) := by
  rw [elems_focus a l h₁ (by simp [h₂])]
  simp [after]

/-- The entries of a node that is cut at an entry. -/
theorem elems_split (a a' : Nat) (b : ε) (h : cs1.length = bs1.length + 1 ∨ (cs1 = [] ∧ cs2 = [])) :
    elems (.node a (bs1 ++ b :: bs2) (cs1 ++ cs2)) =
      elems (.node a bs1 cs1) ++ b :: elems (.node a' bs2 cs2) := by
  rcases h with h | ⟨rfl, rfl⟩
  · rw [elems_node, elems_node, elems_node, map_append]
    exact weave_split _ _ _ (by rwa [List.length_map])
  · rw [append_nil, elems_leaf, elems_leaf, elems_leaf]

theorem weave_sublist (c : List β) : ∀ (cs1 cs2 : List (List β)) (bs : List β),
    Sublist c (weave (cs1 ++ c :: cs2) bs)
  | [], cs2, [] => sublist_append_left _ _
  | [], cs2, b :: bs => sublist_append_left _ _
  | c' :: cs1, cs2, [] => by
    rw [cons_append, weave]
    refine Sublist.trans ?_ (sublist_append_right _ _)
    rw [flatten_append, flatten_cons]
    exact (sublist_append_left _ _).trans (sublist_append_right _ _)
  | c' :: cs1, cs2, b :: bs =>
    ((weave_sublist c cs1 cs2 bs).cons b).trans (sublist_append_right _ _)

theorem child_sublist (a : Nat) (bs : List ε) (cs1 cs2 : List (BTree ε)) (c : BTree ε) :
    Sublist c.elems (elems (.node a bs (cs1 ++ c :: cs2))) := by
  rw [elems_node, map_append, map_cons]
  exact weave_sublist _ _ _ _

theorem mem_elems_node {x : ε} : x ∈ elems (.node a bs cs) ↔ (∃ c ∈ cs, x ∈ elems c) ∨ x ∈ bs := by
  rw [elems_node, mem_weave]
  simp

theorem mem_cells_node : x ∈ cells (.node a bs cs) ↔ (∃ c ∈ cs, x ∈ cells c) ∨ x ∈ row a 0 bs := by
  rw [cells_node, mem_weave]
  simp

theorem mem_cells : x ∈ cells (.node a bs cs) ↔ x ∈ cs.flatMap cells ∨ x ∈ row a 0 bs := by
  rw [mem_cells_node, mem_flatMap]

/-! ## Tags -/

section Tags

variable (tag : ε → Nat) (pos : Nat → Nat × Nat)

/-- The tags of the entries of a row lead to their cells. -/
def RowLocated (a i : Nat) (bs : List ε) : Prop := ∀ x ∈ row a i bs, pos (tag x.2) = x.1

/-- The tags of the entries of a tree lead to their cells. -/
def Located (t : BTree ε) : Prop := ∀ x ∈ cells t, pos (tag x.2) = x.1

/-- Let the tags of the entries of a row lead to their cells. -/
def repoint (pos : Nat → Nat × Nat) (a : Nat) : Nat → List ε → Nat → Nat × Nat
  | _, [] => pos
  | i, b :: bs => repoint (update pos (tag b) (a, i)) a (i + 1) bs

/-- Let the tags of the entries of some cells lead to them. -/
def write (pos : Nat → Nat × Nat) (w : List ((Nat × Nat) × ε)) : Nat → Nat × Nat :=
  w.foldl (fun pos x => update pos (tag x.2) x.1) pos

variable {tag pos} {pos' : Nat → Nat × Nat}

theorem located_node :
    Located tag pos (.node a bs cs) ↔ RowLocated tag pos a 0 bs ∧ ∀ c ∈ cs, Located tag pos c := by
  simp only [Located, RowLocated, mem_cells_node]
  constructor
  · intro h
    exact ⟨fun x hx => h x (.inr hx), fun c hc x hx => h x (.inl ⟨c, hc, hx⟩)⟩
  · rintro ⟨hrow, hcs⟩ x (⟨c, hc, hx⟩ | hx)
    · exact hcs c hc x hx
    · exact hrow x hx

variable {i : Nat} {bs' : List ε} {t : BTree ε}

theorem rowLocated_cons {b : ε} :
    RowLocated tag pos a i (b :: bs) ↔ pos (tag b) = (a, i) ∧ RowLocated tag pos a (i + 1) bs := by
  simp [RowLocated, row]

theorem row_append : ∀ {i : Nat}, row a i (bs ++ bs') = row a i bs ++ row a
    (i + bs.length) bs' := by
  induction bs with
  | nil => exact rfl
  | cons b bs ih =>
    intro i
    rw [cons_append, row, ih, row, cons_append, length_cons, Nat.add_assoc, Nat.add_comm 1]

theorem rowLocated_append : RowLocated tag pos a i (bs ++ bs') ↔
    RowLocated tag pos a i bs ∧ RowLocated tag pos a (i + bs.length) bs' := by
  rw [RowLocated, row_append, forall_mem_append]
  rfl

theorem snd_mem_of_mem_row : ∀ {i : Nat}, x ∈ row a i bs → x.2 ∈ bs := by
  intro i hx
  rw [← row_map_snd a bs i]
  exact mem_map_of_mem hx

theorem RowLocated.congr (h : RowLocated tag pos a i bs)
    (heq : ∀ b ∈ bs, pos' (tag b) = pos (tag b)) : RowLocated tag pos' a i bs := by
  intro x hx
  rw [heq _ (snd_mem_of_mem_row hx)]
  exact h x hx

theorem Located.congr (h : Located tag pos t)
    (heq : ∀ b ∈ t.elems, pos' (tag b) = pos (tag b)) : Located tag pos' t := by
  intro x hx
  rw [heq _ (mem_map_of_mem hx)]
  exact h x hx

theorem repoint_eq_write : ∀ {i : Nat} {pos : Nat → Nat × Nat},
    repoint tag pos a i bs = write tag pos (row a i bs) := by
  induction bs with
  | nil => exact rfl
  | cons b bs ih => exact ih

variable {w l : List ((Nat × Nat) × ε)}

theorem write_append (w w' : List ((Nat × Nat) × ε)) :
    write tag pos (w ++ w') = write tag (write tag pos w) w' :=
  foldl_append

theorem write_of_notMem {y : Nat} (hy : y ∉ (w.map Prod.snd).map tag) :
    write tag pos w y = pos y := by
  induction w generalizing pos with
  | nil => rfl
  | cons x w ih =>
    rw [map_cons, map_cons, mem_cons, not_or] at hy
    exact (ih hy.2).trans (update_of_ne hy.1 _ _)

theorem repoint_of_notMem {y : Nat} (hy : y ∉ bs.map tag) : repoint tag pos a i bs y = pos y := by
  rw [repoint_eq_write]
  exact write_of_notMem (by rwa [row_map_snd])

/-- Writing some cells of a list makes them right, and no other wrong: no two of the list have the
same tag. -/
theorem write_located (hnd : ((l.map Prod.snd).map tag).Nodup) (hsub : w ⊆ l)
    (h : ∀ x ∈ l, x ∈ w ∨ pos (tag x.2) = x.1) : ∀ x ∈ l, write tag pos w (tag x.2) = x.1 := by
  rw [map_map] at hnd
  induction w generalizing pos with
  | nil => exact fun x hx => (h x hx).resolve_left not_mem_nil
  | cons y w ih =>
    refine ih (fun x hx => hsub (mem_cons_of_mem _ hx)) fun x hx => ?_
    by_cases hxy : tag x.2 = tag y.2
    · obtain rfl := inj_on_of_nodup_map hnd hx (hsub mem_cons_self) hxy
      exact .inr (update_self ..)
    · refine (h x hx).imp (fun hmem => (mem_cons.1 hmem).resolve_left ?_)
        (update_of_ne hxy _ _).trans
      rintro rfl
      exact hxy rfl

end Tags

/-! ## Distinct tags -/

theorem weave_perm : ∀ (cs : List (List β)) (bs : List β), (weave cs bs).Perm (cs.flatten ++ bs)
  | [], bs => Perm.refl _
  | c :: cs, [] => by simp [weave]
  | c :: cs, b :: bs => by
    rw [weave, flatten_cons, append_assoc]
    exact ((weave_perm cs bs).cons b |>.trans perm_middle.symm).append_left c

theorem elems_perm (a : Nat) (bs : List ε) (cs : List (BTree ε)) :
    (elems (.node a bs cs)).Perm ((cs.map elems).flatten ++ bs) := by
  rw [elems_node]
  exact weave_perm _ _

section DistinctTags

variable {tag : ε → Nat} {pos : Nat → Nat × Nat}

/-- The tags of one child are distinct and occur nowhere else. -/
theorem tags_child (h : ((elems (.node a bs (cs1 ++ c :: cs2))).map tag).Nodup) :
    (∀ b ∈ bs, tag b ∉ (elems c).map tag) ∧
      ∀ c' ∈ cs1 ++ cs2, ∀ e ∈ elems c', tag e ∉ (elems c).map tag := by
  have h' := ((elems_perm a bs (cs1 ++ c :: cs2)).map tag).nodup_iff.1 h
  have hperm : ((((cs1 ++ c :: cs2).map elems).flatten ++ bs).map tag).Perm
      ((elems c).map tag ++ ((((cs1 ++ cs2).map elems).flatten ++ bs).map tag)) := by
    rw [← map_append]
    refine Perm.map tag ?_
    simp only [map_append, map_cons, flatten_append, flatten_cons, append_assoc]
    exact (perm_append_comm_assoc _ _ _)
  have h'' := hperm.nodup_iff.1 h'
  rw [nodup_append] at h''
  refine ⟨fun b hb hmem => ?_, fun c' hc' e he hmem => ?_⟩
  · exact h''.2.2 _ hmem _ (mem_map_of_mem (mem_append_right _ hb)) rfl
  · refine h''.2.2 _ hmem _ (mem_map_of_mem (mem_append_left _ ?_)) rfl
    exact mem_flatten.2 ⟨_, mem_map_of_mem hc', he⟩

/-- The upper part of a node moves to another node and is re-pointed. -/
theorem Located.cut {a' : Nat} {b : ε}
    (hl : Located tag pos (.node a (bs1 ++ b :: bs2) (cs1 ++ cs2)))
    (hnd : ((elems (.node a bs1 cs1) ++ b :: elems (.node a' bs2 cs2)).map tag).Nodup) :
    Located tag (repoint tag pos a' 0 bs2) (.node a bs1 cs1) ∧
      Located tag (repoint tag pos a' 0 bs2) (.node a' bs2 cs2) := by
  have hnd' : (((cells (.node a bs1 cs1) ++ cells (.node a' bs2 cs2)).map Prod.snd).map
      tag).Nodup := by
    rw [map_append]
    exact hnd.sublist (((sublist_cons_self _ _).append_left _).map tag)
  rw [Located, Located, ← forall_mem_append, repoint_eq_write]
  refine write_located hnd' (fun x hx => mem_append_right _ (mem_cells.2 (.inr hx))) fun x hx => ?_
  simp only [mem_append, mem_cells] at hx
  rcases hx with (hx | hx) | hx | hx
  · exact .inr (hl x (mem_cells.2 (.inl (by simp [hx]))))
  · exact .inr (hl x (mem_cells.2 (.inr (by rw [row_append]; exact mem_append_left _ hx))))
  · exact .inr (hl x (mem_cells.2 (.inl (by simp [hx]))))
  · exact .inl hx

/-- The upper part of a row is re-pointed to its new place in the node. -/
theorem located_reRow (hrow : RowLocated tag pos a 0 bs1)
    (hcs : ∀ c ∈ cs, Located tag pos c) (hnd : ((elems (.node a (bs1 ++ bs2) cs)).map tag).Nodup) :
    Located tag (repoint tag pos a bs1.length bs2) (.node a (bs1 ++ bs2) cs) := by
  have hcells : row a 0 (bs1 ++ bs2) = row a 0 bs1 ++ row a bs1.length bs2 := by
    rw [row_append, Nat.zero_add]
  rw [repoint_eq_write]
  refine write_located hnd (fun x hx => mem_cells.2 (.inr ?_)) fun x hx => ?_
  · rw [hcells]
    exact mem_append_right _ hx
  · rw [mem_cells_node, hcells, mem_append] at hx
    rcases hx with ⟨c, hc, hx⟩ | hx | hx
    · exact .inr (hcs c hc x hx)
    · exact .inr (hrow x hx)
    · exact .inl hx

end DistinctTags

/-! ## Order -/

section Order

variable (key : ε → Int)

/-- Ordered by key. -/
abbrev Sorted (l : List ε) : Prop := l.Pairwise fun e e' => key e < key e'

/-- The entries below a key. -/
def lower (x : Int) (l : List ε) : List ε := l.filter fun e => key e < x

/-- The entries above a key. -/
def upper (x : Int) (l : List ε) : List ε := l.filter fun e => x < key e

variable {key} {x : Int}

variable {l : List ε} {e d : ε}

theorem lower_of_lt (h : ∀ e ∈ l, key e < x) : lower key x l = l ∧ upper key x l = [] := by
  refine ⟨filter_eq_self.2 fun e he => decide_eq_true (h e he), ?_⟩
  refine filter_eq_nil_iff.2 fun e he => ?_
  have := h e he
  simp only [decide_eq_true_eq]
  omega

theorem upper_of_gt (h : ∀ e ∈ l, x < key e) : lower key x l = [] ∧ upper key x l = l := by
  refine ⟨?_, filter_eq_self.2 fun e he => decide_eq_true (h e he)⟩
  refine filter_eq_nil_iff.2 fun e he => ?_
  have := h e he
  simp only [decide_eq_true_eq]
  omega

theorem mem_lower : e ∈ lower key x l ↔ e ∈ l ∧ key e < x := by
  simp [lower]

theorem mem_upper : e ∈ upper key x l ↔ e ∈ l ∧ x < key e := by
  simp [upper]

/-- A list between two others that are below and above the key. -/
theorem lower_middle {m r : List ε} (hl : ∀ e ∈ l, key e < x) (hr : ∀ e ∈ r, x < key e) :
    lower key x (l ++ (m ++ r)) = l ++ lower key x m ∧
      upper key x (l ++ (m ++ r)) = upper key x m ++ r := by
  have h1 := lower_of_lt hl
  have h2 := upper_of_gt hr
  simp only [lower, upper, filter_append] at h1 h2 ⊢
  rw [h1.1, h1.2, h2.1, h2.2]
  simp

/-- An ordered list without the key splits into the entries below and above it. -/
theorem sorted_split (hs : Sorted key l) (hx : ∀ e ∈ l, key e ≠ x) :
    l = lower key x l ++ upper key x l := by
  induction l with
  | nil => rfl
  | cons e l ih =>
    rw [Sorted, pairwise_cons] at hs
    have ih' := ih hs.2 fun e' he' => hx e' (mem_cons_of_mem _ he')
    rcases Int.lt_or_gt_of_ne (hx e mem_cons_self) with hlt | hgt
    · have h1 : lower key x (e :: l) = e :: lower key x l :=
        filter_cons_of_pos (decide_eq_true hlt)
      have h2 : upper key x (e :: l) = upper key x l :=
        filter_cons_of_neg (by simp only [decide_eq_true_eq]; omega)
      rw [h1, h2, cons_append, ← ih']
    · have hall : ∀ e' ∈ e :: l, x < key e' := by
        intro e' he'
        rcases mem_cons.1 he' with rfl | he'
        · exact hgt
        · exact Int.lt_trans hgt (hs.1 e' he')
      rw [(upper_of_gt hall).1, (upper_of_gt hall).2, nil_append]

/-- An ordered list around an entry. -/
theorem sorted_split_mem (hs : Sorted key l) (hd : d ∈ l) :
    l = lower key (key d) l ++ d :: upper key (key d) l := by
  obtain ⟨l1, l2, rfl⟩ := append_of_mem hd
  rw [Sorted, pairwise_append, pairwise_cons] at hs
  obtain ⟨-, ⟨hd2, -⟩, hd1⟩ := hs
  have h1 : ∀ e ∈ l1, key e < key d := fun e he => hd1 e he d mem_cons_self
  have hm := lower_middle (m := [d]) h1 hd2
  simp only [singleton_append] at hm
  rw [hm.1, hm.2]
  simp [lower, upper]

/-- What comes before a child is below every key that the row before it is below. -/
theorem before_lt : ∀ {cs : List (List ε)} {bs rest : List ε}, cs.length = bs.length →
    Sorted key (before cs bs ++ rest) → (∀ b ∈ bs, key b < x) → ∀ e ∈ before cs bs, key e < x
  | [], [], _, _, _, _, e, he => by simp [before] at he
  | [], _ :: _, _, h, _, _, _, _ => by simp at h
  | _ :: _, [], _, h, _, _, _, _ => by simp at h
  | c :: cs, b :: bs, rest, h, hs, hb, e, he => by
    have hcons : before (c :: cs) (b :: bs) = c ++ b :: before cs bs := by simp [before]
    rw [hcons] at hs he
    rw [Sorted, append_assoc, cons_append, pairwise_append, pairwise_cons] at hs
    obtain ⟨-, ⟨-, hrest⟩, hc⟩ := hs
    have hbx := hb b mem_cons_self
    rcases mem_append.1 he with he | he
    · exact Int.lt_trans (hc e he b mem_cons_self) hbx
    · rcases mem_cons.1 he with rfl | he
      · exact hbx
      · exact before_lt (by simpa using h) hrest
          (fun b' hb' => hb b' (mem_cons_of_mem _ hb')) e he

/-- What comes after a child is above every key that the row after it is above. -/
theorem after_gt : ∀ {bs : List ε} {cs : List (List ε)}, cs.length = bs.length →
    Sorted key (after bs cs) → (∀ b ∈ bs, x < key b) → ∀ e ∈ after bs cs, x < key e
  | [], [], _, _, _, e, he => by simp [after] at he
  | [], _ :: _, h, _, _, _, _ => by simp at h
  | _ :: _, [], h, _, _, _, _ => by simp at h
  | b :: bs, c :: cs, h, hs, hb, e, he => by
    have hcons : after (b :: bs) (c :: cs) = b :: (c ++ after bs cs) := by simp [after]
    rw [hcons] at hs he
    rw [Sorted, pairwise_cons] at hs
    have hbx := hb b mem_cons_self
    rcases mem_cons.1 he with rfl | he
    · exact hbx
    · exact Int.lt_trans hbx (hs.1 e he)

section Focus

variable (h₁ : cs1.length = bs1.length) (h₂ : cs2.length = bs2.length)
  (hs : Sorted key (elems (.node a (bs1 ++ bs2) (cs1 ++ c :: cs2))))

include h₁ h₂ hs

/-- The entries below and above a key that leads to one child. -/
theorem lower_focus (hl : ∀ b ∈ bs1, key b < x) (hr : ∀ b ∈ bs2, x < key b) :
    lower key x (elems (.node a (bs1 ++ bs2) (cs1 ++ c :: cs2))) =
        before (cs1.map elems) bs1 ++ lower key x c.elems ∧
      upper key x (elems (.node a (bs1 ++ bs2) (cs1 ++ c :: cs2))) =
        upper key x c.elems ++ after bs2 (cs2.map elems) := by
  rw [elems_focus a c h₁ h₂] at hs ⊢
  refine lower_middle (before_lt (by rwa [List.length_map]) hs hl) ?_
  refine after_gt (by rwa [List.length_map]) ?_ hr
  exact (pairwise_append.1 (pairwise_append.1 hs).2.1).2.1

/-- A key that leads to one child is in that child or nowhere. -/
theorem mem_focus (hl : ∀ b ∈ bs1, key b < key d) (hr : ∀ b ∈ bs2, key d < key b)
    (hd : d ∈ elems (.node a (bs1 ++ bs2) (cs1 ++ c :: cs2))) : d ∈ c.elems := by
  rw [elems_focus a c h₁ h₂] at hs hd
  rcases mem_append.1 hd with hd | hd
  · exact absurd (before_lt (by rwa [List.length_map]) hs hl d hd) (Int.lt_irrefl _)
  · rcases mem_append.1 hd with hd | hd
    · exact hd
    · refine absurd (after_gt (by rwa [List.length_map]) ?_ hr d hd) (Int.lt_irrefl _)
      exact (pairwise_append.1 (pairwise_append.1 hs).2.1).2.1

end Focus

/-- The keys of an ordered list are distinct. -/
theorem Sorted.eq_of_key_eq (hs : Sorted key l) {e' : ε} (he : e ∈ l) (he' : e' ∈ l)
    (heq : key e = key e') : e = e' := by
  have hinj := inj_on_of_nodup_map (f := key) (pairwise_map.2 (hs.imp Int.ne_of_lt))
  exact hinj he he' heq

theorem row_sublist (a : Nat) (bs : List ε) (cs : List (BTree ε)) : Sublist bs
    (elems (.node a bs cs)) := by
  rw [elems_node]
  generalize cs.map elems = ls
  induction ls generalizing bs with
  | nil => exact Sublist.refl _
  | cons c ls ih =>
    cases bs with
    | nil => exact nil_sublist _
    | cons b bs => exact ((ih bs).cons_cons b).trans (sublist_append_right _ _)

end Order

/-! ## Balance -/

section Shape

variable (mid cap : Nat)

/-- A tree of the given height: all leaves have the same depth, the row of the root has `lo` to `hi`
entries and those below have `mid` to `cap`. -/
def Shape : Nat → Nat → Nat → BTree ε → Prop
  | lo, hi, 0, .node _ bs cs => (lo ≤ bs.length ∧ bs.length ≤ hi) ∧ cs = []
  | lo, hi, h + 1, .node _ bs cs => (lo ≤ bs.length ∧ bs.length ≤ hi) ∧
      cs.length = bs.length + 1 ∧ ∀ c ∈ cs, Shape mid cap h c

variable {mid cap}

variable {h lo hi : Nat}

theorem Shape.row (hs : Shape mid cap lo hi h (.node a bs cs)) :
    lo ≤ bs.length ∧ bs.length ≤ hi := by
  cases h with
  | zero | succ => exact hs.1

/-- Only the length of the row of the root matters for its bounds. -/
theorem Shape.bounds {lo' hi' a' : Nat} (hs : Shape mid cap lo hi h (.node a bs cs))
    (hlo : lo' ≤ bs.length) (hhi : bs.length ≤ hi') : Shape mid cap lo' hi' h (.node a' bs cs) := by
  cases h with
  | zero | succ => exact ⟨⟨hlo, hhi⟩, hs.2⟩

variable (mid cap) in
/-- The children of a node of height `h` with `k` entries. -/
def Kids : Nat → Nat → List (BTree ε) → Prop
  | 0, _, cs => cs = []
  | h + 1, k, cs => cs.length = k + 1 ∧ ∀ c ∈ cs, Shape mid cap mid cap h c

theorem shape_iff : Shape mid cap lo hi h (.node a bs cs) ↔
      (lo ≤ bs.length ∧ bs.length ≤ hi) ∧ Kids mid cap h bs.length cs := by
  cases h with
  | zero | succ => exact Iff.rfl

theorem Kids.append {k1 k2 : Nat} (h₁ : Kids mid cap h k1 cs1) (h₂ : Kids mid cap h k2 cs2) :
    Kids mid cap h (k1 + 1 + k2) (cs1 ++ cs2) := by
  cases h with
  | zero =>
    rw [Kids, h₁, h₂, append_nil]
  | succ h =>
    refine ⟨?_, forall_mem_append.2 ⟨h₁.2, h₂.2⟩⟩
    rw [length_append, h₁.1, h₂.1]
    omega

/-- The children of a node that is cut at an entry. -/
theorem Kids.split {k1 k2 : Nat} (hk : Kids mid cap h (k1 + 1 + k2) cs) :
    Kids mid cap h k1 (cs.take (k1 + 1)) ∧ Kids mid cap h k2 (cs.drop (k1 + 1)) := by
  cases h with
  | zero =>
    subst hk
    exact ⟨take_nil, drop_nil⟩
  | succ h =>
    refine ⟨⟨?_, fun c hc => hk.2 c (mem_of_mem_take hc)⟩, ?_,
      fun c hc => hk.2 c (mem_of_mem_drop hc)⟩
    · rw [length_take, hk.1]
      omega
    · rw [length_drop, hk.1]
      omega

/-- The entries of a node that is cut at an entry. -/
theorem Kids.elems (a a' : Nat) (b : ε) (h₁ : Kids mid cap h bs1.length cs1)
    (h₂ : Kids mid cap h bs2.length cs2) : BTree.elems (.node a (bs1 ++ b :: bs2) (cs1 ++ cs2)) =
      BTree.elems (.node a bs1 cs1) ++ b :: BTree.elems (.node a' bs2 cs2) := by
  cases h with
  | zero => exact elems_split a a' b (.inr ⟨h₁, h₂⟩)
  | succ h => exact elems_split a a' b (.inl h₁.1)

end Shape

/-! ## Cells -/

section Cells

/-- Induction over the nodes of a tree. -/
theorem induction {motive : BTree ε → Prop}
    (node : ∀ a bs cs, (∀ c ∈ cs, motive c) → motive (.node a bs cs)) : ∀ t, motive t
  | .node a bs cs => node a bs cs fun c hc =>
      have : sizeOf c < sizeOf (BTree.node a bs cs) := by
        have := sizeOf_lt_of_mem hc
        simp only [BTree.node.sizeOf_spec]
        omega
      induction node c
termination_by t => sizeOf t

/-- The entry in a cell. -/
def deref (t : BTree ε) (p : Nat × Nat) : Option ε :=
  (t.cells.find? fun x => decide (x.1 = p)).map Prod.snd

mutual

/-- Change the entry in a cell. -/
def modify (p : Nat × Nat) (f : ε → ε) : BTree ε → BTree ε
  | .node a bs cs => .node a (if a = p.1 then bs.modify p.2 f else bs) (modifyList p f cs)

/-- Change the entry in a cell of every tree of a list. -/
def modifyList (p : Nat × Nat) (f : ε → ε) : List (BTree ε) → List (BTree ε)
  | [] => []
  | c :: cs => c.modify p f :: modifyList p f cs

end

/-- Change the entry of a cell with its address. -/
def modifyCell (p : Nat × Nat) (f : ε → ε) (x : (Nat × Nat) × ε) : (Nat × Nat) × ε :=
  if x.1 = p then (x.1, f x.2) else x

variable {p : Nat × Nat} {f : ε → ε} {b : ε} {t : BTree ε}

theorem modifyList_eq_map : modifyList p f cs = cs.map (modify p f) := by
  induction cs with
  | nil => rfl
  | cons c cs ih => rw [modifyList, ih, map_cons]

theorem modify_node : modify p f (.node a bs cs) =
      .node a (if a = p.1 then bs.modify p.2 f else bs) (cs.map (modify p f)) := by
  rw [modify, modifyList_eq_map]

/-! ### Reading -/

theorem fst_of_mem_row : ∀ {i : Nat},
    x ∈ row a i bs → x.1.1 = a ∧ i ≤ x.1.2 := by
  induction bs with
  | nil => intro i hx; cases hx
  | cons b bs ih =>
    intro i hx
    rcases mem_cons.1 hx with rfl | hx
    · exact ⟨rfl, le_rfl⟩
    · obtain ⟨h1, h2⟩ := ih hx
      exact ⟨h1, by omega⟩

theorem row_nodup (a : Nat) (bs : List ε) : ∀ i, ((row a i bs).map Prod.fst).Nodup := by
  induction bs with
  | nil => exact fun _ => nodup_nil
  | cons b bs ih =>
    intro i
    rw [row, map_cons, nodup_cons]
    refine ⟨fun hmem => ?_, ih (i + 1)⟩
    obtain ⟨x, hx, heq⟩ := mem_map.1 hmem
    have := (fst_of_mem_row hx).2
    rw [heq] at this
    exact absurd this (Nat.not_succ_le_self i)

/-- Cells are in the nodes of the tree. -/
theorem fst_mem_addrs (t : BTree ε) : ∀ x ∈ t.cells, x.1.1 ∈ t.addrs := by
  induction t using BTree.induction with
  | node a bs cs ih =>
    intro x hx
    rw [addrs_node, mem_cons, mem_flatMap]
    rcases mem_cells_node.1 hx with ⟨c, hc, hx⟩ | hx
    · exact .inr ⟨c, hc, ih c hc x hx⟩
    · exact .inl (fst_of_mem_row hx).1

/-- A cell holds at most one entry. -/
theorem cells_nodup (t : BTree ε) (h : t.addrs.Nodup) : (t.cells.map Prod.fst).Nodup := by
  induction t using BTree.induction with
  | node a bs cs ih =>
    rw [addrs_node, nodup_cons, nodup_flatMap] at h
    obtain ⟨ha, hcs, hdisj⟩ := h
    have hp := (weave_perm (cs.map cells) (row a 0 bs)).map Prod.fst
    rw [cells_node, hp.nodup_iff, map_append, nodup_append, map_flatten, map_map, ← flatMap_def,
      nodup_flatMap]
    refine ⟨⟨fun c hc => ih c hc (hcs c hc), ?_⟩, row_nodup a bs 0, ?_⟩
    · refine hdisj.imp fun {c c'} hcc => ?_
      refine disjoint_left.2 fun y hy hy' => ?_
      obtain ⟨x, hx, rfl⟩ := mem_map.1 hy
      obtain ⟨x', hx', heq⟩ := mem_map.1 hy'
      refine disjoint_left.1 hcc (fst_mem_addrs c x hx) ?_
      rw [← heq]
      exact fst_mem_addrs c' x' hx'
    · intro y hy y' hy' heq
      obtain ⟨c, hc, hy⟩ := mem_flatMap.1 hy
      obtain ⟨x, hx, rfl⟩ := mem_map.1 hy
      obtain ⟨x', hx', rfl⟩ := mem_map.1 hy'
      refine ha (mem_flatMap.2 ⟨c, hc, ?_⟩)
      rw [← (fst_of_mem_row hx').1, ← heq]
      exact fst_mem_addrs c x hx

/-- The other cells are not the cell of the entry. -/
theorem cells_split (h : t.addrs.Nodup) (hmem : (p, b) ∈ t.cells) :
    ∃ l1 l2, t.cells = l1 ++ (p, b) :: l2 ∧ (∀ x ∈ l1, x.1 ≠ p) ∧ ∀ x ∈ l2, x.1 ≠ p := by
  have hnd := cells_nodup t h
  obtain ⟨l1, l2, heq⟩ := append_of_mem hmem
  rw [heq, map_append, map_cons, nodup_middle, nodup_cons, ← map_append] at hnd
  refine ⟨l1, l2, heq, forall_mem_append.1 ?_⟩
  rintro x hx rfl
  exact hnd.1 (mem_map.2 ⟨x, hx, rfl⟩)

theorem deref_of_mem (h : t.addrs.Nodup) (hmem : (p, b) ∈ t.cells) : t.deref p = some b := by
  obtain ⟨l1, l2, heq, hne, -⟩ := cells_split h hmem
  rw [deref, heq, find?_append, find?_eq_none.2 (by simpa using hne)]
  simp

/-! ### Writing -/

theorem map_modifyCell_of_ne {l : List ((Nat × Nat) × ε)}
    (h : ∀ x ∈ l, x.1 ≠ p) : l.map (modifyCell p f) = l := by
  refine map_congr_left (g := id) (fun x hx => ?_) |>.trans (map_id l)
  rw [modifyCell, if_neg (h x hx), id]

theorem row_modify : ∀ {i k : Nat},
    row a i (bs.modify k f) = (row a i bs).map (modifyCell (a, i + k) f) := by
  induction bs with
  | nil => intro i k; cases k <;> rfl
  | cons b bs ih =>
    intro i k
    cases k with
    | zero =>
      rw [modify_zero_cons, row, row, map_cons, modifyCell, if_pos (by rfl)]
      congr 1
      refine (map_modifyCell_of_ne fun x hx heq => ?_).symm
      have := (fst_of_mem_row hx).2
      rw [heq] at this
      exact absurd this (Nat.not_succ_le_self i)
    | succ k =>
      rw [modify_succ_cons, row, row, map_cons, ih, modifyCell, if_neg (by simp),
        Nat.add_right_comm, Nat.add_assoc]

theorem cells_modify : (t.modify p f).cells = t.cells.map (modifyCell p f) := by
  induction t using BTree.induction with
  | node a bs cs ih =>
    rw [modify_node, cells_node, cells_node, weave_map, map_map, map_map]
    congr 1
    · exact map_congr_left ih
    · by_cases ha : a = p.1
      · subst ha
        rw [if_pos rfl, row_modify, Nat.zero_add]
      · rw [if_neg ha]
        refine (map_modifyCell_of_ne fun x hx heq => ha ?_).symm
        rw [← (fst_of_mem_row hx).1, heq]

theorem addrs_modify : (t.modify p f).addrs = t.addrs := by
  induction t using BTree.induction with
  | node a bs cs ih =>
    rw [modify_node, addrs_node, addrs_node, flatMap_map]
    rw [flatMap_def, flatMap_def, map_congr_left ih]

/-- The entry in a cell is replaced in its place. -/
theorem elems_modify (h : t.addrs.Nodup) (hmem : (p, b) ∈ t.cells) (f : ε → ε) :
    ∃ l1 l2, t.elems = l1 ++ b :: l2 ∧ (t.modify p f).elems = l1 ++ f b :: l2 := by
  obtain ⟨l1, l2, heq, hne1, hne2⟩ := cells_split h hmem
  rw [elems, elems, cells_modify]
  refine ⟨l1.map Prod.snd, l2.map Prod.snd, by rw [heq]; simp, ?_⟩
  rw [heq, map_append, map_cons, modifyCell, if_pos rfl, map_modifyCell_of_ne hne1,
    map_modifyCell_of_ne hne2]
  simp

/-- Rows keep their length. -/
theorem Shape.modify {mid cap : Nat} (p : Nat × Nat) (f : ε → ε) : ∀ {h lo hi : Nat} {t : BTree ε},
    Shape mid cap lo hi h t → Shape mid cap lo hi h (t.modify p f) := by
  intro h
  induction h with
  | zero =>
    rintro lo hi ⟨a, bs, cs⟩ ⟨hrow, hcs⟩
    refine ⟨?_, by rw [hcs]; rfl⟩
    split
    · rwa [length_modify]
    · exact hrow
  | succ h ih =>
    rintro lo hi ⟨a, bs, cs⟩ ⟨hrow, hlen, hcs⟩
    rw [modify_node]
    have hl : (if a = p.1 then bs.modify p.2 f else bs).length = bs.length := by
      split
      · rw [length_modify]
      · rfl
    refine ⟨by rwa [hl], by rwa [hl, List.length_map], fun c hc => ?_⟩
    obtain ⟨c', hc', rfl⟩ := mem_map.1 hc
    exact ih (hcs c' hc')

end Cells

end BTree

end CharmRuntime.Lib
