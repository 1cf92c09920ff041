import Mathlib.Data.List.Pairwise
import Mathlib.Data.Finset.Card
import Mathlib.Algebra.GroupWithZero.Nat

/-!
# Trees by recursive partition

A list stands for a tree: its first element is the root, and the others are split into parts, each
of which stands for a subtree. An element finds its parent and its children by going down to the
part that it is in, without building the rest of the tree (`walk`).

If every list is split into lists that can be split again, then all elements find their places in
the same tree (`SplitsWell.spanningTree`). If moreover no part mixes elements like the root with
others, then as few edges as possible join elements of different kinds
(`SplitsByKey.card_crossing`).
-/

set_option autoImplicit false

namespace CharmRuntime.Lib.RecursivePartition

open List Option

universe u

variable {α : Type u}

/-- A way to split lists. It may depend on whether the list is already a part of another one. -/
abbrev Split (α : Type u) : Type u := Bool → List α → Option (List (List α))

/-- What an element knows of the tree. -/
structure Place (α : Type u) where
  parent : Option α
  children : List α
  deriving DecidableEq

/-- An element looks for its place. `fuel` bounds the depth, and `above` is the parent of the list's
root. -/
def walk [DecidableEq α] (split : Split α) : Nat → List α → Option α → α → Option (Place α)
  | 0, _, _, _ => none
  | _ + 1, [], _, _ => none
  | fuel + 1, root :: l, above, me =>
    (split above.isSome (root :: l)).bind fun subs =>
      if me = root then some ⟨above, subs.filterMap head?⟩
      else (subs.find? (me ∈ ·)).bind fun sub => walk split fuel sub (some root) me

/-- The edges of the whole tree, from parents to children. -/
def edges (split : Split α) : Nat → Bool → List α → List (α × α)
  | 0, _, _ => []
  | _ + 1, _, [] => []
  | fuel + 1, isPart, root :: l =>
    ((split isPart (root :: l)).getD []).flatMap fun sub =>
      (sub.head?.toList.map fun child => (root, child)) ++ edges split fuel true sub

/-- Lists of a class are not empty, and are split into lists of the class. -/
structure SplitsWell (split : Split α) (Good : Bool → List α → Prop) : Prop where
  ne_nil : ∀ {isPart : Bool} {l : List α}, Good isPart l → l ≠ []
  splits : ∀ {isPart : Bool} {root : α} {l : List α}, Good isPart (root :: l) →
    ∃ subs, split isPart (root :: l) = some subs ∧ subs.flatten.Perm l ∧ ∀ sub ∈ subs, Good true sub

/-- The answers of the elements of a list describe one tree with the given root. -/
structure SpanningTree (l : List α) (root : α) (answer : α → Option (Place α)) : Prop where
  answers : ∀ v ∈ l, ∃ place, answer v = some place ∧ place.children.Nodup ∧
    (∀ c ∈ place.children, c ∈ l) ∧ (∀ p ∈ place.parent, p ∈ l) ∧ (place.parent = none ↔ v = root)
  agree : ∀ p ∈ l, ∀ c ∈ l, ∀ P C, answer p = some P → answer c = some C →
    (c ∈ P.children ↔ C.parent = some p)
  reached : ∀ v ∈ l, Relation.ReflTransGen (fun p c => ∃ P,
    answer p = some P ∧ c ∈ P.children) root v

/-- Only the answers of the elements matter. -/
theorem SpanningTree.congr {l : List α} {root : α} {answer answer' : α → Option (Place α)}
    (h : SpanningTree l root answer) (hroot : root ∈ l) (heq : ∀ v ∈ l, answer v = answer' v) :
    SpanningTree l root answer' := by
  refine ⟨fun v hv => heq v hv ▸ h.answers v hv, fun p hp c hc P C hP hC => ?_, fun v hv => ?_⟩
  · exact h.agree p hp c hc P C ((heq p hp).trans hP) ((heq c hc).trans hC)
  · have hpath : v ∈ l ∧ Relation.ReflTransGen (fun p c => ∃ P, answer' p = some P ∧ c ∈ P.children)
        root v := by
      have hreach := h.reached v hv
      clear hv
      induction hreach with
      | refl => exact ⟨hroot, .refl⟩
      | @tail p c _ hstep ih =>
        obtain ⟨P, hP, hc⟩ := hstep
        obtain ⟨place, hplace, -, hchildren, -⟩ := h.answers p ih.1
        obtain rfl : P = place := some.inj (hP.symm.trans hplace)
        exact ⟨hchildren c hc, ih.2.tail ⟨P, (heq p ih.1) ▸ hP, hc⟩⟩
    exact hpath.2

variable {subs : List (List α)}

section Edges

variable {split : Split α} {Good : Bool → List α → Prop} {fuel : Nat} {isPart : Bool} {root p c : α}
  {l : List α}

theorem edges_cons (h : split isPart (root :: l) = some subs) :
    edges split (fuel + 1) isPart (root :: l) = subs.flatMap fun sub =>
      (sub.head?.toList.map fun child => (root, child)) ++ edges split fuel true sub := by
  rw [edges, h, getD_some]

variable (h : SplitsWell split Good)

include h

/-- A part has a root of its own, and is shorter than the list. -/
theorem SplitsWell.part_cons {sub : List α}
    (hperm : subs.flatten.Perm l) (hfuel : l.length < fuel + 1) (hsub : sub ∈ subs)
    (hgood : Good true sub) : ∃ root' l', sub = root' :: l' ∧ l'.length < fuel := by
  obtain ⟨root', l', rfl⟩ := exists_cons_of_ne_nil (h.ne_nil hgood)
  have hle := (sublist_flatten_of_mem hsub).length_le
  rw [hperm.length_eq, length_cons] at hle
  exact ⟨root', l', rfl, by omega⟩

/-- Every element but the root is the child in exactly one edge. -/
theorem SplitsWell.map_snd_edges (hgood : Good isPart (root :: l))
    (hfuel : l.length < fuel) : ((edges split fuel isPart (root :: l)).map Prod.snd).Perm l := by
  induction fuel generalizing isPart root l with
  | zero => exact absurd hfuel (Nat.not_lt_zero _)
  | succ fuel ih =>
    obtain ⟨subs, hsubs, hperm, hsubsGood⟩ := h.splits hgood
    have hpart : ∀ sub ∈ subs, (((sub.head?.toList.map fun child => (root, child)) ++
        edges split fuel true sub).map Prod.snd).Perm sub := by
      intro sub hsub
      obtain ⟨root', l', rfl, hlen⟩ := h.part_cons hperm hfuel hsub (hsubsGood sub hsub)
      exact (ih (hsubsGood _ hsub) hlen).cons root'
    rw [edges_cons hsubs, map_flatMap]
    refine Perm.trans ?_ hperm
    rw [flatten_eq_flatMap]
    exact Perm.flatMap_left _ hpart

/-- An element has one parent. -/
theorem SplitsWell.parent_unique (hgood : Good isPart (root :: l))
    (hnd : l.Nodup) (hfuel : l.length < fuel) {p' : α}
    (he : (p, c) ∈ edges split fuel isPart (root :: l))
    (he' : (p', c) ∈ edges split fuel isPart (root :: l)) : p = p' := by
  have hmap := (h.map_snd_edges hgood hfuel).nodup_iff.2 hnd
  exact congrArg Prod.fst (inj_on_of_nodup_map hmap he he' rfl)

omit h in
theorem mem_edges_cons (h : split isPart (root :: l) = some subs) :
    (p, c) ∈ edges split (fuel + 1) isPart (root :: l) ↔
      ∃ sub ∈ subs, p = root ∧ sub.head? = some c ∨ (p, c) ∈ edges split fuel true sub := by
  rw [edges_cons h, mem_flatMap]
  refine exists_congr fun sub => and_congr_right fun _ => ?_
  rw [mem_append, List.mem_map]
  refine or_congr_left ⟨?_, ?_⟩
  · rintro ⟨child, hchild, heq⟩
    obtain ⟨rfl, rfl⟩ := Prod.mk.inj heq
    exact ⟨rfl, mem_toList.1 hchild⟩
  · rintro ⟨rfl, hhead⟩
    exact ⟨c, mem_toList.2 hhead, rfl⟩

/-- The parent in an edge is an element of the list. -/
theorem SplitsWell.mem_of_mem_edges (hgood : Good isPart l)
    (he : (p, c) ∈ edges split fuel isPart l) : p ∈ l := by
  induction fuel generalizing isPart l with
  | zero => exact absurd he not_mem_nil
  | succ fuel ih =>
    obtain ⟨root, l, rfl⟩ := exists_cons_of_ne_nil (h.ne_nil hgood)
    obtain ⟨subs, hsubs, hperm, hsubsGood⟩ := h.splits hgood
    obtain ⟨sub, hsub, ⟨rfl, -⟩ | he⟩ := (mem_edges_cons hsubs).1 he
    · exact mem_cons_self
    · have hp := ih (hsubsGood sub hsub) he
      exact mem_cons_of_mem _ (hperm.subset (mem_flatten.2 ⟨sub, hsub, hp⟩))

/-- From the root there is a way to every element. -/
theorem SplitsWell.reached (hgood : Good isPart (root :: l))
    (hfuel : l.length < fuel) {v : α} (hv : v ∈ root :: l) :
    Relation.ReflTransGen (fun p c => (p, c) ∈ edges split fuel isPart (root :: l)) root v := by
  induction fuel generalizing isPart root l with
  | zero => exact absurd hfuel (Nat.not_lt_zero _)
  | succ fuel ih =>
    rcases mem_cons.1 hv with rfl | hv
    · exact .refl
    · obtain ⟨subs, hsubs, hperm, hsubsGood⟩ := h.splits hgood
      obtain ⟨sub, hsub, hv⟩ := mem_flatten.1 (hperm.symm.subset hv)
      obtain ⟨root', l', rfl, hlen⟩ := h.part_cons hperm hfuel hsub (hsubsGood sub hsub)
      -- First to the root of the part, and then within the part.
      refine .head ((mem_edges_cons hsubs).2 ⟨_, hsub, .inl ⟨rfl, rfl⟩⟩) ?_
      refine Relation.ReflTransGen.mono (fun p c he => ?_) _ _ (ih (hsubsGood _ hsub) hlen hv)
      exact (mem_edges_cons hsubs).2 ⟨_, hsub, .inr he⟩

end Edges

/-! ## Looking for a place -/

section Walk

variable [DecidableEq α] {split : Split α} {Good : Bool → List α → Prop} {fuel : Nat} {root : α}
  {l : List α}

/-- What `walk` finds are the edges at the element. -/
structure Finds (l : List α) (es : List (α × α)) (above : Option α) (me : α)
    (place : Place α) : Prop where
  root : l.head? = some me → place.parent = above
  parent : l.head? ≠ some me → ∃ p, place.parent = some p ∧ (p, me) ∈ es
  children : ∀ c, c ∈ place.children ↔ (me, c) ∈ es
  nodup : place.children.Nodup

omit [DecidableEq α] in
theorem nodup_heads (h : subs.flatten.Nodup) : (subs.filterMap head?).Nodup := by
  refine h.sublist ?_
  induction subs with
  | nil => exact .slnil
  | cons sub subs ih =>
    rw [flatten_cons, nodup_append] at h
    cases sub with
    | nil => exact ih h.2.1
    | cons x sub => exact ((ih h.2.1).trans (sublist_append_right sub _)).cons_cons x

omit [DecidableEq α] in
theorem eq_of_mem_parts (h : subs.flatten.Nodup) {sub sub' : List α} (hsub : sub ∈ subs)
    (hsub' : sub' ∈ subs) {x : α} (hx : x ∈ sub) (hx' : x ∈ sub') : sub = sub' := by
  by_contra hne
  have : Std.Symm (α := List α) List.Disjoint := ⟨fun _ _ h => h.symm⟩
  exact (nodup_flatten.1 h).2.forall hsub hsub' hne hx hx'

theorem SplitsWell.walk_finds (h : SplitsWell split Good) (above : Option α)
    (hgood : Good above.isSome (root :: l)) (hnd : (root :: l).Nodup)
    (hfuel : l.length < fuel) {me : α}
    (hme : me ∈ root :: l) : ∃ place, walk split fuel (root :: l) above me = some place ∧
      Finds (root :: l) (edges split fuel above.isSome (root :: l)) above me place := by
  induction fuel generalizing above root l with
  | zero => exact absurd hfuel (Nat.not_lt_zero _)
  | succ fuel ih =>
    obtain ⟨subs, hsubs, hperm, hsubsGood⟩ := h.splits hgood
    have hsubsNodup : subs.flatten.Nodup := hperm.nodup_iff.2 (nodup_cons.1 hnd).2
    have hroot : ∀ sub ∈ subs, root ∉ sub := fun sub hsub hmem =>
      (nodup_cons.1 hnd).1 (hperm.subset (mem_flatten.2 ⟨sub, hsub, hmem⟩))
    rw [walk, hsubs, bind_some]
    by_cases hme' : me = root
    · subst hme'
      rw [if_pos rfl]
      refine ⟨_, rfl, fun _ => rfl, fun hne => absurd rfl hne, fun c => ?_, nodup_heads hsubsNodup⟩
      rw [mem_edges_cons hsubs, mem_filterMap]
      refine exists_congr fun sub => and_congr_right fun hsub => ⟨fun hc => .inl ⟨rfl, hc⟩, ?_⟩
      rintro (⟨-, hc⟩ | he)
      · exact hc
      · exact absurd (h.mem_of_mem_edges (hsubsGood sub hsub) he) (hroot sub hsub)
    · rw [if_neg hme']
      have hmem := hperm.symm.subset ((mem_cons.1 hme).resolve_left hme')
      obtain ⟨sub0, hsub0, hmem0⟩ := mem_flatten.1 hmem
      obtain ⟨sub, hfind⟩ : ∃ sub, subs.find? (me ∈ ·) = some sub := isSome_iff_exists.1
        (find?_isSome.2 ⟨sub0, hsub0, decide_eq_true hmem0⟩)
      have hsub := mem_of_find?_eq_some hfind
      have hmem : me ∈ sub := by simpa using find?_some hfind
      rw [hfind, bind_some]
      obtain ⟨root', l', rfl, hlen⟩ := h.part_cons hperm hfuel hsub (hsubsGood sub hsub)
      obtain ⟨place, hplace, hfinds⟩ := ih (some root) (hsubsGood _ hsub)
        (hsubsNodup.sublist (sublist_flatten_of_mem hsub)) hlen hmem
      refine ⟨place, hplace, fun hhead => absurd (some.inj hhead).symm hme', fun _ => ?_,
        fun c => ?_, hfinds.nodup⟩
      · by_cases hhead : (root' :: l').head? = some me
        · exact ⟨root, hfinds.root hhead, (mem_edges_cons hsubs).2 ⟨_, hsub, .inl ⟨rfl, hhead⟩⟩⟩
        · obtain ⟨p, hp, he⟩ := hfinds.parent hhead
          exact ⟨p, hp, (mem_edges_cons hsubs).2 ⟨_, hsub, .inr he⟩⟩
      · rw [hfinds.children c, mem_edges_cons hsubs]
        refine ⟨fun he => ⟨_, hsub, .inr he⟩, ?_⟩
        rintro ⟨sub', hsub', ⟨hroot', -⟩ | he⟩
        · exact absurd hroot' hme'
        · -- The edges at an element are in the part that it is in.
          have hmem' := h.mem_of_mem_edges (hsubsGood sub' hsub') he
          rwa [eq_of_mem_parts hsubsNodup hsub hsub' hmem hmem']

/-- All elements find their places in the same tree. -/
theorem SplitsWell.spanningTree (h : SplitsWell split Good) (hgood : Good false (root :: l))
    (hnd : (root :: l).Nodup) (hfuel : l.length < fuel) :
    SpanningTree (root :: l) root (walk split fuel (root :: l) none) := by
  have hfinds : ∀ {v place}, v ∈ root :: l → walk split fuel (root :: l) none v = some place →
      Finds (root :: l) (edges split fuel false (root :: l)) none v place := by
    intro v place hv hplace
    obtain ⟨place', hplace', hfinds⟩ := h.walk_finds none hgood hnd hfuel hv
    rwa [some.inj (hplace.symm.trans hplace')]
  have hperm := h.map_snd_edges hgood hfuel
  have hsnd : ∀ {p c}, (p, c) ∈ edges split fuel false (root :: l) → c ∈ l := fun he =>
    hperm.subset (List.mem_map_of_mem he)
  have hne : ∀ {c}, c ∈ l → (root :: l).head? ≠ some c := by
    intro c hc hhead
    obtain rfl : root = c := some.inj hhead
    exact (nodup_cons.1 hnd).1 hc
  refine ⟨fun v hv => ?_, fun p hp c hc P C hP hC => ?_, fun v hv => ?_⟩
  · obtain ⟨place, hplace, hf⟩ := h.walk_finds none hgood hnd hfuel hv
    refine ⟨place, hplace, hf.nodup, fun c hc => ?_, fun p hp => ?_, ?_⟩
    · exact mem_cons_of_mem _ (hsnd ((hf.children c).1 hc))
    · by_cases hhead : (root :: l).head? = some v
      · exact absurd (hf.root hhead) (by rw [hp]; simp)
      · obtain ⟨p', hp', he⟩ := hf.parent hhead
        obtain rfl : p = p' := some.inj (hp.symm.trans hp')
        exact h.mem_of_mem_edges hgood he
    · refine ⟨fun hnone => ?_, fun hv => hf.root (by rw [hv]; rfl)⟩
      by_contra hv
      obtain ⟨p, hp, -⟩ := hf.parent fun hhead => hv (some.inj hhead).symm
      exact absurd hp (by rw [hnone]; simp)
  · have hfp := hfinds hp hP
    have hfc := hfinds hc hC
    rw [hfp.children c]
    refine ⟨fun he => ?_, fun hpar => ?_⟩
    · obtain ⟨p', hp', he'⟩ := hfc.parent (hne (hsnd he))
      rw [hp', h.parent_unique hgood (nodup_cons.1 hnd).2 hfuel he he']
    · have hhead : (root :: l).head? ≠ some c := fun hhead =>
        absurd (hfc.root hhead) (by rw [hpar]; simp)
      obtain ⟨p', hp', he'⟩ := hfc.parent hhead
      rwa [some.inj (hpar.symm.trans hp')]
  · refine Relation.ReflTransGen.mono (fun p c he => ?_) _ _ (h.reached hgood hfuel hv)
    obtain ⟨place, hplace, hf⟩ := h.walk_finds none hgood hnd hfuel (h.mem_of_mem_edges hgood he)
    exact ⟨place, hplace, (hf.children c).2 he⟩

end Walk

/-! ## Elements of different kinds -/

universe v

/-- The kinds of the elements of a list. -/
def kinds {κ : Type v} [DecidableEq κ] (key : α → κ) (l : List α) : Finset κ := (l.map key).toFinset

/-- The parent of an element is of another kind. -/
def crosses {κ : Type v} [DecidableEq κ] (key : α → κ) (answer : α → Option (Place α))
    (v : α) : Bool :=
  ((answer v).bind Place.parent).any fun p => key p ≠ key v

/-- The parts of a list either hold only elements like the root, or none; and the elements of one
kind are all in one part, if they are not like the root. -/
structure SplitsByKey {κ : Type v} (split : Split α) (Good : Bool → List α → Prop) (key : α → κ) :
    Prop extends
    SplitsWell split Good where
  byKey : ∀ {isPart : Bool} {root : α} {l : List α} {subs : List (List α)},
    Good isPart (root :: l) →
    split isPart (root :: l) = some subs → ∃ inner outer, subs = inner ++ outer ∧
      (∀ sub ∈ inner, ∀ x ∈ sub, key x = key root) ∧ (∀ sub ∈ outer, ∀ x ∈ sub, key x ≠ key root) ∧
      outer.Pairwise fun sub sub' => ∀ x ∈ sub, ∀ y ∈ sub', key x ≠ key y

section Kinds

variable {κ : Type v} [DecidableEq κ] {key : α → κ} {split : Split α} {Good : Bool → List α → Prop}
  {fuel : Nat} {isPart : Bool} {root : α} {l : List α}

theorem mem_kinds {k : κ} : k ∈ kinds key l ↔ ∃ x ∈ l, key x = k := by
  rw [kinds, List.mem_toFinset, List.mem_map]

theorem kinds_append (l' : List α) : kinds key (l ++ l') = kinds key l ∪ kinds key l' := by
  rw [kinds, map_append, toFinset_append, kinds, kinds]

theorem kinds_congr {l' : List α} (h : l.Perm l') : kinds key l = kinds key l' :=
  toFinset_eq_of_perm _ _ (h.map key)

theorem sum_card_kinds (h : subs.Pairwise fun sub sub' => ∀ x ∈ sub, ∀ y ∈ sub', key x ≠ key y) :
    (subs.map fun sub => (kinds key sub).card).sum = (kinds key subs.flatten).card := by
  induction subs with
  | nil => rfl
  | cons sub subs ih =>
    rw [pairwise_cons] at h
    rw [map_cons, sum_cons, ih h.2, flatten_cons, kinds_append, Finset.card_union_of_disjoint]
    rw [Finset.disjoint_left]
    intro k hk hk'
    obtain ⟨x, hx, rfl⟩ := mem_kinds.1 hk
    obtain ⟨y, hy, hxy⟩ := mem_kinds.1 hk'
    obtain ⟨sub', hsub', hy⟩ := mem_flatten.1 hy
    exact h.1 sub' hsub' x hx y hy hxy.symm

variable (h : SplitsByKey split Good key)

include h

/-- The edges of the tree that join elements of different kinds are one less than the kinds. -/
theorem SplitsByKey.length_crossing (hgood : Good isPart (root :: l))
    (hfuel : l.length < fuel) :
    ((edges split fuel isPart (root :: l)).filter fun e => key e.1 ≠ key e.2).length + 1 =
      (kinds key (root :: l)).card := by
  induction fuel generalizing isPart root l with
  | zero => exact absurd hfuel (Nat.not_lt_zero _)
  | succ fuel ih =>
    obtain ⟨subs, hsubs, hperm, hsubsGood⟩ := h.splits hgood
    obtain ⟨inner, outer, rfl, hinner, houter, hpair⟩ := h.byKey hgood hsubs
    have hpart : ∀ sub ∈ inner ++ outer, ∃ root' l', sub = root' :: l' ∧
        ((edges split fuel true sub).filter fun e => key e.1 ≠ key e.2).length + 1 =
          (kinds key sub).card := by
      intro sub hsub
      obtain ⟨root', l', rfl, hlen⟩ := h.part_cons hperm hfuel hsub (hsubsGood sub hsub)
      exact ⟨root', l', rfl, ih (hsubsGood _ hsub) hlen⟩
    have hzero : ∀ sub ∈ inner, (((sub.head?.toList.map fun child => (root, child)) ++
        edges split fuel true sub).filter fun e => key e.1 ≠ key e.2).length = 0 := by
      intro sub hsub
      obtain ⟨root', l', rfl, hlen⟩ := hpart sub (mem_append_left _ hsub)
      have hkey := hinner _ hsub
      have hcard : kinds key (root' :: l') = {key root} := by
        ext k
        rw [mem_kinds, Finset.mem_singleton]
        refine ⟨?_, fun hk => ⟨root', mem_cons_self, hk ▸ hkey root' mem_cons_self⟩⟩
        rintro ⟨x, hx, rfl⟩
        exact hkey x hx
      rw [hcard, Finset.card_singleton] at hlen
      simpa [hkey root' mem_cons_self] using hlen
    have hcard : ∀ sub ∈ outer, (((sub.head?.toList.map fun child => (root, child)) ++
        edges split fuel true sub).filter fun e => key e.1 ≠ key e.2).length =
            (kinds key sub).card := by
      intro sub hsub
      obtain ⟨root', l', rfl, hlen⟩ := hpart sub (mem_append_right _ hsub)
      have hkey := houter _ hsub root' mem_cons_self
      rw [← hlen, filter_append, length_append, add_comm]
      simp [Ne.symm hkey]
    rw [edges_cons hsubs, filter_flatMap, length_flatMap, map_append, sum_append,
      map_congr_left hzero, map_congr_left hcard, sum_card_kinds hpair, map_const',
      sum_replicate_nat, mul_zero, zero_add]
    -- The kinds are that of the root and those outside.
    have hkinds : kinds key (root :: l) = insert (key root) (kinds key outer.flatten) := by
      rw [kinds_congr (hperm.symm.cons root)]
      ext k
      rw [Finset.mem_insert, mem_kinds, mem_kinds, flatten_append]
      refine ⟨?_, ?_⟩
      · rintro ⟨x, hx, rfl⟩
        rcases mem_cons.1 hx with rfl | hx
        · exact .inl rfl
        · rcases mem_append.1 hx with hx | hx
          · obtain ⟨sub, hsub, hx⟩ := mem_flatten.1 hx
            exact .inl (hinner sub hsub x hx)
          · exact .inr ⟨x, hx, rfl⟩
      · rintro (rfl | ⟨x, hx, rfl⟩)
        · exact ⟨root, mem_cons_self, rfl⟩
        · exact ⟨x, mem_cons_of_mem _ (mem_append_right _ hx), rfl⟩
    rw [hkinds, Finset.card_insert_of_notMem]
    intro hmem
    obtain ⟨x, hx, hkey⟩ := mem_kinds.1 hmem
    obtain ⟨sub, hsub, hx⟩ := mem_flatten.1 hx
    exact houter sub hsub x hx hkey

/-- The elements that find a parent of another kind are one less than the kinds. -/
theorem SplitsByKey.card_crossing [DecidableEq α]
    (hgood : Good false (root :: l)) (hnd : (root :: l).Nodup) (hfuel : l.length < fuel) :
    ((root :: l).filter (crosses key (walk split fuel (root :: l) none))).length + 1 =
      (kinds key (root :: l)).card := by
  have hperm := h.map_snd_edges hgood hfuel
  have hroot : crosses key (walk split fuel (root :: l) none) root = false := by
    obtain ⟨place, hplace, hf⟩ := h.walk_finds none hgood hnd hfuel mem_cons_self
    rw [crosses, hplace, bind_some, hf.root rfl]
    rfl
  have hedge : ∀ e ∈ edges split fuel false (root :: l),
      crosses key (walk split fuel (root :: l) none) e.2 = decide (key e.1 ≠ key e.2) := by
    rintro ⟨p, c⟩ he
    have hc : c ∈ l := hperm.subset (List.mem_map_of_mem he)
    obtain ⟨place, hplace, hf⟩ := h.walk_finds none hgood hnd hfuel (mem_cons_of_mem root hc)
    obtain ⟨p', hp', he'⟩ := hf.parent fun hhead => by
      obtain rfl : root = c := some.inj hhead
      exact (nodup_cons.1 hnd).1 hc
    rw [crosses, hplace, bind_some, hp', h.parent_unique hgood (nodup_cons.1 hnd).2 hfuel he he']
    rfl
  rw [← h.length_crossing hgood hfuel, filter_cons_of_neg (by rw [hroot]; simp),
    ← (hperm.filter _).length_eq, List.filter_map, List.length_map]
  exact congrArg (List.length · + 1) (filter_congr hedge)

end Kinds

end CharmRuntime.Lib.RecursivePartition
