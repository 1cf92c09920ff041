import CharmRuntime.Isomalloc.SlotSet

/-!
# The free slots of a slot set

A slot set stands for the set of its free slots. `grab_slots` removes a range from it and
`free_slots` adds one (`SlotOp.apply`), as long as the range is free, respectively allocated
(`SlotOp.Legal`). `grabSlots_spec` and `freeSlots_spec` are the two steps of the refinement, and
`slotset_valid` is about every run that starts with `new_slotset`.

Slot numbers are integers here. In the source they are 64-bit integers, and the slots of all
processors together are fewer than `2 ^ 63`.
-/

set_option autoImplicit false

namespace CharmRuntime.Isomalloc

open Lib BTree List Option
open Intervals (Covers)

/-- The blocks are the maximal ranges of the set. -/
abbrev Holding (bs : List SlotBlock) (F : Set Int) : Prop :=
  Intervals.Represents SlotBlock.startslot SlotBlock.nslots bs F

/-- The slots `[startslot, startslot + nslots)`. -/
abbrev slots (startslot nslots : Int) : Set Int := {x | startslot ≤ x ∧ x < startslot + nslots}

section Step

variable {ss : SlotSet} {F : Set Int} {start n : Int}

variable {bs : List SlotBlock}

theorem Holding.spaced (h : Holding bs F) (hs : Sorted SlotBlock.startslot bs) : Spaced bs :=
  ⟨h.pos, h.pairwise hs⟩

variable {b : SlotBlock} {bs' : List SlotBlock} {F' : Set Int}

/-- Shrinking a block or removing it. -/
theorem Holding.shrink {N : SlotBlock → Prop}
    (h : Holding bs F) (hb : b ∈ bs) (hmem : ∀ e, e ∈ bs' ↔ (e ∈ bs ∧ e ≠ b) ∨ N e)
    (hnew : ∀ e e', N e → N e' → e = e') (hpos : ∀ e, N e → 1 ≤ e.nslots)
    (hin : ∀ e, N e → b.startslot ≤ e.startslot ∧ e.startslot + e.nslots ≤ b.startslot + b.nslots)
    (hF' : ∀ x, x ∈ F' ↔ (x ∈ F ∧ ¬ Holds b x) ∨ ∃ e, N e ∧ Holds e x) : Holding bs' F' := by
  refine h.edit hmem hnew hpos (fun e he e' he' hne => ?_) fun x => ?_
  · have := hin e he
    rcases h.apart b hb e' he' (Ne.symm hne) with h' | h'
    · exact .inl (by omega)
    · exact .inr (by omega)
  · rw [hF' x]
    refine or_congr_left (and_congr_right fun _ => ?_)
    constructor
    · rintro hx e - hc rfl
      exact hx hc
    · exact fun hx hc => hx b hb hc rfl

variable {s k : Int}

/-- What is left when a range is taken out of a block. -/
theorem mem_carve (hb : ∀ x, Holds b x → x ∈ F)
    (hl : b.startslot ≤ s) (hr : s + k ≤ b.startslot + b.nslots) (hk : 1 ≤ k) (x : Int) :
    x ∈ F \ slots s k ↔ (x ∈ F ∧ ¬ Holds b x) ∨ (b.startslot ≤ x ∧ x < s) ∨
      (s + k ≤ x ∧ x < b.startslot + b.nslots) := by
  have hbx := hb x
  simp only [Set.mem_sdiff, Set.mem_ofPred_eq, Covers] at hbx ⊢
  constructor
  · rintro ⟨hx, hout⟩
    by_cases hxb : b.startslot ≤ x ∧ x < b.startslot + b.nslots
    · exact .inr (by omega)
    · exact .inl ⟨hx, hxb⟩
  · rintro (⟨hx, hout⟩ | hx)
    · exact ⟨hx, by omega⟩
    · exact ⟨hbx (by omega), by omega⟩

/-- The slots of the blocks are among all slots. -/
theorem Holding.within (hF : Holding bs F) (hsub : F ⊆ slots start n) (hb : b ∈ bs) :
    start ≤ b.startslot ∧ b.startslot + b.nslots ≤ start + n := by
  have hpos := hF.pos b hb
  have h1 := hsub ((hF.cover b.startslot).2 ⟨b, hb, le_rfl, by omega⟩)
  have h2 := hsub ((hF.cover (b.startslot + b.nslots - 1)).2 ⟨b, hb, by omega, by omega⟩)
  exact ⟨h1.1, by have := h2.2; omega⟩

/-- The operation succeeds, and `F` are the free slots then. -/
def Leaves (o : Option SlotSet) (F : Set Int) : Prop :=
  ∃ ss, o = some ss ∧ ss.Linked ∧ Holding ss.btreeRoot.elems F

variable (h : ss.Linked) (hF : Holding ss.btreeRoot.elems F) {p : Ptr}

include h hF

/-- The block of a slot is found if there is one; slots are not negative. -/
theorem find_spec (hpos : ∀ y ∈ F, 0 ≤ y) (x : Int) :
    ∃ r, findBtreeSlotblock ss.btreeRoot x = some r ∧ Finds ss.btreeRoot x r := by
  rcases lt_or_ge x 0 with hx | hx
  · refine ⟨none, ?_, fun b hb hc => ?_⟩
    · obtain ⟨a, bs, cs⟩ := ss.btreeRoot
      rw [findBtreeSlotblock, if_pos (.inl hx)]
    · have := hpos x ((hF.cover x).2 ⟨b, hb, hc⟩)
      omega
  · have hsp := hF.spaced h.ok.sorted
    rcases h.root with hs | ⟨n, hs⟩
    · exact findBtreeSlotblock_spec hx (.inl rfl) hs hsp
    · exact findBtreeSlotblock_spec hx (.inr le_rfl) hs hsp

/-- Changing the range of a block inside its old range. -/
theorem setRange_shrink (hcell : (p, b) ∈ ss.btreeRoot.cells) (hk : 1 ≤ k)
    (hl : b.startslot ≤ s) (hr : s + k ≤ b.startslot + b.nslots)
    (hF' : ∀ x, x ∈ F' ↔ (x ∈ F ∧ ¬ Holds b x) ∨ (s ≤ x ∧ x < s + k)) :
    Leaves (setRange ss p s k) F' := by
  have hbe : b ∈ ss.btreeRoot.elems := List.mem_map_of_mem hcell
  have hsize := h.size b hbe
  have horder : StaysAt ss.btreeRoot.elems b s := by
    intro e he
    refine ⟨fun hlt => by omega, fun hlt => ?_⟩
    have hne : b ≠ e := by
      rintro rfl
      omega
    have := hF.pos e he
    rcases hF.apart b hbe e he hne with h' | h'
    · omega
    · omega
  obtain ⟨ss', heq, hlink, hmem, -⟩ := setRange_spec h hcell hk (by omega) horder
  refine ⟨ss', heq, hlink, hF.shrink hbe hmem (fun e e' he he' => he.trans he'.symm) ?_ ?_ ?_⟩
  · rintro e rfl
    exact hk
  · rintro e rfl
    exact ⟨hl, hr⟩
  · intro x
    rw [hF' x]
    simp [Covers]

section Merge

variable (hlow : s - 1 ∉ F) (hhigh : s + k ∉ F)

include hlow hhigh

/-- Growing a block by slots that are not free. -/
theorem setRange_grow {R : Set Int} (hcell : (p, b) ∈ ss.btreeRoot.cells) (hk : k ≤ 2 ^ 62)
    (hl : s ≤ b.startslot) (hr : b.startslot + b.nslots ≤ s + k) (hR : ∀ x ∈ R, x ∉ F)
    (hrange : ∀ x, x ∈ slots s k ↔ x ∈ R ∨ Holds b x) : Leaves (setRange ss p s k) (F ∪ R) := by
  have hbe : b ∈ ss.btreeRoot.elems := List.mem_map_of_mem hcell
  have hsize := h.size b hbe
  have hG : ∀ e ∈ [b], e ∈ ss.btreeRoot.elems := forall_mem_singleton.2 hbe
  have hnew : ∀ x, Holds ⟨s, k, b.listblock⟩ x ↔ x ∈ R ∨ ∃ e ∈ [b], Holds e x := fun x => by
    simp only [mem_singleton, exists_eq_left]
    exact hrange x
  have horder : StaysAt ss.btreeRoot.elems b s := by
    intro e he
    refine ⟨fun hlt => ?_, fun hlt => by omega⟩
    have hne : e ∉ [b] := by
      rw [mem_singleton]
      rintro rfl
      omega
    have hap : s + k < e.startslot ∨ e.startslot + e.nslots < s :=
      hF.apart_new hlow hhigh hG hR hnew he hne
    have := hF.pos e he
    omega
  obtain ⟨ss', heq, hlink, hmem, -⟩ := setRange_spec h hcell (by omega) hk horder
  refine ⟨ss', heq, hlink, hF.merge hlow hhigh hG hR hnew (show 1 ≤ k by omega) fun e => ?_⟩
  rw [hmem e, mem_singleton]

/-- Inserting a block away from the others. -/
theorem insertBlock_apart (hk : 1 ≤ k) (hk' : k ≤ 2 ^ 62) (hout : ∀ x ∈ slots s k, x ∉ F) :
    Leaves (insertBlock ss s k) (F ∪ slots s k) := by
  have hne : ∀ e ∈ ss.btreeRoot.elems, e.startslot ≠ s := by
    rintro e he rfl
    have := hF.pos e he
    exact hout _ ⟨le_rfl, by omega⟩ ((hF.cover _).2 ⟨e, he, le_rfl, by omega⟩)
  obtain ⟨ss', heq, hlink, hmem⟩ := insertBlock_spec h hne hk hk'
  refine ⟨ss', heq, hlink, hF.merge (G := []) (m := ⟨s, k, ss.heap.fresh⟩) hlow hhigh nofun hout
    (fun x => ?_) hk
    fun e => ?_⟩
  · simp [Covers]
  · simp [hmem e]

end Merge

variable (hsub : F ⊆ slots start n) (h0 : 0 ≤ start)

include hsub h0

/-- `grab_slots` of a free range. -/
theorem grabSlots_spec (hk : 1 ≤ k) (hfree : slots s k ⊆ F) :
    Leaves (grabSlots ss s k) (F \ slots s k) := by
  have hsF : s ∈ F := hfree ⟨le_rfl, by omega⟩
  obtain ⟨r, hfind, hr⟩ := find_spec h hF (fun y hy => h0.trans (hsub hy).1) s
  cases r with
  | none =>
    obtain ⟨b, hb, hc⟩ := (hF.cover s).1 hsF
    exact absurd hc (hr b hb)
  | some p =>
    obtain ⟨b, hcell, hb⟩ := hr
    have hbe : b ∈ ss.btreeRoot.elems := List.mem_map_of_mem hcell
    have hend : s + k ≤ b.startslot + b.nslots :=
      hF.range_le hbe hb fun x h1 h2 => hfree ⟨h1, h2⟩
    have hbF : ∀ x, Holds b x → x ∈ F := fun x hx => (hF.cover x).2 ⟨b, hbe, hx⟩
    have hsize := h.size b hbe
    have hb1 := hb.1
    rw [grabSlots, hfind, bind_some, bind_some, deref_of_mem h.addrs hcell, bind_some]
    by_cases hstart : b.startslot = s
    · rw [if_pos hstart]
      by_cases hall : b.nslots = k
      · rw [if_pos hall, ← hstart]
        obtain ⟨ss', heq, hlink, hmem⟩ := deleteBlock_spec h hbe
        refine ⟨ss', heq, hlink, hF.shrink (N := fun _ => False) hbe ?_ ?_ ?_ ?_ ?_⟩
        · intro e
          rw [hmem e, or_false]
        · simp
        · simp
        · simp
        · intro x
          simp [Covers, hall]
      · rw [if_neg hall]
        refine setRange_shrink h hF hcell (by omega) (by omega) (by omega) fun x => ?_
        rw [mem_carve hbF hb1 hend hk x]
        refine or_congr_right ?_
        omega
    · rw [if_neg hstart]
      by_cases hlast : b.startslot + b.nslots - 1 = s + k - 1
      · rw [if_pos hlast]
        refine setRange_shrink h hF hcell (by omega) le_rfl (by omega) fun x => ?_
        rw [mem_carve hbF hb1 hend hk x]
        refine or_congr_right ?_
        omega
      · rw [if_neg hlast]
        -- the block keeps the slots below the range, and a new block gets those above
        obtain ⟨ss1, heq, hlink, hF1⟩ : Leaves (setRange ss p b.startslot (s - b.startslot))
            ((F \ {x | Holds b x}) ∪ slots b.startslot (s - b.startslot)) :=
          setRange_shrink h hF hcell (by omega) le_rfl (by omega) fun x => Iff.rfl
        have hused : ∀ x, s ≤ x → x ≤ b.startslot + b.nslots →
            x ∉ (F \ {x | Holds b x}) ∪ slots b.startslot (s - b.startslot) := by
          rintro x h1 h2 (⟨hx, hout⟩ | ⟨-, hx⟩)
          · rcases Int.lt_or_eq_of_le h2 with hlt | heq
            · exact hout ⟨by omega, hlt⟩
            · exact (hF.border_notMem hbe).2 (heq ▸ hx)
          · omega
        rw [heq, bind_some]
        obtain ⟨ss', heq', hlink', hF'⟩ := insertBlock_apart hlink hF1
          (s := s + k) (k := b.startslot + b.nslots - 1 - (s + k) + 1)
            (hused _ (by omega) (by omega))
          (hused _ (by omega) (by omega)) (by omega) (by omega) fun x ⟨h1, h2⟩ =>
            hused x (by omega) (by omega)
        refine ⟨ss', heq', hlink', ?_⟩
        have hset : (F \ {x | Holds b x}) ∪ slots b.startslot (s - b.startslot) ∪
            slots (s + k) (b.startslot + b.nslots - 1 - (s + k) + 1) = F \ slots s k := by
          ext x
          rw [mem_carve hbF hb1 hend hk x, Set.union_assoc]
          refine or_congr_right ?_
          simp only [Set.mem_union, Set.mem_ofPred_eq]
          omega
        rwa [hset] at hF'

/-- `free_slots` of an allocated range. -/
theorem freeSlots_spec (hn : n ≤ 2 ^ 62) (hk : 1 ≤ k) (halloc : slots s k ⊆ slots start n \ F) :
    Leaves (freeSlots ss s k) (F ∪ slots s k) := by
  have hpos : ∀ y ∈ F, 0 ≤ y := fun y hy => h0.trans (hsub hy).1
  obtain ⟨low, hlow, hflow⟩ := find_spec h hF hpos (s - 1)
  obtain ⟨high, hhigh, hfhigh⟩ := find_spec h hF hpos (s + k)
  have hout : ∀ x ∈ slots s k, x ∉ F := fun x hx => (halloc hx).2
  have hnone : ∀ x, (∀ b ∈ ss.btreeRoot.elems, ¬ Holds b x) → x ∉ F := by
    intro x hx hmem
    obtain ⟨b, hb, hc⟩ := (hF.cover x).1 hmem
    exact hx b hb hc
  have h1 : s ∈ slots s k := ⟨le_rfl, by omega⟩
  have h2 : s + k - 1 ∈ slots s k := ⟨by omega, by omega⟩
  have hs : start ≤ s ∧ s + k - 1 < start + n := ⟨(halloc h1).1.1, (halloc h2).1.2⟩
  -- a block does not hold the first or the last slot of the range
  have hside : ∀ b ∈ ss.btreeRoot.elems, (b.startslot + b.nslots ≤ s ∨ s < b.startslot) ∧
      (b.startslot + b.nslots ≤ s + k - 1 ∨ s + k - 1 < b.startslot) ∧ 1 ≤ b.nslots ∧
      start ≤ b.startslot ∧ b.startslot + b.nslots ≤ start + n := fun b hb =>
    ⟨hF.side hb (hout s h1), hF.side hb (hout _ h2), hF.pos b hb, hF.within hsub hb⟩
  rw [freeSlots, hlow, bind_some, hhigh, bind_some]
  cases low with
  | none =>
    cases high with
    | none => exact insertBlock_apart h hF (hnone _ hflow) (hnone _ hfhigh) hk (by omega) hout
    | some q =>
      obtain ⟨b, hcell, hb1, hb2⟩ := hfhigh
      have hbe : b ∈ ss.btreeRoot.elems := List.mem_map_of_mem hcell
      have hsideb := hside b hbe
      have hend : s + (b.nslots + k) = b.startslot + b.nslots := by omega
      dsimp only
      rw [deref_of_mem h.addrs hcell, bind_some]
      refine setRange_grow h hF (hnone _ hflow) ?_ hcell (by omega) (by omega) (by omega)
        hout fun x => ?_
      · rw [hend]
        exact (hF.border_notMem hbe).2
      · simp only [Set.mem_ofPred_eq, Covers]
        omega
  | some p =>
    obtain ⟨b, hcell, hb1, hb2⟩ := hflow
    have hbe : b ∈ ss.btreeRoot.elems := List.mem_map_of_mem hcell
    have hsideb := hside b hbe
    have hbegin := (hF.border_notMem hbe).1
    cases high with
    | none =>
      have hend : b.startslot + (b.nslots + k) = s + k := by omega
      dsimp only
      rw [deref_of_mem h.addrs hcell, bind_some]
      refine setRange_grow h hF hbegin ?_ hcell (by omega) le_rfl (by omega) hout fun x => ?_
      · rw [hend]
        exact hnone _ hfhigh
      · simp only [Set.mem_ofPred_eq, Covers]
        omega
    | some q =>
      obtain ⟨b', hcell', hb1', hb2'⟩ := hfhigh
      have hbe' : b' ∈ ss.btreeRoot.elems := List.mem_map_of_mem hcell'
      have hsideb' := hside b' hbe'
      have hend : b.startslot + (b.nslots + k + b'.nslots) = b'.startslot + b'.nslots := by omega
      dsimp only
      have hpq : q ≠ p := by
        rintro rfl
        have := (deref_of_mem h.addrs hcell).symm.trans (deref_of_mem h.addrs hcell')
        rw [some.injEq] at this
        subst this
        omega
      rw [deref_of_mem h.addrs hcell, bind_some, deref_of_mem h.addrs hcell', bind_some]
      obtain ⟨ss1, heq, hlink, hmem, hcells⟩ := setRange_spec (s := b.startslot)
        (k := b.nslots + k + b'.nslots) h hcell (by omega) (by omega)
        (fun e he => ⟨fun hlt => hlt, fun hlt => hlt⟩)
      have hcell1 := hcells q b' hcell' hpq
      obtain ⟨ss', heq', hlink', hmem'⟩ := deleteBlock_spec hlink (List.mem_map_of_mem hcell1)
      rw [heq, bind_some, deref_of_mem hlink.addrs hcell1, bind_some]
      refine ⟨ss', heq', hlink',
        hF.merge (G := [b, b']) (m := ⟨b.startslot, b.nslots + k + b'.nslots, b.listblock⟩)
        hbegin ?_ (by simp [hbe, hbe']) hout (fun x => ?_) ?_ fun e => ?_⟩
      · dsimp only
        rw [hend]
        exact (hF.border_notMem hbe').2
      · simp only [Set.mem_ofPred_eq, Covers, mem_cons, not_mem_nil, or_false, exists_eq_or_imp,
          exists_eq_left]
        omega
      · dsimp only
        omega
      · have hne : (⟨b.startslot, b.nslots + k + b'.nslots, b.listblock⟩ : SlotBlock) ≠ b' :=
          fun heq => by
          have := congrArg SlotBlock.startslot heq
          dsimp only at this
          omega
        rw [hmem' e, hmem e]
        constructor
        · rintro ⟨⟨he, hne⟩ | rfl, hne'⟩
          · exact .inl ⟨he, by simp [hne, hne']⟩
          · exact .inr rfl
        · rintro (⟨he, hnot⟩ | rfl)
          · rw [mem_cons, mem_singleton, not_or] at hnot
            exact ⟨.inl ⟨he, hnot.1⟩, hnot.2⟩
          · exact ⟨.inr rfl, hne⟩

end Step

/-! ## Runs -/

/-- The operations on a slot set. -/
inductive SlotOp where
  | grab (sslot nslots : Int)
  | free (sslot nslots : Int)

/-- The operation of the code. -/
def SlotOp.exec (ss : SlotSet) : SlotOp → Option SlotSet
  | grab sslot nslots => grabSlots ss sslot nslots
  | free sslot nslots => freeSlots ss sslot nslots

/-- The operation on the set of free slots. -/
def SlotOp.apply (F : Set Int) : SlotOp → Set Int
  | grab sslot nslots => F \ slots sslot nslots
  | free sslot nslots => F ∪ slots sslot nslots

/-- A range that is grabbed is free, and a range that is freed is allocated. -/
def SlotOp.Legal (A F : Set Int) : SlotOp → Prop
  | grab sslot nslots => 1 ≤ nslots ∧ slots sslot nslots ⊆ F
  | free sslot nslots => 1 ≤ nslots ∧ slots sslot nslots ⊆ A \ F

/-- A sequence of operations each of which is legal when it is called. -/
def LegalOps (A : Set Int) : Set Int → List SlotOp → Prop
  | _, [] => True
  | F, op :: ops => op.Legal A F ∧ LegalOps A (op.apply F) ops

/-- A sequence of operations. -/
def runOps (ss : SlotSet) (ops : List SlotOp) : Option SlotSet := ops.foldlM SlotOp.exec ss

/-- The slot set stands for the free slots `F`: its blocks are the maximal free ranges in order, its
tree is balanced, and its lists hold one list node for each block, in the bin of its size. -/
structure SlotSet.Valid (ss : SlotSet) (F : Set Int) : Prop where
  union : ∀ x, x ∈ F ↔
    ∃ b ∈ ss.btreeRoot.elems, b.startslot ≤ x ∧ x < b.startslot + b.nslots
  separated : ss.btreeRoot.elems.Pairwise fun b b' => b.startslot + b.nslots < b'.startslot
  nonempty : ∀ b ∈ ss.btreeRoot.elems, 1 ≤ b.nslots
  balanced : RootShape ss.btreeRoot
  lists : ∀ bin, ∃ l, LinkedList.IsList ss.heap.previous ss.heap.next (ss.heap.listArray bin) l ∧
    l.Nodup ∧ ∀ x, x ∈ l ↔
      ∃ b ∈ ss.btreeRoot.elems, b.listblock = x ∧ findListBin b.nslots = some bin
  distinct : (ss.btreeRoot.elems.map SlotBlock.listblock).Nodup
  pointers : ∀ c ∈ ss.btreeRoot.cells, ss.heap.sb c.2.listblock = c.1

theorem SlotSet.Linked.valid {ss : SlotSet} {F : Set Int} (h : ss.Linked)
    (hF : Holding ss.btreeRoot.elems F) : ss.Valid F := by
  refine ⟨hF.cover, (hF.spaced h.ok.sorted).gaps, hF.pos, h.root, fun bin => ?_, h.ok.nodup,
    h.ok.located⟩
  obtain ⟨l, hlist, hmem⟩ := h.lists bin
  refine ⟨l, hlist, hlist.nodup, fun x => (hmem x).trans ?_⟩
  constructor
  · rintro ⟨b, hb, hx, rfl⟩
    exact ⟨b, hb, hx, findListBin_eq (h.size b hb).1 (h.size b hb).2⟩
  · rintro ⟨b, hb, hx, hbin⟩
    rw [findListBin_eq (h.size b hb).1 (h.size b hb).2, some.injEq] at hbin
    exact ⟨b, hb, hx, hbin.symm⟩

section Run

variable {start n : Int} (h0 : 0 ≤ start) (hn : n ≤ 2 ^ 62)

include h0 hn

/-- A legal operation keeps the correspondence. -/
theorem exec_spec {ss : SlotSet} {F : Set Int} (h : ss.Linked) (hF : Holding ss.btreeRoot.elems F)
    (hsub : F ⊆ slots start n) {op : SlotOp} (hop : op.Legal (slots start n) F) :
    Leaves (op.exec ss) (op.apply F) ∧ op.apply F ⊆ slots start n := by
  cases op with
  | grab s k => exact ⟨grabSlots_spec h hF hsub h0 hop.1 hop.2, fun x hx => hsub hx.1⟩
  | free s k =>
    exact ⟨freeSlots_spec h hF hsub h0 hn hop.1 hop.2,
      Set.union_subset hsub fun x hx => (hop.2 hx).1⟩

/-- Legal operations keep the correspondence. -/
theorem runOps_spec {ops : List SlotOp} : ∀ {ss : SlotSet} {F : Set Int}, ss.Linked →
    Holding ss.btreeRoot.elems F → F ⊆ slots start n → LegalOps (slots start n) F ops →
    Leaves (runOps ss ops) (ops.foldl SlotOp.apply F) ∧
    ops.foldl SlotOp.apply F ⊆ slots start n := by
  induction ops with
  | nil => exact fun h hF hsub _ => ⟨⟨_, rfl, h, hF⟩, hsub⟩
  | cons op ops ih =>
    intro ss F h hF hsub hops
    obtain ⟨⟨ss1, heq, h1, hF1⟩, hsub1⟩ := exec_spec h0 hn h hF hsub hops.1
    rw [runOps, foldlM_cons, heq]
    exact ih h1 hF1 hsub1 hops.2

omit h0 in
/-- `new_slotset` makes all slots free. -/
theorem newSlotset_spec (h1 : 1 ≤ n) : Leaves (newSlotset start n) (slots start n) := by
  rw [newSlotset, findListBin_eq h1 hn, map_some]
  refine ⟨_, rfl, ⟨?_, ?_, ?_, ?_, ?_, ?_, ?_, ?_⟩, ?_⟩
  · exact .inl ⟨⟨Nat.zero_le _, by simp [treeNodeSize]⟩, rfl⟩
  · refine ⟨by simp [elems_leaf], ?_, by simp [elems_leaf], by simp [elems_leaf]⟩
    exact located_node.2 ⟨by simp [RowLocated, row], by simp⟩
  · have hempty : LinkedList.Family (fun _ => 0) (fun _ => 0) (fun _ => 0) fun _ _ => False :=
      fun _ => ⟨[], rfl, by simp⟩
    have hpush := hempty.push (x := 2) (fun _ _ _ hf => hf.elim) (by decide) (fun _ hf => hf)
      (listBin n)
    have hnext : Function.update (fun _ => 0) 2 0 = fun _ : Nat => 0 :=
      Function.update_eq_self 2 fun _ => 0
    rw [LinkedList.pushPrev, if_neg (by simp), hnext] at hpush
    refine hpush.congr fun y bin => ?_
    rw [elems_leaf, InBin]
    simp [eq_comm]
  · simp only [elems_leaf, mem_singleton, forall_eq]
    exact ⟨h1, hn⟩
  · simp [addrs_node]
  · simp [addrs_node]
  · simp [elems_leaf]
  · exact Nat.succ_ne_zero _
  · rw [elems_leaf]
    refine ⟨?_, ?_, fun x => ?_⟩
    · simpa using h1
    · intro e he e' he' hne
      exact absurd ((mem_singleton.1 he).trans (mem_singleton.1 he').symm) hne
    · simp [Covers]

/-- Every sequence of legal operations on a new slot set returns a valid one. -/
theorem slotset_valid (h1 : 1 ≤ n) (ops : List SlotOp)
    (hops : LegalOps (slots start n) (slots start n) ops) :
    ∃ ss ss', newSlotset start n = some ss ∧ runOps ss ops = some ss' ∧
      ss'.Valid (ops.foldl SlotOp.apply (slots start n)) := by
  obtain ⟨ss, hnew, h, hF⟩ := newSlotset_spec hn h1
  obtain ⟨⟨ss', heq, h', hF'⟩, -⟩ := runOps_spec h0 hn h hF (Set.Subset.refl _) hops
  exact ⟨ss, ss', hnew, heq, h'.valid hF'⟩

end Run

/-- Ten slots of which three are grabbed from the middle and given back. -/
theorem slotset_valid_ten_slots : LegalOps (slots 0 10) (slots 0 10) [.grab 2 3, .free 2 3] ∧
      ∃ ss ss', newSlotset 0 10 = some ss ∧ runOps ss [.grab 2 3, .free 2 3] = some ss' ∧
        ss'.Valid ([SlotOp.grab 2 3, .free 2 3].foldl SlotOp.apply (slots 0 10)) := by
  have hops : LegalOps (slots 0 10) (slots 0 10) [.grab 2 3, .free 2 3] := by
    refine ⟨⟨by decide, fun x hx => ?_⟩, ⟨by decide, fun x hx => ⟨?_, fun hx' => hx'.2 hx⟩⟩,
      trivial⟩
    · exact ⟨by have := hx.1; omega, by have := hx.2; omega⟩
    · exact ⟨by have := hx.1; omega, by have := hx.2; omega⟩
  exact ⟨hops, slotset_valid (by decide) (by decide) (by decide) _ hops⟩

end CharmRuntime.Isomalloc
