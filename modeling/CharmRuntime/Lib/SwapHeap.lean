import Mathlib.Order.Lattice.Nat

/-!
# Heaps with exchanges

The positions of a heap form a tree, given as the relation between a position and its children. A
heap that is out of order at one position only (`OrderedBut`) is repaired by exchanging the entry
there with its parent (`OrderedBut.up`) or with its least child (`OrderedBut.down`), until it fits
(`OrderedBut.ordered`).
-/

set_option autoImplicit false

namespace CharmRuntime.Lib.SwapHeap

open Function Finset

universe u v

variable {ι : Type u} {κ : Type v} {f g : Nat → ι} {U : Finset Nat} {pos c i j : Nat}

/-- Two entries are exchanged. -/
def swap (f : Nat → ι) (i j : Nat) : Nat → ι := f ∘ Equiv.swap i j

@[simp] theorem swap_left : swap f i j i = f j := congrArg f (Equiv.swap_apply_left i j)

@[simp] theorem swap_right : swap f i j j = f i := congrArg f (Equiv.swap_apply_right i j)

theorem swap_of_ne {k : Nat} (hi : k ≠ i) (hj : k ≠ j) : swap f i j k = f k :=
  congrArg f (Equiv.swap_apply_of_ne_of_ne hi hj)

/-- The entry at `i` is shifted into the hole at `j`, with `x` to be written into the hole. -/
theorem shift_eq_swap (f : Nat → ι) (x : ι) (i j : Nat) :
    update (update f j (f i)) i x = swap (update f j x) i j := by
  funext k
  by_cases hi : k = i
  · rw [hi, update_self, swap_left, update_self]
  · by_cases hj : k = j
    · rw [hj] at hi ⊢
      rw [update_of_ne hi, update_self, swap_right, update_of_ne (Ne.symm hi)]
    · rw [update_of_ne hi, update_of_ne hj, swap_of_ne hi hj, update_of_ne hj]

/-! ## The entries in use -/

/-- The entries at the positions in use. -/
def entries (f : Nat → ι) (U : Finset Nat) : Multiset ι := U.val.map f

theorem entries_congr (h : ∀ i ∈ U, f i = g i) : entries f U = entries g U :=
  Multiset.map_congr rfl h

theorem entries_swap (f : Nat → ι) (hi : i ∈ U) (hj : j ∈ U) :
    entries (swap f i j) U = entries f U := by
  have hmap : U.map (Equiv.swap i j).toEmbedding = U := by
    refine map_perm fun k hk => mem_coe.2 ?_
    by_contra hkn
    exact hk (Equiv.swap_apply_of_ne_of_ne (fun h => hkn (h ▸ hi)) fun h => hkn (h ▸ hj))
  have hval : U.val.map (Equiv.swap i j) = U.val := congrArg Finset.val hmap
  rw [entries, swap, ← Multiset.map_map, hval, entries]

/-- An entry is written to a new position. -/
theorem entries_push (f : Nat → ι) (x : ι) (hi : i ∉ U) :
    entries (update f i x) (insert i U) = x ::ₘ entries f U := by
  rw [entries, insert_val_of_notMem hi, Multiset.map_cons, update_self, ← entries]
  exact congrArg _ (entries_congr fun j hj => update_of_ne (ne_of_mem_of_not_mem hj hi) _ _)

/-- The last entry is moved to the place of one that is taken out. -/
theorem entries_pop (f : Nat → ι) (hi : i ∉ U) (hj : j ∈ insert i U) :
    entries f (insert i U) = f j ::ₘ entries (update f j (f i)) U := by
  have hswap := shift_eq_swap f (f j) i j
  rw [update_eq_self] at hswap
  rw [← entries_swap f (mem_insert_self i U) hj, ← hswap, entries_push _ _ hi]

/-! ## The order -/

/-- Parents come before their children, and are unique. -/
structure Tree (child : Nat → Nat → Prop) : Prop where
  lt : ∀ {p c}, child p c → p < c
  unique : ∀ {p q c}, child p c → child q c → p = q

variable [LinearOrder κ] {key key' : ι → κ} {child : Nat → Nat → Prop}

/-- No child has a key less than its parent's. -/
def Ordered (child : Nat → Nat → Prop) (key : ι → κ) (f : Nat → ι) : Prop :=
  ∀ p c, child p c → key (f p) ≤ key (f c)

/-- The pairs that avoid one position are in order, and the children of that position are at least
its parent. -/
structure OrderedBut (child : Nat → Nat → Prop) (key : ι → κ) (f : Nat → ι) (pos : Nat) : Prop where
  except : ∀ p c, child p c → p ≠ pos → c ≠ pos → key (f p) ≤ key (f c)
  grand : ∀ p c, child p pos → child pos c → key (f p) ≤ key (f c)

variable (t : Tree child)

include t

/-- The root has a least key. -/
theorem Ordered.root_le {r : Nat} (h : Ordered child key f)
    (hr : ∀ i ∈ U, i ≠ r → ∃ p ∈ U, child p i) : ∀ i ∈ U, key (f r) ≤ key (f i) := by
  intro i
  induction i using Nat.strongRecOn with
  | ind i ih =>
    intro hi
    by_cases h0 : i = r
    · rw [h0]
    · obtain ⟨p, hp, hchild⟩ := hr i hi h0
      exact (ih p (t.lt hchild) hp).trans (h p i hchild)

namespace OrderedBut

variable (h : OrderedBut child key f pos)

include h

/-- The key at the position is changed. -/
theorem congr (hk : ∀ i j, child i j ∨ child j i → i ≠ pos → key' (g i) = key (f i)) :
    OrderedBut child key' g pos := by
  refine ⟨fun p c hc hp hne => ?_, fun p c hp hc => ?_⟩
  · rw [hk p c (.inl hc) hp, hk c p (.inr hc) hne]
    exact h.except p c hc hp hne
  · rw [hk p pos (.inl hp) (t.lt hp).ne, hk c pos (.inr hc) (t.lt hc).ne']
    exact h.grand p c hp hc

theorem write (x : ι) : OrderedBut child key (update f pos x) pos :=
  h.congr t fun _ _ _ hi => congrArg key (update_of_ne hi x f)

omit t in
theorem ordered (habove : ∀ p, child p pos → key (f p) ≤ key (f pos))
    (hbelow : ∀ c, child pos c → key (f pos) ≤ key (f c)) : Ordered child key f := by
  intro p c hc
  by_cases hp : p = pos
  · exact hp ▸ hbelow c (hp ▸ hc)
  · by_cases hcpos : c = pos
    · exact hcpos ▸ habove p (hcpos ▸ hc)
    · exact h.except p c hc hp hcpos

/-- The entry is exchanged with its parent. -/
theorem up {p : Nat} (hp : child p pos) (hle : key (f pos) ≤ key (f p)) :
    OrderedBut child key (swap f p pos) p ∧ ∀ c, child p c → key (swap f p pos p) ≤ key
    (swap f p pos c) := by
  have hlt := t.lt hp
  have hpair : ∀ c, child p c → key (f p) ≤ key (swap f p pos c) := fun c hc => by
    by_cases hne : c = pos
    · rw [hne, swap_right]
    · rw [swap_of_ne (t.lt hc).ne' hne]
      exact h.except p c hc hlt.ne hne
  refine ⟨⟨fun q c hc hq hcp => ?_, fun q c hq hc => ?_⟩, fun c hc => ?_⟩
  · have hcpos : c ≠ pos := fun he => hq (t.unique (he ▸ hc) hp)
    rw [swap_of_ne hcp hcpos]
    by_cases hpos : q = pos
    · rw [hpos, swap_right]
      exact h.grand p c hp (hpos ▸ hc)
    · rw [swap_of_ne hq hpos]
      exact h.except q c hc hpos hcpos
  · have hqp := t.lt hq
    rw [swap_of_ne hqp.ne (hqp.trans hlt).ne]
    exact (h.except q p hq (hqp.trans hlt).ne hlt.ne).trans (hpair c hc)
  · rw [swap_left]
    exact hle.trans (hpair c hc)

/-- The entry is exchanged with its least child. -/
theorem down (hc : child pos c) (hmin : ∀ d, child pos d → key (f c) ≤ key (f d))
    (hle : key (f c) ≤ key (f pos)) :
    OrderedBut child key (swap f c pos) c ∧ ∀ p, child p c → key (swap f c pos p) ≤ key
    (swap f c pos c) := by
  have hlt := t.lt hc
  refine ⟨⟨fun p d hd hp hdc => ?_, fun p d hp hd => ?_⟩, fun p hp => ?_⟩
  · by_cases hpos : d = pos
    · rw [hpos, swap_right, swap_of_ne hp (t.lt (hpos ▸ hd)).ne]
      exact h.grand p c (hpos ▸ hd) hc
    · rw [swap_of_ne hdc hpos]
      by_cases hp' : p = pos
      · rw [hp', swap_right]
        exact hmin d (hp' ▸ hd)
      · rw [swap_of_ne hp hp']
        exact h.except p d hd hp' hpos
  · have hcd := t.lt hd
    rw [t.unique hp hc, swap_right, swap_of_ne hcd.ne' (hlt.trans hcd).ne']
    exact h.except c d hd hlt.ne' (hlt.trans hcd).ne'
  · rw [t.unique hp hc, swap_right, swap_left]
    exact hle

end OrderedBut

end CharmRuntime.Lib.SwapHeap
