import CharmRuntime.Lib.MixedRadix
import CharmRuntime.Lib.Words
import Mathlib.Data.Int.CardIntervalMod

/-!
# The round-robin map of chare arrays

`RRMap` hands the elements of an array to the processors in turn. The strides of the row-major order
are computed when the first array of more than one dimension is mapped and then kept, and the number
of an element is an `int`. Where the strides are those of the array and its elements can be numbered
in an `int`, every processor exists and the processors get equally many elements up to one
(`procNum_balanced`).
-/

set_option autoImplicit false

namespace CharmRuntime.ArrayMap

open List Lib.MixedRadix Lib.Words

/-- The map object. `products` is `none` as long as `productsInit` is false; the products that are
set are as many as `maxIndex` has dimensions. -/
structure RRMap where
  storeOpts : List Nat
  dynamicIns : List Int
  products : Option (List Nat)
  deriving DecidableEq, Repr

/-- The strides that `indexInit` computes from the end of the options. -/
def indexProducts : List Nat → List Nat
  | [] => []
  | [_] => [1]
  | _ :: n :: ns => (indexProducts (n :: ns)).headD 1 * n % 2 ^ 64 :: indexProducts (n :: ns)

/-- The sum of the loop over the dimensions, the last one first. -/
def indexOffset : List Nat → List Nat → Int
  | x :: i, p :: products => toInt32 (indexOffset i products + (x * p % 2 ^ 64 : Nat))
  | _, _ => 0

variable (hash : List Nat → Nat) (numPes : Nat)

namespace RRMap

/-- Options without dimensions make `products[-1]` of the first assignment. -/
def indexInit (s : RRMap) : Option (List Nat) :=
  if s.storeOpts = [] then none else some (indexProducts s.storeOpts)

/-- The processor of an index, and the map object after the call. -/
def procNum (s : RRMap) (arrayHdl : Int) (i : List Nat) : Option (RRMap × Int) :=
  match i with
  | [x] => some (s, (x : Int).tmod numPes)
  | _ =>
    if arrayHdl ∈ s.dynamicIns then some (s, ((hash i + 739) % 2 ^ 32 % 1280107 % numPes : Nat))
    else do
      let products ← s.products <|> s.indexInit
      -- up to three dimensions the loop goes over those of the index, behind them over those of
      -- `maxIndex`
      if i.length ≤ 3 ∧ products.length < i.length then none
      else some ({ s with products := some products }, (indexOffset i products).tmod numPes)

/-- The strides in use, or to be computed next, are those of the bounds, and an `int` numbers the
elements. -/
def Suits (s : RRMap) (arrayHdl : Int) (bounds : List Nat) : Prop :=
  bounds.length = 1 ∨ arrayHdl ∈ s.dynamicIns ∨
    bounds ≠ [] ∧ bounds.prod ≤ 2 ^ 31 ∧ s.products.getD (indexProducts s.storeOpts) =
      indexProducts bounds

end RRMap

/-! ## Strides -/

theorem indexProducts_cons (n : Nat) (ns : List Nat) :
    indexProducts (n :: ns) = ns.prod % 2 ^ 64 :: indexProducts ns := by
  induction ns generalizing n with
  | nil => rfl
  | cons m ns ih => rw [indexProducts, ih, headD_cons, Nat.mod_mul_mod, mul_comm, prod_cons]

theorem length_indexProducts (ns : List Nat) : (indexProducts ns).length = ns.length := by
  induction ns with
  | nil => rfl
  | cons n ns ih => rw [indexProducts_cons, length_cons, ih, length_cons]

theorem indexOffset_eq (ns i : List Nat) : indexOffset i (indexProducts ns) =
    toInt32 (rowMajor ns i) := by
  induction ns generalizing i with
  | nil => cases i <;> exact (toInt32_natCast Nat.ofNat_pos).symm
  | cons n ns ih =>
    cases i with
    | nil => exact (toInt32_natCast Nat.ofNat_pos).symm
    | cons x i =>
      -- the product is reduced to 64 bits and the sum to 32
      rw [indexProducts_cons, indexOffset, ih, rowMajor, Nat.mul_mod_mod]
      generalize x * ns.prod = a
      simp only [toInt32]
      omega

/-! ## Processors -/

variable {s : RRMap} {arrayHdl : Int} {b i : List Nat}

/-- An array that is not inserted dynamically is mapped by the row-major numbers of its indices. -/
theorem procNum_static (hs : s.Suits arrayHdl b) (hstatic : arrayHdl ∉ s.dynamicIns)
    (hi : i ∈ box b) :
    ∃ s', s.procNum hash numPes arrayHdl i = some (s', ((rowMajor b i % numPes : Nat) : Int)) := by
  have hlen := length_of_mem_box hi
  by_cases hone : b.length = 1
  · obtain ⟨n, rfl⟩ := length_eq_one_iff.1 hone
    obtain ⟨x, rfl⟩ := length_eq_one_iff.1 hlen
    refine ⟨s, ?_⟩
    rw [Int.ofNat_tmod]
    simp [RRMap.procNum, rowMajor]
  obtain ⟨hne, hprod, hproducts⟩ := (hs.resolve_left hone).resolve_left hstatic
  have hinit : (s.products <|> s.indexInit) = some (indexProducts b) := by
    cases hp : s.products with
    | some products => exact congrArg some (by rwa [hp] at hproducts)
    | none =>
      rw [hp, Option.getD_none] at hproducts
      have hopts : s.storeOpts ≠ [] := by
        intro hnil
        obtain ⟨n, ns, rfl⟩ := exists_cons_of_ne_nil hne
        rw [hnil, indexProducts_cons] at hproducts
        cases hproducts
      rw [RRMap.indexInit, if_neg hopts, hproducts]
      rfl
  have hoffset : (indexOffset i (indexProducts b)).tmod numPes = (rowMajor b i % numPes : Nat) := by
    rw [indexOffset_eq, toInt32_natCast ((rowMajor_lt hi).trans_le hprod), Int.ofNat_tmod]
  have hread : ¬(i.length ≤ 3 ∧ (indexProducts b).length < i.length) := by
    rw [hlen, length_indexProducts]
    exact fun h => lt_irrefl _ h.2
  refine ⟨{ s with products := some (indexProducts b) }, ?_⟩
  rcases i with _ | ⟨x, _ | ⟨y, i⟩⟩
  · exact absurd (length_eq_zero_iff.1 hlen.symm) hne
  · exact absurd hlen.symm hone
  · rw [RRMap.procNum, if_neg hstatic, hinit, Option.bind_eq_bind, Option.bind_some,
      if_neg hread, hoffset]
    simp

/-- The elements that processor `p` gets when the map object is in state `s i` at the call for index
`i`. -/
def placed (s : List Nat → RRMap) (arrayHdl : Int) (b : List Nat) (p : Nat) : Nat :=
  (box b).countP fun i => ((s i).procNum hash numPes arrayHdl i).map Prod.snd = some (p : Int)

/-- Whatever was mapped before and between, the calls for an array give processors that exist, and
an array that is not inserted dynamically is spread evenly. -/
theorem procNum_balanced (hpes : 0 < numPes) (arrayHdl : Int) (b : List Nat) (s : List Nat → RRMap)
    (hs : ∀ i ∈ box b, (s i).Suits arrayHdl b) :
    (∀ i ∈ box b, ∃ s' pe, (s i).procNum hash numPes arrayHdl i = some (s', pe) ∧ 0 ≤ pe ∧
      pe < numPes) ∧
    ((∀ i ∈ box b, arrayHdl ∉ (s i).dynamicIns) → ∀ p < numPes, ∀ q < numPes,
      placed hash numPes s arrayHdl b p ≤ placed hash numPes s arrayHdl b q + 1) := by
  have hlt (x : Nat) : 0 ≤ ((x % numPes : Nat) : Int) ∧ ((x % numPes : Nat) : Int) < numPes :=
    ⟨Int.natCast_nonneg _, Int.ofNat_lt.2 (Nat.mod_lt _ hpes)⟩
  constructor
  · intro i hi
    by_cases hdyn : arrayHdl ∈ (s i).dynamicIns
    · rcases i with _ | ⟨x, _ | ⟨y, i⟩⟩
      · exact ⟨_, _, if_pos hdyn, hlt _⟩
      · exact ⟨_, _, rfl, Int.ofNat_tmod x numPes ▸ hlt x⟩
      · exact ⟨_, _, if_pos hdyn, hlt _⟩
    · obtain ⟨s', hcall⟩ := procNum_static hash numPes (hs i hi) hdyn hi
      exact ⟨s', _, hcall, hlt _⟩
  · intro hstatic p hp q hq
    have hplaced : ∀ p < numPes, placed hash numPes s arrayHdl b p =
        b.prod / numPes + if p % numPes < b.prod % numPes then 1 else 0 := by
      intro p hp
      rw [← Nat.count_modEq_card _ hpes, ← countP_box]
      apply countP_congr
      intro i hi
      obtain ⟨s', hcall⟩ := procNum_static hash numPes (hs i hi) (hstatic i hi) hi
      simp [hcall, Nat.ModEq, Nat.mod_eq_of_lt hp]
      omega
    rw [hplaced p hp, hplaced q hq]
    split_ifs <;> omega

theorem procNum_balanced_square : placed (fun _ => 0) 3 (fun _ => ⟨[4, 4], [], none⟩) 0 [4, 4] 0 ≤
    placed (fun _ => 0) 3 (fun _ => ⟨[4, 4], [], none⟩) 0 [4, 4] 2 + 1 :=
  (procNum_balanced (fun _ => 0) 3 (by decide) 0 [4, 4] (fun _ => ⟨[4, 4], [], none⟩)
    (fun _ _ => .inr (.inr ⟨by decide, by decide, rfl⟩))).2 (fun _ _ => by decide) 0 (by decide)
      2 (by decide)

/-- In an array of 2 ^ 32 elements the number 2 ^ 31 becomes negative, and so does the processor. -/
theorem procNum_negative : [65536, 65536].prod < 2 ^ 63 ∧ [32768, 0] ∈ box [65536, 65536] ∧
    (RRMap.procNum (fun _ => 0) 3 ⟨[65536, 65536], [], none⟩ 0 [32768, 0]).map Prod.snd = some
    (-2) :=
  ⟨by decide, by simp [box], by decide⟩

end CharmRuntime.ArrayMap
