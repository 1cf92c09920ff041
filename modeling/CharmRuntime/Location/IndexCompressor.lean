import CharmRuntime.Location.ObjId
import Mathlib.Data.Nat.Log
import Mathlib.Data.List.Forall2

/-!
# Compression of array indices

`FixedArrayIndexCompressor` packs the coordinates of an array index into one number that serves as
the element part of an object identifier. `make` computes from the bounds of the array how many bits
each coordinate needs, and gives up if they are more than 48 together. Compression keeps the index:
different indices within the bounds have different numbers, and `decompress` gets the index back.

The element part of an identifier has 40 bits in the default layout, which is less than 48. The
numbers fit if and only if the bits of all coordinates do (`compress_lossless_iff`); an array with
the bounds `2 ^ 20, 2 ^ 21` is given a compressor, and its last element aborts the program
(`compress_exceeds_objID`).
-/

set_option autoImplicit false

namespace CharmRuntime.Location

open Lib BitFields Words List Option
open Nat (two_pow_pos clog clog_le_iff_le_pow pow_le_pow_right)

/-! ## Array indices -/

/-- `CkArrayIndex`. The words of `index` are three `int`, or six `short` for more than three
dimensions. -/
structure CkArrayIndex where
  nInts : Nat
  dimension : Nat
  index : List Int
  deriving DecidableEq, Repr

/-- The constructors `CkArrayIndex1D` to `CkArrayIndex6D`; other numbers of dimensions are not
supported. -/
def initNd : List Int → Option CkArrayIndex
  | [x] => some ⟨1, 1, [toInt32 x, 0, 0]⟩
  | [x, y] => some ⟨2, 2, [toInt32 x, toInt32 y, 0]⟩
  | [x, y, z] => some ⟨3, 3, [toInt32 x, toInt32 y, toInt32 z]⟩
  | [u, v, w, x] => some ⟨2, 4, [toInt16 u, toInt16 v, toInt16 w, toInt16 x, 0, 0]⟩
  | [u, v, w, x, y] => some ⟨3, 5, [toInt16 u, toInt16 v, toInt16 w, toInt16 x, toInt16 y, 0]⟩
  | [u, v, w, x, y, z] =>
    some ⟨3, 6, [toInt16 u, toInt16 v, toInt16 w, toInt16 x, toInt16 y, toInt16 z]⟩
  | _ => none

/-! ## The compressor -/

/-- The loop of `bitCount` that computes the logarithm. Shifting a negative number never gives zero:
then the loop does not end, whatever the number of rounds `fuel`. -/
def log2Loop : Nat → Int → Option Nat
  | 0, _ => none
  | fuel + 1, bound => if bound / 2 = 0 then some 0 else (log2Loop fuel (bound / 2)).map (· + 1)

/-- `bitCount`: the assertion that the bound is positive, rounding up to a power of two, and its
logarithm. -/
def bitCount (bound : Int) : Option Nat :=
  if bound > 0 then log2Loop 32 (toInt32 (smear (bound - 1).toNat + 1)) else none

/-- `FixedArrayIndexCompressor`. -/
structure Compressor where
  dims : Nat
  bitsPerDim : List Nat
  deriving DecidableEq, Repr

/-- `make`; the inner `none` is `NULL`. -/
def Compressor.make (bounds : CkArrayIndex) : Option (Option Compressor) :=
  if bounds.nInts = 0 then some none
  else do
    let bits ← (bounds.index.take bounds.dimension).mapM bitCount
    if bits.sum > 48 then some none else some (some ⟨bounds.dimension, bits⟩)

/-- The loop of `compress`. -/
def compressLoop : List Nat → List Int → Nat → Option Nat
  | numBits :: bits, x :: xs, eid =>
    let thisDim := (x % 2 ^ 32).toNat
    if thisDim < 2 ^ numBits then compressLoop bits xs (eid <<< numBits % 2 ^ 64 ||| thisDim)
    else none
  | _, _, eid => some eid

/-- `compress`. -/
def Compressor.compress (c : Compressor) (idx : CkArrayIndex) : Option Nat :=
  if idx.dimension = c.dims then compressLoop c.bitsPerDim (idx.index.take idx.dimension) 0
  else none

/-- `(1 << bits) - 1`, as it is extended to 64 bits. -/
def fieldMask (bits : Nat) : Nat := (toInt32 (toInt32 (2 ^ bits) - 1) % 2 ^ 64).toNat

/-- The loop of `decompress`, from the last coordinate to the first. -/
def decompressLoop : List Nat → Nat → List Int → List Int
  | [], _, ix => ix
  | bits :: rest, id, ix =>
    decompressLoop rest (id >>> bits) (toInt32 ↑(id &&& fieldMask bits) :: ix)

/-- `decompress`. -/
def Compressor.decompress (c : Compressor) (id : Nat) : Option CkArrayIndex :=
  initNd (decompressLoop c.bitsPerDim.reverse id [])

/-! ## Indices within bounds -/

/-- The coordinates have the range of `int`, or of `short` for more than three dimensions. -/
def coordLimit (d : Nat) : Int := if d ≤ 3 then 2 ^ 31 else 2 ^ 15

/-- Coordinates that a constructor takes over without a change. -/
structure Coords (xs : List Int) : Prop where
  length_pos : 1 ≤ xs.length
  length_le : xs.length ≤ 6
  range : ∀ x ∈ xs, 0 ≤ x ∧ x < coordLimit xs.length

/-- Coordinates in `[0, bound)` for each of the bounds. -/
def Within (xs bs : List Int) : Prop := Forall₂ (fun x b => 0 ≤ x ∧ x < b) xs bs

theorem initNd_eq {xs : List Int} (h : Coords xs) :
    ∃ idx, initNd xs = some idx ∧ idx.nInts ≠ 0 ∧ idx.dimension = xs.length ∧
      idx.index.take idx.dimension = xs := by
  obtain ⟨hpos, hle, hrange⟩ := h
  have hint : xs.length ≤ 3 → ∀ x ∈ xs, toInt32 x = x := by
    intro hd x hx
    obtain ⟨h0, hlt⟩ := hrange x hx
    rw [coordLimit, if_pos hd] at hlt
    exact toInt32_of_range (by omega) hlt
  have hshort : ¬ xs.length ≤ 3 → ∀ x ∈ xs, toInt16 x = x := by
    intro hd x hx
    obtain ⟨h0, hlt⟩ := hrange x hx
    rw [coordLimit, if_neg hd] at hlt
    exact toInt16_of_range (by omega) hlt
  match xs, hpos, hle with
  | [x], _, _ | [x, y], _, _ | [x, y, z], _, _ =>
    have h := hint (by simp)
    simp [initNd, h]
  | [u, v, w, x], _, _ | [u, v, w, x, y], _, _ | [u, v, w, x, y, z], _, _ =>
    have h := hshort (by simp)
    simp [initNd, h]

theorem Within.coords {xs bs : List Int} (h : Within xs bs) (hbs : Coords bs) : Coords xs := by
  have hlen : xs.length = bs.length := Forall₂.length_eq h
  refine ⟨hlen ▸ hbs.length_pos, hlen ▸ hbs.length_le, ?_⟩
  rw [hlen]
  have hrange := hbs.range
  generalize coordLimit bs.length = limit at hrange
  clear hbs hlen
  induction h with
  | nil => simp
  | cons hxb _ ih =>
    rw [forall_mem_cons] at hrange ⊢
    exact ⟨⟨hxb.1, lt_trans hxb.2 hrange.1.2⟩, ih hrange.2⟩

/-! ## Counting bits -/

theorem log2Loop_two_pow (s fuel : Nat) (hfuel : s < fuel) :
    log2Loop fuel ((2 ^ s : Nat) : Int) = some s := by
  induction s generalizing fuel with
  | zero =>
    obtain ⟨fuel, rfl⟩ : ∃ k, fuel = k + 1 := ⟨fuel - 1, by omega⟩
    rw [log2Loop, if_pos (by decide)]
  | succ s ih =>
    obtain ⟨fuel, rfl⟩ : ∃ k, fuel = k + 1 := ⟨fuel - 1, by omega⟩
    have hpos := two_pow_pos s
    have hhalf : ((2 ^ (s + 1) : Nat) : Int) / 2 = (2 ^ s : Nat) := by
      omega
    rw [log2Loop, hhalf, if_neg (by omega), ih fuel (by omega), map_some]

theorem log2Loop_neg (fuel : Nat) {bound : Int} (hneg : bound < 0) :
    log2Loop fuel bound = none := by
  induction fuel generalizing bound with
  | zero => rfl
  | succ fuel ih => rw [log2Loop, if_neg (by omega), ih (by omega), map_none]

theorem clog_eq_size {b : Nat} (hb : 0 < b) : clog 2 b = (b - 1).size := by
  apply eq_of_forall_ge_iff
  intro n
  rw [clog_le_iff_le_pow (by decide), Nat.size_le]
  omega

/-- The number of bits of a bound that is not above `2 ^ 30`. For a larger bound the rounded number
is negative. -/
theorem bitCount_eq {b : Nat} (hb : 0 < b) (hlt : b < 2 ^ 31) :
    bitCount b = if b ≤ 2 ^ 30 then some (clog 2 b) else none := by
  have hround : smear ((b : Int) - 1).toNat + 1 = 2 ^ clog 2 b := by
    have hpred : ((b : Int) - 1).toNat = b - 1 := by omega
    have hpow := two_pow_pos (b - 1).size
    rw [hpred, smear_eq (by omega), clog_eq_size hb]
    omega
  have hcast : (smear ((b : Int) - 1).toNat : Int) + 1 = (2 ^ clog 2 b : Nat) := by
    rw [← hround]
    rfl
  rw [bitCount, if_pos (by omega), hcast]
  split
  · next hle =>
    have hbits : clog 2 b ≤ 30 := (clog_le_iff_le_pow (by decide)).2 hle
    have hpow : 2 ^ clog 2 b ≤ 2 ^ 30 := pow_le_pow_right (by decide) hbits
    rw [toInt32_natCast (by omega), log2Loop_two_pow _ _ (by omega)]
  · next hgt =>
    have hbits : clog 2 b = 31 := by
      have hle : clog 2 b ≤ 31 := (clog_le_iff_le_pow (by decide)).2 (by omega)
      have hge := mt (clog_le_iff_le_pow (by decide : 1 < 2) (y := 30)).1 hgt
      omega
    rw [hbits]
    exact log2Loop_neg _ (by decide)

/-- The bits of each coordinate, from the bounds. -/
def boundBits (bs : List Int) : List Nat := bs.map fun b => clog 2 b.toNat

/-- A list of bounds whose bits can be counted has no bound above `2 ^ 30`. -/
theorem mapM_bitCount {bs : List Int} {bits : List Nat} (hpos : ∀ b ∈ bs, 0 < b ∧ b < 2 ^ 31)
    (h : bs.mapM bitCount = some bits) : bits = boundBits bs ∧ ∀ b ∈ bs, b ≤ 2 ^ 30 := by
  induction bs generalizing bits with
  | nil =>
    cases h
    exact ⟨rfl, nofun⟩
  | cons b bs ih =>
    rw [forall_mem_cons] at hpos ⊢
    rw [mapM_cons] at h
    obtain ⟨n, hn, h⟩ := bind_eq_some_iff.1 h
    obtain ⟨rest, hrest, h⟩ := bind_eq_some_iff.1 h
    cases h
    obtain ⟨k, rfl⟩ : ∃ k : Nat, b = k := ⟨b.toNat, by omega⟩
    rw [bitCount_eq (by omega) (by omega)] at hn
    obtain ⟨rfl, hle⟩ := ih hpos.2 hrest
    split at hn
    · next hk =>
      cases hn
      exact ⟨rfl, by omega, hle⟩
    · cases hn

/-! ## Packing and unpacking -/

/-- The fields of an index, from the first coordinate to the last. -/
def fieldsOf (xs bs : List Int) : List Field := (boundBits bs).zip (xs.map Int.toNat)

theorem Within.fields {xs bs : List Int} (h : Within xs bs) :
    Fit (fieldsOf xs bs) ∧ (fieldsOf xs bs).map Prod.fst = boundBits bs ∧
      (fieldsOf xs bs).map (fun f => (f.2 : Int)) = xs := by
  induction h with
  | nil => exact ⟨nofun, rfl, rfl⟩
  | @cons x b xs bs hxb _ ih =>
    obtain ⟨hfit, hfst, hsnd⟩ := ih
    have hcons : fieldsOf (x :: xs) (b :: bs) = (clog 2 b.toNat, x.toNat) :: fieldsOf xs bs :=
      rfl
    have hle : b.toNat ≤ 2 ^ clog 2 b.toNat := Nat.le_pow_clog (by decide) _
    rw [hcons]
    refine ⟨?_, ?_, ?_⟩
    · refine forall_mem_cons.2 ⟨?_, hfit⟩
      dsimp only
      omega
    · rw [map_cons, hfst]
      rfl
    · rw [map_cons, hsnd]
      rw [Int.toNat_of_nonneg hxb.1]

/-- Compression appends one field after the other to those before. -/
theorem compressLoop_eq (fs gs : List Field) (hbits : ∀ f ∈ fs, f.1 ≤ 30) (hfit : Fit fs)
    (hgs : Fit gs) (hwidth : width gs + width fs ≤ 48) :
    compressLoop (fs.map Prod.fst) (fs.map fun f => (f.2 : Int)) (packed gs) =
      some (packed (fs.reverse ++ gs)) := by
  induction fs generalizing gs with
  | nil => rfl
  | cons f fs ih =>
    rw [width_cons] at hwidth
    have hf : f.2 < 2 ^ f.1 := hfit f (mem_cons_self ..)
    have hpow : 2 ^ f.1 ≤ 2 ^ 30 :=
      pow_le_pow_right (by decide) (hbits f (mem_cons_self ..))
    have hfield : Fit (f :: gs) := forall_mem_cons.2 ⟨hf, hgs⟩
    have hlt : packed (f :: gs) < 2 ^ 48 := lt_of_lt_of_le (packed_lt hfield)
      (pow_le_pow_right (by decide) (by rw [width_cons]; omega))
    rw [packed] at hlt
    have hthis : ((f.2 : Int) % 2 ^ 32).toNat = f.2 := by omega
    have hnext : packed gs <<< f.1 % 2 ^ 64 ||| f.2 = packed (f :: gs) := by
      rw [Nat.mod_eq_of_lt (by rw [Nat.shiftLeft_eq]; omega), shiftLeft_or hf, packed]
    rw [map_cons, map_cons, compressLoop, hthis, if_pos hf, hnext,
      ih (f :: gs) (fun g hg => hbits g (mem_cons_of_mem _ hg))
        (fun g hg => hfit g (mem_cons_of_mem _ hg)) hfield (by rw [width_cons]; omega),
      reverse_cons, append_assoc]
    rfl

theorem fieldMask_eq {b : Nat} (hb : b ≤ 30) : fieldMask b = 2 ^ b - 1 := by
  have hpos := two_pow_pos b
  have hpow : 2 ^ b ≤ 2 ^ 30 := pow_le_pow_right (by decide) hb
  have hone : toInt32 (2 ^ b) = (2 ^ b : Nat) := by
    rw [← toInt32_natCast (x := 2 ^ b) (by omega)]
    rfl
  rw [fieldMask, hone, toInt32_of_range (by omega) (by omega)]
  omega

/-- Decompression reads the fields from the last one on. -/
theorem decompressLoop_eq (bits : List Nat) (hbits : ∀ b ∈ bits, b ≤ 30) (id : Nat)
    (ix : List Int) :
    decompressLoop bits id ix = ((unpacked bits id).reverse.map fun x : Nat => (x : Int)) ++
      ix := by
  induction bits generalizing id ix with
  | nil => rfl
  | cons b bits ih =>
    rw [forall_mem_cons] at hbits
    have hpow : 2 ^ b ≤ 2 ^ 30 := pow_le_pow_right (by decide) hbits.1
    rw [decompressLoop, ih hbits.2, fieldMask_eq hbits.1, Nat.and_two_pow_sub_one_eq_mod,
      toInt32_natCast (by omega), Nat.shiftRight_eq_div_pow, unpacked, reverse_cons,
      map_append, append_assoc]
    rfl

/-! ## Lossless compression -/

/-- What a compressor for the bounds `bs` is for: different indices within the bounds have different
numbers, every index comes back from its number, and every number fits the element part of an
identifier. -/
def Lossless (L : IdLayout) (bs : List Int) (c : Compressor) : Prop :=
  ∀ xs, Within xs bs → ∃ idx eid, initNd xs = some idx ∧ c.compress idx = some eid ∧
    (∀ ys, Within ys bs → ∀ idy, initNd ys = some idy → c.compress idy = some eid → ys = xs) ∧
    c.decompress eid = some idx ∧ ∀ gid < 2 ^ L.collectionBits, L.Accepts gid eid

section Compressor

variable {bs : List Int} {bounds : CkArrayIndex} {c : Compressor}

/-- A compressor that was made for the bounds has their bits. -/
theorem make_eq (hbs : Coords bs) (hpos : ∀ b ∈ bs, 0 < b) (hbounds : initNd bs = some bounds)
    (hmake : Compressor.make bounds = some (some c)) :
    c = ⟨bs.length, boundBits bs⟩ ∧ (∀ b ∈ bs, b ≤ 2 ^ 30) ∧ (boundBits bs).sum ≤ 48 := by
  obtain ⟨idx, hidx, hnInts, hdim, htake⟩ := initNd_eq hbs
  cases hbounds.symm.trans hidx
  have hrange : ∀ b ∈ bs, 0 < b ∧ b < 2 ^ 31 := by
    intro b hb
    have hlt := (hbs.range b hb).2
    rw [coordLimit] at hlt
    refine ⟨hpos b hb, ?_⟩
    split at hlt <;> omega
  rw [Compressor.make, if_neg hnInts, htake] at hmake
  obtain ⟨bits, hbits, hmake⟩ := bind_eq_some_iff.1 hmake
  obtain ⟨rfl, hle⟩ := mapM_bitCount hrange hbits
  split at hmake
  · cases hmake
  · cases hmake
    rw [hdim]
    exact ⟨rfl, hle, by omega⟩

theorem boundBits_le (hle : ∀ b ∈ bs, b ≤ 2 ^ 30) : ∀ n ∈ boundBits bs, n ≤ 30 := by
  intro n hn
  obtain ⟨b, hb, rfl⟩ := mem_map.1 hn
  have := hle b hb
  exact (clog_le_iff_le_pow (by decide)).2 (by omega)

variable {xs : List Int} {idx : CkArrayIndex}

/-- The number of an index within the bounds. -/
theorem compress_eq (hbs : Coords bs) (hle : ∀ b ∈ bs, b ≤ 2 ^ 30)
    (hsum : (boundBits bs).sum ≤ 48) (hxs : Within xs bs) (hidx : initNd xs = some idx) :
    Compressor.compress ⟨bs.length, boundBits bs⟩ idx = some (packed (fieldsOf xs bs).reverse) := by
  obtain ⟨idx', hidx', -, hdim, htake⟩ := initNd_eq (hxs.coords hbs)
  cases hidx.symm.trans hidx'
  obtain ⟨hfit, hfst, hsnd⟩ := hxs.fields
  have hbits : ∀ f ∈ fieldsOf xs bs, f.1 ≤ 30 := by
    intro f hf
    exact boundBits_le hle f.1 (hfst ▸ List.mem_map_of_mem hf)
  have hloop := compressLoop_eq (fieldsOf xs bs) [] hbits hfit
    (fun f hf => absurd hf not_mem_nil) (by
      rw [width, width, hfst, map_nil, sum_nil]
      omega)
  rw [hfst, hsnd, append_nil] at hloop
  rw [Compressor.compress, if_pos (hdim.trans (Forall₂.length_eq hxs)), htake]
  exact hloop

theorem fit_reverse (hxs : Within xs bs) : Fit (fieldsOf xs bs).reverse := by
  intro f hf
  exact hxs.fields.1 f (mem_reverse.1 hf)

theorem decompressLoop_packed (hle : ∀ b ∈ bs, b ≤ 2 ^ 30) (hxs : Within xs bs) :
    decompressLoop (boundBits bs).reverse (packed (fieldsOf xs bs).reverse) [] = xs := by
  obtain ⟨hfit, hfst, hsnd⟩ := hxs.fields
  have hunpack := unpacked_packed (fit_reverse hxs)
  rw [map_reverse, hfst, map_reverse] at hunpack
  have hloop := decompressLoop_eq (boundBits bs).reverse
    (fun n hn => boundBits_le hle n (mem_reverse.1 hn)) (packed (fieldsOf xs bs).reverse) []
  rw [hunpack, reverse_reverse, List.map_map, append_nil] at hloop
  exact hloop.trans hsnd

/-- The last index within the bounds has the highest bit of all. -/
theorem last_index (hpos : ∀ b ∈ bs, 0 < b) (hsum : 0 < (boundBits bs).sum) :
    ∃ xs, Within xs bs ∧ 2 ^ ((boundBits bs).sum - 1) ≤ packed (fieldsOf xs bs).reverse := by
  have hlast : Within (bs.map (· - 1)) bs ∧
      ∀ f ∈ fieldsOf (bs.map (· - 1)) bs, 0 < f.1 → 2 ^ (f.1 - 1) ≤ f.2 := by
    clear hsum
    induction bs with
    | nil => exact ⟨Forall₂.nil, nofun⟩
    | cons b bs ih =>
      rw [forall_mem_cons] at hpos
      obtain ⟨hwithin, hhigh⟩ := ih hpos.2
      refine ⟨Forall₂.cons (by dsimp only; omega) hwithin, forall_mem_cons.2 ⟨?_, hhigh⟩⟩
      intro hbits
      have hlt := mt (clog_le_iff_le_pow (by decide : 1 < 2)
        (x := b.toNat) (y := clog 2 b.toNat - 1)).2 (by dsimp only at hbits; omega)
      dsimp only at hbits ⊢
      omega
  refine ⟨_, hlast.1, ?_⟩
  have hwidth : width (fieldsOf (bs.map (· - 1)) bs).reverse = (boundBits bs).sum := by
    rw [width, map_reverse, sum_reverse, hlast.1.fields.2.1]
  rw [← hwidth] at hsum ⊢
  exact two_pow_le_packed (fun f hf => hlast.2 f (mem_reverse.1 hf)) hsum

end Compressor

/-- A compressor that `make` returns for bounds of one to six positive sizes does what it is for if
and only if the bits that the bounds need fit the element part of an identifier. -/
theorem compress_lossless_iff (L : IdLayout) (bs : List Int) (hbs : Coords bs)
    (hpos : ∀ b ∈ bs, 0 < b) (bounds : CkArrayIndex) (hbounds : initNd bs = some bounds)
    (c : Compressor) (hmake : Compressor.make bounds = some (some c)) :
    Lossless L bs c ↔ (bs.map fun b => clog 2 b.toNat).sum ≤ L.elementBits := by
  obtain ⟨rfl, hle, hsum⟩ := make_eq hbs hpos hbounds hmake
  constructor
  · intro hlossless
    by_contra hgt
    obtain ⟨xs, hxs, hhigh⟩ := last_index hpos (Nat.lt_of_le_of_lt (Nat.zero_le _) (not_le.1 hgt))
    obtain ⟨idx, eid, hidx, heid, -, -, haccepts⟩ := hlossless xs hxs
    rw [compress_eq hbs hle hsum hxs hidx] at heid
    cases heid
    have hlt := (IdLayout.accepts_iff (two_pow_pos _) _).1 (haccepts 0 (two_pow_pos _))
    have hpow : 2 ^ L.elementBits ≤ 2 ^ ((boundBits bs).sum - 1) :=
      pow_le_pow_right (by decide) (Nat.le_sub_one_of_lt (not_le.1 hgt))
    omega
  · intro hfits xs hxs
    obtain ⟨idx, hidx, -⟩ := initNd_eq (hxs.coords hbs)
    refine ⟨idx, _, hidx, compress_eq hbs hle hsum hxs hidx, ?_, ?_, ?_⟩
    · -- the coordinates can be read back from the number
      intro ys hys idy hidy heq
      rw [compress_eq hbs hle hsum hys hidy] at heq
      rw [← decompressLoop_packed hle hxs, ← decompressLoop_packed hle hys, some.inj heq]
    · rw [Compressor.decompress, decompressLoop_packed hle hxs, hidx]
    · intro gid hgid
      rw [IdLayout.accepts_iff hgid]
      refine lt_of_lt_of_le (packed_lt (fit_reverse hxs)) (pow_le_pow_right (by decide) ?_)
      rw [width, map_reverse, sum_reverse, hxs.fields.2.1]
      exact hfits

/-- Bounds that need five bits. -/
theorem compress_lossless_four_by_five : Lossless defaultLayout [4, 5] ⟨2, [2, 3]⟩ :=
  (compress_lossless_iff defaultLayout [4, 5] ⟨by decide, by decide, by decide⟩ (by decide)
    ⟨2, 2, [4, 5, 0]⟩ (by decide) ⟨2, [2, 3]⟩ (by decide +kernel)).2 (by decide +kernel)

/-- Bounds that need 41 bits: `make` returns a compressor, and the number of the last index is not
accepted. -/
theorem compress_exceeds_objID : ∃ bounds c, initNd [2 ^ 20, 2 ^ 21] = some bounds ∧
    Compressor.make bounds = some (some c) ∧ ¬ Lossless defaultLayout [2 ^ 20, 2 ^ 21] c := by
  refine ⟨⟨2, 2, [2 ^ 20, 2 ^ 21, 0]⟩, ⟨2, [20, 21]⟩, by decide, by decide +kernel, fun h => ?_⟩
  obtain ⟨idx, eid, hidx, heid, -, -, haccepts⟩ := h [2 ^ 20 - 1, 2 ^ 21 - 1]
    (.cons (by decide) (.cons (by decide) .nil))
  have hidx' : initNd [2 ^ 20 - 1, 2 ^ 21 - 1] = some ⟨2, 2, [2 ^ 20 - 1, 2 ^ 21 - 1, 0]⟩ := by
    decide
  cases hidx.symm.trans hidx'
  have heid' : Compressor.compress ⟨2, [20, 21]⟩ ⟨2, 2, [2 ^ 20 - 1, 2 ^ 21 - 1, 0]⟩ =
      some (2 ^ 41 - 1) := by decide +kernel
  cases heid.symm.trans heid'
  obtain ⟨id, hid, -⟩ := haccepts 0 (two_pow_pos _)
  have herror : defaultLayout.objID 0 (2 ^ 41 - 1) = .error .tooManyElements := by decide +kernel
  cases hid.symm.trans herror

end CharmRuntime.Location
