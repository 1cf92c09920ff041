import Mathlib.Order.Lattice

/-!
# Priorities of the scheduler queue

A priority is a number of bits and the 32-bit words that hold them, most significant word first.
`prio_struct` stores the number of bits and the number of words in 16 bits each, so both are
truncated when a bucket is made. `CqsPrioGT` compares two priorities word by word, unsigned, with a
proper prefix first; `cqsPrioGT_iff` identifies it with the lexicographic order of the compared
words.

The integer strategies bias a signed 32-bit or 64-bit priority by its sign bit, so that the unsigned
word order is the signed order (`biasInt_lt_iff`, `biasLong_lt_iff`). A 64-bit priority is stored
with its high word first on machines of either byte order (`longWords_lprio`).
-/

set_option autoImplicit false

namespace CharmRuntime.Queueing

open List

/-- `unsigned int`. -/
abbrev Word := BitVec 32

/-- `PRIOQ_TABSIZE`. -/
def prioqTabsize : Nat := 1017

/-- `CINTBITS`. -/
def cintBits : Word := 32

/-- `CLONGBITS`. -/
def clongBits : Word := 64

/-- `prio_struct`. -/
structure Prio where
  bits : BitVec 16
  ints : BitVec 16
  data : List Word

/-- The number of words of a priority, in `unsigned int` arithmetic. -/
def prioInts (priobits : Word) : Nat := ((priobits + cintBits - 1) / cintBits).toNat

/-- `CqsPrioGT`, the loop: the remaining word counts and the remaining words. -/
def cqsPrioGTLoop : Nat → List Word → Nat → List Word → Bool
  | 0, _, _, _ => false
  | _ + 1, _, 0, _ => true
  | ints1 + 1, data1, ints2 + 1, data2 =>
    if data1.headD 0 < data2.headD 0 then false
    else if data1.headD 0 > data2.headD 0 then true
    else cqsPrioGTLoop ints1 data1.tail ints2 data2.tail

/-- `CqsPrioGT`. -/
def cqsPrioGT (prio1 prio2 : Prio) : Bool :=
  cqsPrioGTLoop prio1.ints.toNat prio1.data prio2.ints.toNat prio2.data

/-- The values of the first `ints` words. -/
def wordValues : Nat → List Word → List Nat
  | 0, _ => []
  | ints + 1, data => (data.headD 0).toNat :: wordValues ints data.tail

/-- What `CqsPrioGT` compares: the values of the words that `ints` counts. -/
def Prio.key (p : Prio) : List Nat := wordValues p.ints.toNat p.data

theorem wordValues_length : ∀ data : List Word, wordValues data.length data = data.map BitVec.toNat
  | [] => rfl
  | _ :: data => by
    show _ :: wordValues data.length data = _
    rw [wordValues_length data]
    rfl

theorem cqsPrioGTLoop_iff : ∀ (ints1 : Nat) (data1 : List Word) (ints2 : Nat) (data2 : List Word),
    cqsPrioGTLoop ints1 data1 ints2 data2 = true ↔ wordValues ints2 data2 < wordValues ints1 data1
  | 0, _, _, _ => by simp [cqsPrioGTLoop, wordValues]
  | _ + 1, _, 0, _ => by simp [cqsPrioGTLoop, wordValues]
  | ints1 + 1, data1, ints2 + 1, data2 => by
    have ih := cqsPrioGTLoop_iff ints1 data1.tail ints2 data2.tail
    simp only [cqsPrioGTLoop, wordValues, cons_lt_cons_iff, BitVec.lt_def, gt_iff_lt, ← ih]
    generalize (data1.headD 0).toNat = v1
    generalize (data2.headD 0).toNat = v2
    by_cases h1 : v1 < v2
    · rw [if_pos h1]
      refine ⟨fun h => absurd h (by simp), fun h => ?_⟩
      omega
    · rw [if_neg h1]
      by_cases h2 : v2 < v1
      · simp [h2]
      · have he : v2 = v1 := by omega
        simp [he]

/-- `CqsPrioGT` is the strict lexicographic order of the compared words. -/
theorem cqsPrioGT_iff (p q : Prio) : cqsPrioGT p q = true ↔ q.key < p.key :=
  cqsPrioGTLoop_iff _ _ _ _

/-! ## The hash of a priority -/

/-- The exclusive or of the number of bits and the words. -/
def prioHash (bits : Word) (words : List Word) : Word := words.foldl (· ^^^ ·) bits

/-- The chain index of a hash value in a table of `size` chains. -/
def hashIndex (hashval : Word) (size : Nat) : Nat := (hashval &&& 0x7FFFFFFF#32).toNat % size

theorem hashIndex_lt {hashval : Word} {size : Nat} (h : 0 < size) : hashIndex hashval size < size :=
  Nat.mod_lt _ h

/-! ## Signed integer priorities -/

/-- `prioptr[0]+(1U<<(CINTBITS-1))`. -/
def biasInt (p : Word) : Word := p + 1#32 <<< 31

/-- The `CmiInt8` at `prioptr`, on a little-endian or a big-endian machine. -/
def loadLong (little : Bool) (w0 w1 : Word) : BitVec 64 :=
  if little then w1 ++ w0 else w0 ++ w1

/-- `lprio0 + (1ULL<<(CLONGBITS-1))`. -/
def biasLong (lprio0 : BitVec 64) : BitVec 64 := lprio0 + 1#64 <<< 63

/-- `lprio`: the words of `lprio0` are exchanged on a little-endian machine. -/
def lprio (little : Bool) (lprio0 : BitVec 64) : BitVec 64 :=
  if little then ((lprio0.setWidth 32).setWidth 64) <<< 32 ||| lprio0 >>> 32 else lprio0

/-- The two words at the address of a `CmiInt8`. -/
def longWords (little : Bool) (x : BitVec 64) : List Word :=
  if little then [x.setWidth 32, (x >>> 32).setWidth 32]
  else [(x >>> 32).setWidth 32, x.setWidth 32]

/-- On either machine the high word of the priority is the first word of the key. -/
theorem longWords_lprio (little : Bool) (x : BitVec 64) :
    longWords little (lprio little x) = [(x >>> 32).setWidth 32, x.setWidth 32] := by
  cases little with
  | false => rfl
  | true =>
    have hlow : ((x.setWidth 32).setWidth 64 <<< 32 ||| x >>> 32).setWidth 32 =
        (x >>> 32).setWidth 32 := by
      ext i hi
      simp
    have hhigh : (((x.setWidth 32).setWidth 64 <<< 32 ||| x >>> 32) >>> 32).setWidth 32 =
        x.setWidth 32 := by
      ext i hi
      have hover : x.getLsbD (32 + (32 + i)) = false := BitVec.getLsbD_of_ge x _ (by omega)
      simp [hi, show 32 + i < 64 by omega, hover]
    show [(lprio true x).setWidth 32, (lprio true x >>> 32).setWidth 32] = _
    rw [show lprio true x = (x.setWidth 32).setWidth 64 <<< 32 ||| x >>> 32 from rfl, hlow, hhigh]

/-- Biasing turns the signed order of `int` into the unsigned order. -/
theorem biasInt_lt_iff (p q : Word) : (biasInt p).toNat < (biasInt q).toNat ↔
    p.toInt < q.toInt := by
  have hb : ∀ r : Word, (biasInt r).toNat = (r.toNat + 2 ^ 31) % 2 ^ 32 := by
    intro r
    rw [biasInt, BitVec.toNat_add]
    rfl
  rw [hb, hb, BitVec.toInt_eq_toNat_cond, BitVec.toInt_eq_toNat_cond]
  omega

/-- Biasing turns the signed order of `CmiInt8` into the unsigned order. -/
theorem biasLong_lt_iff (p q : BitVec 64) : (biasLong p).toNat < (biasLong q).toNat ↔
    p.toInt < q.toInt := by
  have hb : ∀ r : BitVec 64, (biasLong r).toNat = (r.toNat + 2 ^ 63) % 2 ^ 64 := by
    intro r
    rw [biasLong, BitVec.toNat_add]
    rfl
  rw [hb, hb, BitVec.toInt_eq_toNat_cond, BitVec.toInt_eq_toNat_cond]
  omega

/-- The word order of two 64-bit values, high word first, is their unsigned order. -/
theorem longWords_lt_iff (x y : BitVec 64) :
    [(x >>> 32).setWidth 32, x.setWidth 32].map BitVec.toNat <
      ([(y >>> 32).setWidth 32, y.setWidth 32] : List Word).map BitVec.toNat ↔
      x.toNat < y.toNat := by
  simp only [map_cons, map_nil, cons_lt_cons_iff, not_lt_nil, and_false,
    or_false, BitVec.toNat_setWidth, BitVec.toNat_ushiftRight, Nat.shiftRight_eq_div_pow]
  omega

end CharmRuntime.Queueing
