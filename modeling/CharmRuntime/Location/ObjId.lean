import CharmRuntime.Lib.Words
import CharmRuntime.Lib.BitFields

/-!
# Object identifiers

`ck::ObjID` packs the number of a collection and the number of an element into 64 bits: from the
highest bits down three bits of a type tag, the collection, and the element. The number of bits of
the collection is chosen when the library is built. A number that does not fit aborts the program.
-/

set_option autoImplicit false

namespace CharmRuntime.Location

open Lib

/-- `CMK_OBJID_COLLECTION_BITS`, with the conditions that are checked at compile time. -/
structure IdLayout where
  collectionBits : Nat
  bits_pos : 0 < collectionBits
  bits_lt : collectionBits < 61

/-- The default layout: 21 bits for the collection, and 40 bits for the element. -/
def defaultLayout : IdLayout := ⟨21, by decide, by decide⟩

/-- The aborts of the constructor: "Attempting to create too many chare collections!" and
"Attempting to create too many chare elements!". -/
inductive ObjIdAbort
  | tooManyCollections
  | tooManyElements
  deriving DecidableEq, Repr

namespace IdLayout

variable (L : IdLayout)

/-- `ELEMENT_BITS`. -/
def elementBits : Nat := 64 - L.collectionBits - 3

/-- `ELEMENT_MASK`. -/
def elementMask : Nat := 2 ^ L.elementBits - 1

/-- `COLLECTION_MASK`. -/
def collectionMask : Nat := (2 ^ L.collectionBits - 1) <<< L.elementBits % 2 ^ 64

/-- The constructor `ObjID(gid, eid)`. -/
def objID (gid : Int) (eid : Nat) : Except ObjIdAbort Nat :=
  let idx := (gid % 2 ^ 64).toNat
  let id := idx <<< L.elementBits % 2 ^ 64 ||| eid
  if idx > L.collectionMask >>> L.elementBits then .error .tooManyCollections
  else if eid > L.elementMask then .error .tooManyElements
  else .ok id

/-- `getCollectionID`. -/
def getCollectionID (id : Nat) : Nat := (id &&& L.collectionMask) >>> L.elementBits

/-- `getElementID`. -/
def getElementID (id : Nat) : Nat := id &&& L.elementMask

/-- The constructor accepts the two numbers and the identifier returns them. -/
def Accepts (gid eid : Nat) : Prop :=
  ∃ id, L.objID gid eid = .ok id ∧ L.getElementID id = eid ∧ L.getCollectionID id = gid

variable {L} {gid eid : Nat}

theorem elementBits_add : L.elementBits + L.collectionBits = 61 := by
  have := L.bits_lt
  rw [elementBits]
  omega

theorem collectionMask_eq : L.collectionMask = (2 ^ L.collectionBits - 1) * 2 ^ L.elementBits := by
  have hsum : 2 ^ L.collectionBits * 2 ^ L.elementBits = 2 ^ 61 := by
    rw [← Nat.pow_add, add_comm, elementBits_add]
  rw [collectionMask, Nat.shiftLeft_eq, Nat.mod_eq_of_lt]
  rw [Nat.sub_mul, hsum]
  omega

theorem collectionMask_shiftRight : L.collectionMask >>> L.elementBits =
    2 ^ L.collectionBits - 1 := by
  rw [collectionMask_eq, Nat.shiftRight_eq_div_pow, Nat.mul_div_cancel _ (Nat.two_pow_pos _)]

variable (hgid : gid < 2 ^ L.collectionBits)

include hgid

/-- An element that does not fit is not accepted with any collection. -/
theorem objID_tooManyElements
    (heid : 2 ^ L.elementBits ≤ eid) : L.objID gid eid = .error .tooManyElements := by
  have hpow : 2 ^ L.collectionBits < 2 ^ 61 := Nat.pow_lt_pow_right (by decide) L.bits_lt
  have hidx : ((gid : Int) % 2 ^ 64).toNat = gid := by omega
  rw [objID, hidx, collectionMask_shiftRight]
  have := Nat.two_pow_pos L.elementBits
  rw [if_neg (by omega), if_pos (by rw [elementMask]; omega)]

theorem objID_eq
    (heid : eid < 2 ^ L.elementBits) : L.objID gid eid = .ok (gid * 2 ^ L.elementBits + eid) := by
  have hpow : 2 ^ L.collectionBits < 2 ^ 61 := Nat.pow_lt_pow_right (by decide) L.bits_lt
  have hidx : ((gid : Int) % 2 ^ 64).toNat = gid := by omega
  have hsum : 2 ^ L.collectionBits * 2 ^ L.elementBits = 2 ^ 61 := by
    rw [← Nat.pow_add, add_comm, elementBits_add]
  have hhigh : gid * 2 ^ L.elementBits < 2 ^ 61 := by
    rw [← hsum]
    exact Nat.mul_lt_mul_of_pos_right hgid (Nat.two_pow_pos _)
  rw [objID, hidx, collectionMask_shiftRight, if_neg (by omega),
    if_neg (by rw [elementMask]; omega), Nat.mod_eq_of_lt (by rw [Nat.shiftLeft_eq]; omega),
    BitFields.shiftLeft_or heid]

theorem accepts_iff (eid : Nat) : L.Accepts gid eid ↔ eid < 2 ^ L.elementBits := by
  constructor
  · rintro ⟨id, hid, -⟩
    by_contra hle
    rw [objID_tooManyElements hgid (by omega)] at hid
    cases hid
  · intro heid
    refine ⟨_, objID_eq hgid heid, ?_, ?_⟩
    · rw [getElementID, elementMask, Nat.and_two_pow_sub_one_eq_mod, Nat.mul_add_mod_self_right,
        Nat.mod_eq_of_lt heid]
    · -- the mask of the collection is the mask of its width, shifted
      have hdiv : (gid * 2 ^ L.elementBits + eid) >>> L.elementBits = gid := by
        rw [Nat.shiftRight_eq_div_pow, add_comm, Nat.add_mul_div_right _ _ (Nat.two_pow_pos _),
          Nat.div_eq_of_lt heid, zero_add]
      rw [getCollectionID, Nat.shiftRight_and_distrib, hdiv, collectionMask_shiftRight,
        Nat.and_two_pow_sub_one_eq_mod, Nat.mod_eq_of_lt hgid]

end IdLayout

end CharmRuntime.Location
