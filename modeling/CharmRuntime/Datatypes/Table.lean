import CharmRuntime.Lib.Run
import CharmRuntime.Lib.Words
import Mathlib.Logic.Function.Basic

/-!
# The table of datatypes

The model of the class `CkDDT` of `ddt.C`, as far as it concerns the life of datatypes: their
creation, `getContents` and `freeType`, with the reference counts. Objects are at addresses that are
not reused. Reading a null pointer, a pointer to a deleted object or past the end of the table, and
a failed assertion, give no result.

The predefined types are objects of another table that all ranks share. Nothing reads their counts,
which are left out.
-/

set_option autoImplicit false

namespace CharmRuntime.Datatypes

/-! ## Datatypes -/

/-- `AMPI_MAX_PREDEFINED_TYPE`. -/
def maxPredefinedType : Nat := 41

/-- The classes of datatypes; `basic` is `CkDDT_DataType` itself. -/
inductive Kind
  | basic
  | contiguous
  | vector
  | hvector
  | indexedBlock
  | hindexedBlock
  | indexed
  | hindexed
  | struct
  deriving DecidableEq

/-- A pointer to a datatype. -/
inductive Pointer
  | predefined (index : Nat)
  | user (address : Nat)
  deriving DecidableEq

/-- A datatype that another one is made of: its index in the table and the pointer to it. -/
structure Base where
  index : Nat
  type : Pointer
  deriving DecidableEq

/-- `CkDDT_DataType` and the classes derived from it. `refCount` is an `int`; `base` are `baseIndex`
and `baseType`, which may be null; `members` are the vectors `index` and `arrayDataType` of
`CkDDT_Struct`. -/
structure DataType where
  kind : Kind
  refCount : Int
  base : Option Base
  members : List Base

/-- The datatypes that a datatype holds references to. -/
def DataType.bases (type : DataType) : List Base :=
  if type.kind = .struct then type.members else type.base.toList

/-- The types of a predefined pair, as `createPredefinedTypes` gives them to `addStruct`. -/
def pairMembers : Nat → List Nat
  | 30 => [2, 1]
  | 31 => [0, 1]
  | 32 => [9, 1]
  | 33 => [1, 1]
  | 34 => [8, 1]
  | 35 => [14, 1]
  | 36 | 38 | 39 => [2, 2]
  | 37 | 40 => [0, 0]
  | _ => [14, 14]

/-- `predefinedTypeTable`. -/
def predefinedType (index : Nat) : DataType :=
  if index ≤ 29 then ⟨.basic, 1, none, []⟩
  else ⟨.struct, 1, none, (pairMembers index).map fun i => ⟨i, .predefined i⟩⟩

/-! ## The table -/

/-- `CkDDT`, with the objects that its pointers refer to. A null pointer and `MPI_DATATYPE_NULL` are
`none`. -/
structure CkDDT where
  heap : Nat → Option DataType
  next : Nat
  userTypeTable : List (Option Nat)
  types : List (Option Kind)

/-- The table of a new rank. -/
def CkDDT.empty : CkDDT := ⟨fun _ => none, 0, [], []⟩

namespace CkDDT

variable (ddt : CkDDT)

/-- The object in a slot of the table. -/
def slot (i : Nat) : Option Nat := ddt.userTypeTable[i]?.join

/-- `getType`. A null pointer is not followed. -/
def getType (index : Nat) : Option Pointer :=
  if index ≤ maxPredefinedType then some (.predefined index)
  else (ddt.slot (index - maxPredefinedType - 1)).map .user

/-- What a pointer refers to. -/
def deref : Pointer → Option DataType
  | .predefined index => some (predefinedType index)
  | .user address => ddt.heap address

/-- An object is written. -/
def store (address : Nat) (type : DataType) : CkDDT :=
  { ddt with heap := Function.update ddt.heap address (some type) }

/-- `incRefCount`, with its assertion. The count wraps around. -/
def incRefCount : Pointer → Option CkDDT
  | .predefined _ => some ddt
  | .user address =>
    (ddt.heap address).bind fun type =>
      if 0 < type.refCount then
        if type.kind = .basic then some ddt
        else
          some (ddt.store address { type with refCount := Lib.Words.toInt32 (type.refCount + 1) })
      else none

/-- The loop that counts the references of a struct to its members. -/
def incRefCounts (ddt : CkDDT) (members : List Base) : Option CkDDT :=
  members.foldlM (fun (ddt : CkDDT) member => ddt.incRefCount member.type) ddt

/-- The assertion that the vectors of the table have the same size. -/
def sameSize : Bool := ddt.types.length = ddt.userTypeTable.length

/-- `insertType`, for the object that has just been made: the first free slot, or a new one. -/
def insertType (type : DataType) : Option (CkDDT × Nat) :=
  if ddt.sameSize then
    let made := { ddt.store ddt.next type with next := ddt.next + 1 }
    match ddt.types.findIdx? Option.isNone with
    | some i =>
      some ({ made with
        types := ddt.types.set i (some type.kind)
        userTypeTable := ddt.userTypeTable.set i (some ddt.next) }, maxPredefinedType + 1 + i)
    | none =>
      some ({ made with
        types := ddt.types ++ [some type.kind]
        userTypeTable := ddt.userTypeTable ++ [some ddt.next] },
        maxPredefinedType + (ddt.types.length + 1))
  else none

/-! ## Creation -/

/-- `newContiguous`, `newVector`, `newHVector`, `newIndexedBlock`, `newHIndexedBlock`, `newIndexed`
and `newHIndexed`, which differ in the class only. -/
def newDerived (kind : Kind) (oldType : Nat) : Option (CkDDT × Nat) :=
  (ddt.getType oldType).bind fun pointer =>
    (ddt.incRefCount pointer).bind fun ddt => ddt.insertType ⟨kind, 1, some ⟨oldType, pointer⟩, []⟩

/-- `newStruct`. -/
def newStruct (oldTypes : List Nat) : Option (CkDDT × Nat) :=
  (oldTypes.mapM fun index => (ddt.getType index).map fun pointer => Base.mk index pointer).bind
    fun members =>
      (ddt.incRefCounts members).bind fun ddt => ddt.insertType ⟨.struct, 1, none, members⟩

/-- The base of a copied datatype, if it is not null, gets a reference. -/
def incBase : Option Base → Option CkDDT
  | some base => ddt.incRefCount base.type
  | none => some ddt

/-- The copy constructor of a datatype, in `createDup` and `createResized`: the base gets a
reference, the members of a struct do not. -/
def copy (oldType : Nat) : Option (CkDDT × Nat) :=
  ((ddt.getType oldType).bind ddt.deref).bind fun type =>
    (ddt.incBase type.base).bind fun ddt => ddt.insertType { type with refCount := 1 }

/-- `createDup`. -/
def createDup (oldType : Nat) : Option (CkDDT × Nat) := ddt.copy oldType

/-- `createResized`. The bounds do not matter here. -/
def createResized (oldType : Nat) : Option (CkDDT × Nat) := ddt.copy oldType

/-- `getContents`: the datatypes that it gives to the user. -/
def getContents (index : Nat) : Option (CkDDT × List Base) :=
  ((ddt.getType index).bind ddt.deref).bind fun type =>
    if type.kind = .struct then
      (ddt.incRefCounts type.members).map fun ddt => (ddt, type.members)
    else
      type.base.bind fun base => (ddt.incRefCount base.type).map fun ddt => (ddt, [base])

/-! ## Freeing -/

/-- The loop that removes null pointers from the back of the table, with its assertion. The argument
is reversed. -/
def trimBack : List (Option Nat) → List (Option Kind) →
    Option (List (Option Nat) × List (Option Kind))
  | none :: table, type :: types => if type.isNone then trimBack table types else none
  | none :: _, [] => none
  | table, types => some (table, types)

/-- The end of `freeType`: the object is deleted. -/
def delete (i address : Nat) : Option CkDDT :=
  (trimBack (ddt.userTypeTable.set i none).reverse (ddt.types.set i none).reverse).map
    fun (table, types) =>
      { ddt with
        heap := Function.update ddt.heap address none
        userTypeTable := table.reverse
        types := types.reverse }

/-- `freeType`. The first argument bounds the depth of the recursion. -/
def freeTypeAt : Nat → CkDDT → Nat → Option CkDDT
  | 0, _, _ => none
  | fuel + 1, ddt, index =>
    if ddt.sameSize then
      if index ≤ maxPredefinedType then some ddt
      else
        let i := index - maxPredefinedType - 1
        (ddt.slot i).bind fun address =>
          (ddt.heap address).bind fun type =>
            if 0 < type.refCount then
              if type.kind = .basic then some ddt
              else
                let released := ddt.store address { type with refCount := type.refCount - 1 }
                if type.refCount - 1 = 0 then
                  (type.bases.foldlM (fun ddt base => freeTypeAt fuel ddt base.index) released).bind
                    fun ddt => (ddt.delete i address).filter sameSize
                else some released
            else none
    else none

/-- `freeType`. Objects refer to older ones, so the depth is at most their number. -/
def freeType (index : Nat) : Option CkDDT := freeTypeAt (ddt.next + 1) ddt index

end CkDDT

/-! ## The user -/

/-- The table and the handles that the user has and has not freed. Each is given with the object
that it was obtained for. -/
structure System where
  ddt : CkDDT
  handles : List Base

/-- The start. -/
def System.start : System := ⟨.empty, []⟩

/-- The calls. -/
inductive Call
  | newDerived (kind : Kind) (oldType : Nat)
  | newStruct (oldTypes : List Nat)
  | createDup (oldType : Nat)
  | createResized (oldType : Nat)
  | getContents (index : Nat)
  | freeType (handle : Base)

/-- A new datatype has been created. -/
def System.created (s : System) (made : CkDDT × Nat) : System :=
  ⟨made.1, ⟨made.2, .user (made.1.next - 1)⟩ :: s.handles⟩

/-- What a call does. The user frees handles that it has. -/
def System.exec (s : System) : Call → Option System
  | .newDerived kind oldType =>
    if kind = .basic ∨ kind = .struct then none else (s.ddt.newDerived kind oldType).map s.created
  | .newStruct oldTypes => (s.ddt.newStruct oldTypes).map s.created
  | .createDup oldType => (s.ddt.createDup oldType).map s.created
  | .createResized oldType => (s.ddt.createResized oldType).map s.created
  | .getContents index =>
    (s.ddt.getContents index).map fun (ddt, contents) => ⟨ddt, contents ++ s.handles⟩
  | .freeType handle =>
    if handle ∈ s.handles then
      (s.ddt.freeType handle.index).map fun ddt => ⟨ddt, s.handles.erase handle⟩
    else none

end CharmRuntime.Datatypes
