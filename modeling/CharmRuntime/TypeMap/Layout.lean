import Mathlib.Data.List.Basic
import Mathlib.Algebra.Order.Ring.Int

/-!
# Datatypes and their type maps

The classes of `ddt.C` that describe how data lies in memory: `CkDDT_DataType` for a basic type and
one class for each constructor of derived types. An object has the arguments of its constructor and
the bounds that the constructor has computed, with the flag `iscontig` that allows `serialize` to
copy everything at once.

`typeMap` is what a datatype means: the displacements of the bytes of one element, in order. A
derived type is made of parts (`DataType.parts`), which are elements of other types at
displacements, and its type map consists of theirs (`typeMap_eq`).
-/

set_option autoImplicit false

namespace CharmRuntime.TypeMap

open List

/-! ## Objects -/

/-- The bounds of a datatype, and whether its elements are taken to be contiguous. -/
structure Bounds where
  lb : Int
  ub : Int
  extent : Int
  iscontig : Bool

/-- The basic types with a meaning of their own: `MPI_LB` and `MPI_UB` mark bounds. -/
inductive Mark
  | data
  | lower
  | upper
  deriving DecidableEq

mutual

/-- `CkDDT_DataType` and its subclasses. The displacements of `indexedBlock` and `indexed` are in
units of the extent of the base type, all others are in bytes. -/
inductive DataType
  | basic (bounds : Bounds) (mark : Mark) (size : Nat)
  | contiguous (bounds : Bounds) (count : Nat) (base : DataType)
  | vector (bounds : Bounds) (count blockLength : Nat) (strideLength : Int) (base : DataType)
  | hvector (bounds : Bounds) (count blockLength : Nat) (strideLength : Int) (base : DataType)
  | indexedBlock (bounds : Bounds) (blockLength : Nat) (arrayDisplacements : List Int)
      (base : DataType)
  | hindexedBlock (bounds : Bounds) (blockLength : Nat) (arrayDisplacements : List Int)
      (base : DataType)
  | indexed (bounds : Bounds) (blocks : List (Nat × Int)) (base : DataType)
  | hindexed (bounds : Bounds) (blocks : List (Nat × Int)) (base : DataType)
  | struct (bounds : Bounds) (members : Members)

/-- The arrays of `CkDDT_Struct`: block lengths, displacements and types. -/
inductive Members
  | nil
  | cons (blockLength : Nat) (displacement : Int) (type : DataType) (rest : Members)

end

/-- A block of a struct. -/
structure Member where
  blockLength : Nat
  displacement : Int
  type : DataType

/-- The blocks of a struct in order. -/
def Members.toList : Members → List Member
  | .nil => []
  | .cons blockLength displacement type rest => ⟨blockLength, displacement, type⟩ :: rest.toList

namespace DataType

/-- The bounds of a datatype. -/
def bounds : DataType → Bounds
  | .basic bounds _ _ | .contiguous bounds _ _ | .vector bounds _ _ _ _ | .hvector bounds _ _ _ _
  | .indexedBlock bounds _ _ _ | .hindexedBlock bounds _ _ _ | .indexed bounds _ _
  | .hindexed bounds _ _ | .struct bounds _ => bounds

/-- `getExtent`. -/
def extent (type : DataType) : Int := type.bounds.extent

/-- `getBaseType`; null in a basic type and in a struct. -/
def base? : DataType → Option DataType
  | .basic _ _ _ | .struct _ _ => none
  | .contiguous _ _ base | .vector _ _ _ _ base | .hvector _ _ _ _ base | .indexedBlock _ _ _ base
  | .hindexedBlock _ _ _ base | .indexed _ _ base | .hindexed _ _ base => some base

/-- Whether a datatype is `MPI_LB` or `MPI_UB`. -/
def mark : DataType → Mark
  | .basic _ mark _ => mark
  | _ => .data

/-- The same object with other bounds. -/
def withBounds (type : DataType) (bounds : Bounds) : DataType :=
  match type with
  | .basic _ mark size => .basic bounds mark size
  | .contiguous _ count base => .contiguous bounds count base
  | .vector _ count blockLength strideLength base =>
    .vector bounds count blockLength strideLength base
  | .hvector _ count blockLength strideLength base =>
    .hvector bounds count blockLength strideLength base
  | .indexedBlock _ blockLength displacements base =>
    .indexedBlock bounds blockLength displacements base
  | .hindexedBlock _ blockLength displacements base =>
    .hindexedBlock bounds blockLength displacements base
  | .indexed _ blocks base => .indexed bounds blocks base
  | .hindexed _ blocks base => .hindexed bounds blocks base
  | .struct _ members => .struct bounds members

end DataType

mutual

/-- `getSize`, as the constructors compute it. -/
def DataType.size : DataType → Nat
  | .basic _ _ size => size
  | .contiguous _ count base => count * base.size
  | .vector _ count blockLength _ base | .hvector _ count blockLength _ base =>
    count * blockLength * base.size
  | .indexedBlock _ blockLength displacements base
  | .hindexedBlock _ blockLength displacements base =>
    displacements.length * (blockLength * base.size)
  | .indexed _ blocks base | .hindexed _ blocks base => (blocks.map (·.1)).sum * base.size
  | .struct _ members => members.size

/-- The sum of the sizes of the blocks. -/
def Members.size : Members → Nat
  | .nil => 0
  | .cons blockLength _ type rest => blockLength * type.size + rest.size

end

/-! ## Constructors -/

/-- A predefined type of one element. -/
def basicType (mark : Mark) (size : Nat) : DataType := .basic ⟨0, size, size, true⟩ mark size

/-- The flag of a derived type: its extent is its size, it has elements, and `contig` holds. -/
def iscontigOf (extent : Int) (size count : Nat) (contig : Bool) : Bool :=
  if extent ≠ size ∨ count = 0 then false else contig

/-- `CkDDT_Contiguous`. -/
def newContiguous (count : Nat) (base : DataType) : DataType :=
  let ⟨lb, ub⟩ : Int × Int :=
    if base.bounds.lb > base.bounds.ub then
      (base.bounds.lb + base.extent * (count - 1), base.bounds.ub)
    else (base.bounds.lb, base.bounds.lb + count * base.extent)
  .contiguous ⟨lb, ub, ub - lb, iscontigOf (ub - lb) (count * base.size) count base.bounds.iscontig⟩
    count base

/-- When the blocks of a vector are taken to be contiguous. -/
def vectorContig (count blockLength : Nat) (strideLength : Int) (base : DataType) : Bool :=
  if count = 1 ∨ strideLength = 1 ∧ blockLength = 1 then base.bounds.iscontig else false

/-- `CkDDT_Vector`. -/
def newVector (count blockLength : Nat) (strideLength : Int) (base : DataType) : DataType :=
  let ⟨lb, ub⟩ : Int × Int :=
    if base.bounds.lb > base.bounds.ub then
      if strideLength > 0 then
        (base.bounds.ub + (strideLength * count - 2 - (strideLength.natAbs - blockLength)) *
          base.extent, base.bounds.ub)
      else
        (base.bounds.lb + (blockLength - 1) * base.extent,
          base.bounds.ub + strideLength * (count - 1) * base.extent)
    else if strideLength > 0 then
      (base.bounds.lb,
        base.bounds.lb + (count * blockLength + (strideLength - blockLength) * (count - 1)) *
          base.extent)
    else
      let lb := base.bounds.lb + strideLength * base.extent * (count - 1)
      (lb, lb + blockLength * base.extent + strideLength.natAbs * (count - 1) * base.extent)
  .vector ⟨lb, ub, ub - lb, iscontigOf (ub - lb) (count * blockLength * base.size) count
    (vectorContig count blockLength strideLength base)⟩ count blockLength strideLength base

/-- `CkDDT_HVector`. -/
def newHVector (count blockLength : Nat) (strideLength : Int) (base : DataType) : DataType :=
  let extent : Int :=
    if strideLength < 0 then blockLength * base.extent + -1 * strideLength * (count - 1)
    else count * blockLength * base.extent +
      (strideLength - blockLength * base.extent) * (count - 1)
  let lb := base.bounds.lb + if strideLength < 0 then strideLength * (count - 1) else 0
  .hvector ⟨lb, lb + extent, extent, iscontigOf extent (count * blockLength * base.size) count
    (vectorContig count blockLength strideLength base)⟩ count blockLength strideLength base

/-- The loop over the blocks of an indexed type: the least displacement and the largest end of a
block that is not empty. -/
def span (extent : Int) (blocks : List (Nat × Int)) : Int × Int :=
  let ends := (blocks.filter (0 < ·.1)).map fun (blockLength, displacement) =>
    (displacement, displacement + blockLength * extent)
  match ends with
  | [] => (0, 0)
  | first :: rest =>
    rest.foldl (fun (low, high) (lo, hi) => (min lo low, max hi high)) first

/-- When the blocks of an indexed type or a struct are taken to be contiguous. The displacements are
in bytes. -/
def blocksContig (blocks : List (Nat × Int)) (contig : Bool) : Bool :=
  if blocks.length = 1 then contig
  else blocks.all (fun (blockLength, displacement) => displacement = 1 ∧ blockLength = 1) && contig

/-- The bounds of an indexed type with displacements in bytes. `CkDDT_HIndexed` has bounds of its
own for an empty list of blocks. -/
def indexedBounds (blocks : List (Nat × Int)) (base : DataType) (empty : Bool) : Bounds :=
  let ⟨negativeExtent, positiveExtent⟩ := span base.extent blocks
  let extent := positiveExtent + -1 * negativeExtent
  ⟨if empty then 0 else base.bounds.lb + negativeExtent,
    if empty then 0 else base.bounds.lb + positiveExtent, extent,
    iscontigOf extent ((blocks.map (·.1)).sum * base.size) blocks.length
      (blocksContig blocks base.bounds.iscontig)⟩

/-- `CkDDT_HIndexed_Block`. -/
def newHIndexedBlock (blockLength : Nat) (displacements : List Int) (base : DataType) : DataType :=
  .hindexedBlock (indexedBounds (displacements.map (blockLength, ·)) base false) blockLength
    displacements base

/-- `CkDDT_Indexed_Block`. -/
def newIndexedBlock (blockLength : Nat) (displacements : List Int) (base : DataType) : DataType :=
  .indexedBlock (indexedBounds (displacements.map fun displacement =>
    (blockLength, displacement * base.extent)) base false) blockLength displacements base

/-- `CkDDT_HIndexed`. -/
def newHIndexed (blocks : List (Nat × Int)) (base : DataType) : DataType :=
  .hindexed (indexedBounds blocks base blocks.isEmpty) blocks base

/-- `CkDDT_Indexed`. -/
def newIndexed (blocks : List (Nat × Int)) (base : DataType) : DataType :=
  .indexed (indexedBounds (blocks.map fun (blockLength, displacement) =>
    (blockLength, displacement * base.extent)) base blocks.isEmpty) blocks base

/-- The conversion to `int`. -/
def toInt (n : Int) : Int := n.bmod 4294967296

/-- The bounds of a struct while its blocks are read; a bound that a marker has set is explicit. -/
structure Markers where
  lb : Int
  ub : Int
  explicitLb : Bool
  explicitUb : Bool

/-- The loop over the blocks of a struct. -/
def Markers.read (b : Markers) (m : Member) : Markers :=
  let xlb := m.type.bounds.lb + m.displacement
  let xub := m.displacement + m.blockLength * m.type.bounds.ub
  match m.type.mark with
  | .lower => { b with lb := if b.explicitLb then min xlb b.lb else xlb, explicitLb := true }
  | .upper => { b with ub := if b.explicitUb then max xub b.ub else xub, explicitUb := true }
  | .data =>
    { b with
      lb := if !b.explicitLb && xlb < b.lb then xlb else b.lb
      ub := if !b.explicitUb && xub > b.ub then xub else b.ub }

/-- `CkDDT_Struct`. The extent is rounded up to a multiple of the largest extent of a block, unless
a marker has set the upper bound. -/
def newStruct (members : Members) : DataType :=
  let blocks := members.toList
  let saveExtent := blocks.foldl (fun e m => if m.type.extent > e then toInt m.type.extent else e) 0
  let b := blocks.foldl Markers.read ⟨0, 0, false, false⟩
  let extent := b.ub - b.lb
  let extent :=
    if !b.explicitUb && saveExtent ≠ 0 && extent.tmod saveExtent ≠ 0 then
      extent + (saveExtent - extent.tmod saveExtent)
    else extent
  .struct ⟨b.lb, b.ub, extent, iscontigOf extent members.size blocks.length
    (blocksContig (blocks.map fun m => (m.blockLength, m.displacement))
      (blocks.all (·.type.bounds.iscontig)))⟩ members

/-- `createResized`: a copy with other bounds, which `setSize` takes to be contiguous if its extent
is its size and its base type is contiguous. -/
def createResized (type : DataType) (lb extent : Int) : DataType :=
  type.withBounds ⟨lb, lb + extent, extent,
    if extent ≠ type.size then false else type.base?.elim true (·.bounds.iscontig)⟩

/-! ## Type maps -/

/-- `num` elements, each a copy of `map`, at multiples of `extent`. -/
def repeated (map : List Int) (extent : Int) (num : Nat) : List Int :=
  (List.range num).flatMap fun (k : Nat) => map.map (k * extent + ·)

/-- Copies of `map` at displacements. -/
def spread (map : List Int) (displacements : List Int) : List Int :=
  displacements.flatMap fun d => map.map (d + ·)

mutual

/-- The displacements of the bytes of one element. -/
def typeMap : DataType → List Int
  | .basic _ _ size => (List.range size).map Int.ofNat
  | .contiguous _ count base => repeated (typeMap base) base.extent count
  | .vector _ count blockLength strideLength base =>
    spread (repeated (typeMap base) base.extent blockLength)
      ((List.range count).map fun (i : Nat) => i * (strideLength * base.extent))
  | .hvector _ count blockLength strideLength base =>
    spread (repeated (typeMap base) base.extent blockLength)
      ((List.range count).map fun (i : Nat) => i * strideLength)
  | .indexedBlock _ blockLength displacements base =>
    spread (repeated (typeMap base) base.extent blockLength) (displacements.map (base.extent * ·))
  | .hindexedBlock _ blockLength displacements base =>
    spread (repeated (typeMap base) base.extent blockLength) displacements
  | .indexed _ blocks base =>
    blocks.flatMap fun (blockLength, displacement) =>
      spread (repeated (typeMap base) base.extent blockLength) [base.extent * displacement]
  | .hindexed _ blocks base =>
    blocks.flatMap fun (blockLength, displacement) =>
      spread (repeated (typeMap base) base.extent blockLength) [displacement]
  | .struct _ members => membersMap members

/-- The blocks of a struct. -/
def membersMap : Members → List Int
  | .nil => []
  | .cons blockLength displacement type rest =>
    spread (repeated (typeMap type) type.extent blockLength) [displacement] ++ membersMap rest

end

/-- The displacements of the bytes of `num` consecutive elements. -/
def elements (type : DataType) (num : Nat) : List Int := repeated (typeMap type) type.extent num

/-! ## Parts -/

/-- Consecutive elements of a type within an element of a derived one. `offset` is where `serialize`
expects them, `place` is where the type map has them. -/
structure Part where
  type : DataType
  num : Nat
  offset : Int
  place : Int

/-- A part that is expected where it is. -/
def partAt (type : DataType) (num : Nat) (place : Int) : Part := ⟨type, num, place, place⟩

/-- The displacements of the elements of a block. -/
def blockOffsets (extent : Int) (blockLength : Nat) (displacement : Int) : List Int :=
  (List.range blockLength).map fun (j : Nat) => displacement + j * extent

/-- The same, as `CkDDT_Struct::serialize` computes it with variables of type `int`. -/
def structOffsets (extent : Int) (blockLength : Nat) (displacement : Int) : List Int :=
  (List.range blockLength).map fun (j : Nat) => displacement + toInt (j * toInt extent)

/-- The elements of a block of a struct. -/
def Member.parts (m : Member) : List Part :=
  (List.range m.blockLength).map fun (j : Nat) =>
    ⟨m.type, 1, m.displacement + toInt (j * toInt m.type.extent),
      m.displacement + j * m.type.extent⟩

/-- The calls that `serialize` makes for one element of a derived type. -/
def DataType.parts : DataType → List Part
  | .basic _ _ _ => []
  | .contiguous _ count base => [partAt base count 0]
  | .vector _ count blockLength strideLength base =>
    ((List.range count).map fun (i : Nat) => i * (strideLength * base.extent)).map
      (partAt base blockLength)
  | .hvector _ count blockLength strideLength base =>
    ((List.range count).map fun (i : Nat) => i * strideLength).map (partAt base blockLength)
  | .indexedBlock _ blockLength displacements base =>
    (displacements.flatMap fun d => blockOffsets base.extent blockLength (base.extent * d)).map
      (partAt base 1)
  | .hindexedBlock _ blockLength displacements base =>
    (displacements.flatMap fun d => blockOffsets base.extent blockLength d).map (partAt base 1)
  | .indexed _ blocks base =>
    (blocks.flatMap fun (blockLength, d) =>
      blockOffsets base.extent blockLength (base.extent * d)).map (partAt base 1)
  | .hindexed _ blocks base =>
    (blocks.flatMap fun (blockLength, d) => blockOffsets base.extent blockLength d).map
      (partAt base 1)
  | .struct _ members =>
    members.toList.flatMap Member.parts

/-- Whether a datatype is a basic one. -/
def DataType.IsBasic : DataType → Prop
  | .basic _ _ _ => True
  | _ => False

mutual

/-- What follows for a datatype from the same for its parts holds for all datatypes. -/
theorem DataType.induct_parts {P : DataType → Prop}
    (h : ∀ type : DataType, (∀ p ∈ type.parts, P p.type) → P type) : (type : DataType) → P type
  | .basic _ _ _ => h _ fun p hp => by simp [DataType.parts] at hp
  | .contiguous _ _ base => h _ fun p hp => by
    have hbase := DataType.induct_parts h base
    simp only [DataType.parts, mem_singleton] at hp
    rwa [hp]
  | .vector _ _ _ _ base | .hvector _ _ _ _ base | .indexedBlock _ _ _ base
  | .hindexedBlock _ _ _ base | .indexed _ _ base | .hindexed _ _ base => h _ fun p hp => by
    have hbase := DataType.induct_parts h base
    obtain ⟨_, -, rfl⟩ := mem_map.1 hp
    exact hbase
  | .struct _ members => h _ fun p hp => by
    have hmembers := Members.induct_parts h members
    obtain ⟨m, hm, hp⟩ := mem_flatMap.1 hp
    obtain ⟨_, -, rfl⟩ := mem_map.1 hp
    exact hmembers m hm

theorem Members.induct_parts {P : DataType → Prop}
    (h : ∀ type : DataType, (∀ p ∈ type.parts, P p.type) → P type) :
    (members : Members) → ∀ m ∈ members.toList, P m.type
  | .nil => fun m hm => by simp [Members.toList] at hm
  | .cons _ _ type rest => by
    have htype := DataType.induct_parts h type
    have hrest := Members.induct_parts h rest
    exact forall_mem_cons.2 ⟨htype, hrest⟩

end

/-! ## The type map of a derived type -/

section Maps

variable {map : List Int} {extent d : Int} {num : Nat} {ds : List Int}

theorem length_repeated : (repeated map extent num).length = num * map.length := by
  simp [repeated, length_flatMap]

@[simp]
theorem repeated_one : repeated map extent 1 = map := by
  simp [repeated]

/-- The elements of a block, one by one. -/
theorem spread_repeated : (repeated map extent num).map (d + ·) =
      (blockOffsets extent num d).flatMap fun o => map.map (o + ·) := by
  simp only [repeated, blockOffsets, map_flatMap, flatMap_map, map_map, Function.comp_def,
    Int.add_assoc]

theorem spread_eq_blocks : spread (repeated map extent num) ds =
      (ds.flatMap (blockOffsets extent num)).flatMap fun o => map.map (o + ·) := by
  rw [spread, flatMap_assoc]
  exact flatMap_congr fun d _ => spread_repeated

end Maps

/-- The displacements of the bytes of a part. -/
def Part.map (p : Part) : List Int := (elements p.type p.num).map (p.place + ·)

theorem map_partAt_one (base : DataType) (o : Int) :
    (partAt base 1 o).map = (typeMap base).map (o + ·) := by
  rw [Part.map, partAt, elements, repeated_one]

variable {base : DataType} {os : List Int}

theorem flatMap_partAt_one :
    (os.map (partAt base 1)).flatMap Part.map = os.flatMap fun o => (typeMap base).map (o + ·) := by
  rw [flatMap_map]
  exact flatMap_congr fun o _ => map_partAt_one base o

/-- A derived type consists of its parts. -/
theorem typeMap_eq : (type : DataType) → ¬type.IsBasic → typeMap type = type.parts.flatMap Part.map
  | .basic _ _ _, h => absurd trivial h
  | .contiguous _ _ _, _ => by simp [typeMap, DataType.parts, Part.map, partAt, elements]
  | .vector _ _ _ _ _, _ | .hvector _ _ _ _ _, _ => by
    simp [typeMap, DataType.parts, spread, flatMap_map, Part.map, partAt, elements]
  | .indexedBlock _ _ _ _, _ => by
    rw [typeMap, DataType.parts, flatMap_partAt_one, spread_eq_blocks, flatMap_map]
  | .hindexedBlock _ _ _ _, _ => by
    rw [typeMap, DataType.parts, flatMap_partAt_one, spread_eq_blocks]
  | .indexed _ _ _, _ | .hindexed _ _ _, _ => by
    rw [typeMap, DataType.parts, flatMap_partAt_one, flatMap_assoc]
    refine flatMap_congr fun ⟨_, _⟩ _ => ?_
    dsimp only
    rw [spread_eq_blocks, flatMap_singleton]
  | .struct _ members, _ => by
    exact membersMap_eq members
where
  membersMap_eq : (members : Members) →
      membersMap members = (members.toList.flatMap Member.parts).flatMap Part.map
    | .nil => rfl
    | .cons blockLength displacement type rest => by
      rw [membersMap, membersMap_eq rest, Members.toList, flatMap_cons, flatMap_append,
        spread_eq_blocks, flatMap_singleton, blockOffsets, Member.parts, flatMap_map,
        flatMap_map]
      congr 1
      refine flatMap_congr fun j _ => ?_
      rw [Part.map, elements, repeated_one]

/-! ## Sizes -/

/-- The number of bytes of a part. -/
def Part.size (p : Part) : Nat := p.num * p.type.size

theorem sum_map_of_const {α : Type} (f : α → Nat) {c : Nat} (l : List α) (h : ∀ x, f x = c) :
    (l.map f).sum = l.length * c := by
  induction l with
  | nil => simp
  | cons x l ih => rw [map_cons, sum_cons, ih, h, length_cons, Nat.succ_mul, Nat.add_comm]

variable {num : Nat}

theorem sum_size_partAt :
    ((os.map (partAt base num)).map Part.size).sum = os.length * (num * base.size) := by
  rw [map_map]
  exact sum_map_of_const _ os fun _ => rfl

theorem sum_size_member (m : Member) : (m.parts.map Part.size).sum =
    m.blockLength * m.type.size := by
  rw [Member.parts, map_map]
  refine (sum_map_of_const _ _ fun _ => Nat.one_mul m.type.size).trans ?_
  rw [length_range]

variable {extent : Int}

@[simp]
theorem length_blockOffsets (d : Int) : (blockOffsets extent num d).length = num := by
  simp [blockOffsets]

/-- The size of a derived type is that of its parts. -/
theorem size_eq : (type : DataType) → ¬type.IsBasic → type.size = (type.parts.map Part.size).sum
  | .basic _ _ _, h => absurd trivial h
  | .contiguous _ _ _, _ => by simp [DataType.size, DataType.parts, Part.size, partAt]
  | .vector _ _ _ _ _, _ | .hvector _ _ _ _ _, _ => by
    rw [DataType.parts, sum_size_partAt, List.length_map, length_range, DataType.size,
      Nat.mul_assoc]
  | .indexedBlock _ _ _ _, _ | .hindexedBlock _ _ _ _, _ => by
    rw [DataType.parts, sum_size_partAt, length_flatMap]
    simp [DataType.size, Nat.mul_assoc]
  | .indexed _ _ _, _ | .hindexed _ _ _, _ => by
    rw [DataType.parts, sum_size_partAt, length_flatMap, DataType.size, Nat.one_mul]
    congr 2
    exact map_congr_left fun _ _ => (length_blockOffsets _).symm
  | .struct _ members, _ => by
    exact members_size_eq members
where
  members_size_eq : (members : Members) →
      members.size = ((members.toList.flatMap Member.parts).map Part.size).sum
    | .nil => rfl
    | .cons blockLength displacement type rest => by
      rw [Members.size, members_size_eq rest, Members.toList, flatMap_cons, map_append,
        sum_append, sum_size_member]

theorem length_typeMap (type : DataType) : (typeMap type).length = type.size := by
  induction type using DataType.induct_parts with
  | h type ih =>
    by_cases hbasic : type.IsBasic
    · cases type <;> simp [DataType.IsBasic] at hbasic
      simp [typeMap, DataType.size]
    · rw [typeMap_eq type hbasic, size_eq type hbasic, length_flatMap]
      congr 1
      refine map_congr_left fun p hp => ?_
      rw [Part.map, List.length_map, elements, length_repeated, ih p hp, Part.size]

@[simp]
theorem length_elements (type : DataType) (num : Nat) :
    (elements type num).length = num * type.size := by
  rw [elements, length_repeated, length_typeMap]

/-! ## Several elements -/

/-- A part of a later element. -/
def Part.shift (d : Int) (p : Part) : Part :=
  { p with offset := d + p.offset, place := d + p.place }

/-- The parts of `num` consecutive elements. -/
def DataType.partsFor (type : DataType) : Nat → List Part
  | 0 => []
  | num + 1 => type.parts ++ (type.partsFor num).map (Part.shift type.extent)

theorem repeated_succ (map : List Int) :
    repeated map extent (num + 1) = map ++ (repeated map extent num).map (extent + ·) := by
  rw [repeated, range_succ_eq_map, flatMap_cons, flatMap_map, repeated, map_flatMap]
  congr 1
  · simp
  · refine flatMap_congr fun k _ => ?_
    rw [map_map]
    refine map_congr_left fun x _ => ?_
    simp only [Function.comp_apply, Nat.cast_succ, Int.add_mul, Int.one_mul]
    omega

theorem map_shift (d : Int) (p : Part) : (p.shift d).map = p.map.map (d + ·) := by
  rw [Part.map, Part.map, map_map]
  exact map_congr_left fun x _ => Int.add_assoc d p.place x

/-- Consecutive elements of a derived type consist of their parts. -/
theorem elements_eq {type : DataType} (h : ¬type.IsBasic) :
    elements type num = (type.partsFor num).flatMap Part.map := by
  induction num with
  | zero => rfl
  | succ num ih =>
    rw [elements, repeated_succ, ← elements, ih, typeMap_eq type h, DataType.partsFor,
      flatMap_append, map_flatMap, flatMap_map]
    congr 1
    exact flatMap_congr fun p _ => (map_shift type.extent p).symm

theorem sum_size_partsFor {type : DataType} (h : ¬type.IsBasic) (num : Nat) :
    ((type.partsFor num).map Part.size).sum = num * type.size := by
  induction num with
  | zero => simp [DataType.partsFor]
  | succ num ih =>
    have hshift : ((type.partsFor num).map (Part.shift type.extent)).map Part.size =
        (type.partsFor num).map Part.size := by
      rw [map_map]
      rfl
    rw [DataType.partsFor, map_append, sum_append, hshift, ih, ← size_eq type h, Nat.succ_mul,
      Nat.add_comm]

/-- The parts of several elements are of the same types as those of one. -/
theorem exists_of_mem_partsFor {type : DataType} {num : Nat} {p : Part}
    (h : p ∈ type.partsFor num) : ∃ q ∈ type.parts, q.type = p.type ∧ q.num = p.num ∧
    q.offset - q.place = p.offset - p.place := by
  induction num generalizing p with
  | zero => simp [DataType.partsFor] at h
  | succ num ih =>
    rcases mem_append.1 h with h | h
    · exact ⟨p, h, rfl, rfl, rfl⟩
    · obtain ⟨p', hp', rfl⟩ := mem_map.1 h
      obtain ⟨q, hq, htype, hnum, hdiff⟩ := ih hp'
      refine ⟨q, hq, htype, hnum, ?_⟩
      simp only [Part.shift]
      omega

end CharmRuntime.TypeMap
