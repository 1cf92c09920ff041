import CharmRuntime.TypeMap.Layout

/-!
# Packing and unpacking

The member functions `serialize` of the datatypes. The two directions differ only in
`serializeContig`, so the model gives the pieces of memory that are copied, in order, and `Copy.run`
copies them one way or the other. Besides, `serialize` gives the number of bytes that it returns,
and the remaining lengths that it has passed to the functions of other datatypes. Sizes are below 2
^ 31, so that `int` and `size_t` hold the same numbers; a negative length is a huge `size_t`.
Reading past the end of an array gives no result.

All derived types go through their parts in the same way (`serialize_eq`).
-/

set_option autoImplicit false

namespace CharmRuntime.TypeMap

open List

/-! ## Copies -/

/-- A call of `serializeContig`. -/
structure Copy where
  user : Int
  buffer : Int
  size : Nat
  deriving DecidableEq

/-- What `serialize` does: its copies, its result and the lengths that it passes on. -/
structure Outcome where
  copies : List Copy
  bytes : Int
  lengths : List Int
  deriving DecidableEq

/-- `std::min(bytes, (size_t)msgLength)`. -/
def clamp (bytes : Nat) (msgLength : Int) : Nat :=
  if msgLength < 0 then bytes else min bytes msgLength.toNat

/-! ## Loops -/

/-- Calls one after the other, each with the length that the others have left, until nothing is
left. -/
def inTurn : List (Int → Option Outcome) → Int → Option Outcome
  | [], _ => some ⟨[], 0, []⟩
  | call :: calls, msgLength =>
    (call msgLength).bind fun o =>
      if msgLength - o.bytes = 0 then some { o with lengths := msgLength :: o.lengths }
      else
        (inTurn calls (msgLength - o.bytes)).map fun o' =>
          ⟨o.copies ++ o'.copies, o.bytes + o'.bytes, msgLength :: o.lengths ++ o'.lengths⟩

/-- The loop of `CkDDT_Struct`, which asks before each call whether something is left. -/
def inTurnIfLeft : List (Int → Option Outcome) → Int → Option Outcome
  | [], _ => some ⟨[], 0, []⟩
  | call :: calls, msgLength =>
    if msgLength = 0 then some ⟨[], 0, []⟩
    else
      (call msgLength).bind fun o =>
        (inTurnIfLeft calls (msgLength - o.bytes)).map fun o' =>
          ⟨o.copies ++ o'.copies, o.bytes + o'.bytes, msgLength :: o.lengths ++ o'.lengths⟩

/-- The function `serialize` of a datatype: user data, buffer, number of elements, length. -/
abbrev Serializer : Type := Int → Int → Nat → Int → Option Outcome

/-- The calls for elements at offsets, which are next to each other in the buffer. -/
def callsAt (f : Serializer) (num step : Nat) (user : Int) : List Int → Int →
    List (Int → Option Outcome)
  | [], _ => []
  | offset :: offsets, buffer =>
    f (user + offset) buffer num :: callsAt f num step user offsets (buffer + step)

/-- The calls for `num` elements of a derived type. -/
def callsPerElement (extent : Int) (size : Nat) (calls : Int → Int → List (Int → Option Outcome)) :
    Nat → Int → Int → List (Int → Option Outcome)
  | 0, _, _ => []
  | num + 1, user, buffer =>
    calls user buffer ++ callsPerElement extent size calls num (user + extent) (buffer + size)

/-! ## Basic types and contiguous data -/

/-- The loop of `CkDDT_DataType::serialize` over elements that are not contiguous, with what it
leaves of `bufSize`. -/
def basicLoop (extent : Int) (size : Nat) : Nat → Int → Int → Nat → List Copy × Nat
  | 0, _, _, bufSize => ([], bufSize)
  | num + 1, user, buffer, bufSize =>
    if bufSize < size then ([], bufSize)
    else
      let ⟨copies, rest⟩ :=
        basicLoop extent size num (user + extent) (buffer + size) (bufSize - size)
      (⟨user, buffer, size⟩ :: copies, rest)

/-- `CkDDT_DataType::serialize`. -/
def serializeBasic (bounds : Bounds) (size : Nat) (user buffer : Int) (num : Nat)
    (msgLength : Int) : Outcome :=
  let bufSize := clamp (num * size) msgLength
  if bounds.iscontig then ⟨[⟨user, buffer, bufSize⟩], bufSize, []⟩
  else
    let ⟨copies, rest⟩ := basicLoop bounds.extent size num user buffer bufSize
    ⟨copies, msgLength - rest, []⟩

/-- The branch of a derived type that is taken to be contiguous. -/
def shortcut (bytes : Nat) (user buffer msgLength : Int) : Outcome :=
  ⟨[⟨user, buffer, clamp bytes msgLength⟩], bytes, []⟩

/-- The number of bytes that a derived type copies there for `num` elements. -/
def DataType.shortcutBytes (num : Nat) : DataType → Option Nat
  | .basic _ _ size => some (num * size)
  | .contiguous _ count base => some (num * count * base.size)
  | .vector _ count blockLength _ base | .hvector _ count blockLength _ base =>
    some (num * count * blockLength * base.size)
  | .indexedBlock _ blockLength displacements base
  | .hindexedBlock _ blockLength displacements base =>
    some (num * displacements.length * blockLength * base.size)
  | .indexed _ blocks base => blocks[1]?.map fun block => num * blocks.length * block.1 * base.size
  | .hindexed _ blocks base => blocks[0]?.map fun block => num * blocks.length * block.1 * base.size
  | .struct _ members =>
    match members.toList with
    | [] => some 0
    | first :: rest =>
      some ((first :: rest).map fun m => num * first.blockLength * m.type.size).sum

/-! ## `serialize` -/

mutual

/-- `serialize`. -/
def serialize : DataType → Serializer
  | .basic bounds _ size, user, buffer, num, msgLength =>
    some (serializeBasic bounds size user buffer num msgLength)
  | .contiguous bounds count base, user, buffer, num, msgLength =>
    if bounds.iscontig then
      ((DataType.contiguous bounds count base).shortcutBytes num).map
        (shortcut · user buffer msgLength)
    else
      inTurn (callsPerElement bounds.extent (count * base.size) (fun user buffer =>
        callsAt (serialize base) count (count * base.size) user [0] buffer) num user buffer)
          msgLength
  | .vector bounds count blockLength strideLength base, user, buffer, num, msgLength =>
    if bounds.iscontig then
      ((DataType.vector bounds count blockLength strideLength base).shortcutBytes num).map
        (shortcut · user buffer msgLength)
    else
      inTurn (callsPerElement bounds.extent (count * blockLength * base.size) (fun user buffer =>
        callsAt (serialize base) blockLength (blockLength * base.size) user
          ((List.range count).map fun (i : Nat) => i * (strideLength * base.extent)) buffer)
        num user buffer) msgLength
  | .hvector bounds count blockLength strideLength base, user, buffer, num, msgLength =>
    if bounds.iscontig then
      ((DataType.hvector bounds count blockLength strideLength base).shortcutBytes num).map
        (shortcut · user buffer msgLength)
    else
      inTurn (callsPerElement bounds.extent (count * blockLength * base.size) (fun user buffer =>
        callsAt (serialize base) blockLength (blockLength * base.size) user
          ((List.range count).map fun (i : Nat) => i * strideLength) buffer) num user buffer)
            msgLength
  | .indexedBlock bounds blockLength displacements base, user, buffer, num, msgLength =>
    if bounds.iscontig then
      ((DataType.indexedBlock bounds blockLength displacements base).shortcutBytes num).map
        (shortcut · user buffer msgLength)
    else
      inTurn (callsPerElement bounds.extent (displacements.length * (blockLength * base.size))
        (fun user buffer => callsAt (serialize base) 1 base.size user
          (displacements.flatMap fun d => blockOffsets base.extent blockLength (base.extent * d))
            buffer)
        num user buffer) msgLength
  | .hindexedBlock bounds blockLength displacements base, user, buffer, num, msgLength =>
    if bounds.iscontig then
      ((DataType.hindexedBlock bounds blockLength displacements base).shortcutBytes num).map
        (shortcut · user buffer msgLength)
    else
      inTurn (callsPerElement bounds.extent (displacements.length * (blockLength * base.size))
        (fun user buffer => callsAt (serialize base) 1 base.size user
          (displacements.flatMap fun d => blockOffsets base.extent blockLength d) buffer)
        num user buffer) msgLength
  | .indexed bounds blocks base, user, buffer, num, msgLength =>
    if bounds.iscontig then
      ((DataType.indexed bounds blocks base).shortcutBytes num).map
        (shortcut · user buffer msgLength)
    else
      inTurn (callsPerElement bounds.extent ((blocks.map (·.1)).sum * base.size) (fun user buffer =>
        callsAt (serialize base) 1 base.size user (blocks.flatMap fun (blockLength, d) =>
          blockOffsets base.extent blockLength (base.extent * d)) buffer) num user buffer) msgLength
  | .hindexed bounds blocks base, user, buffer, num, msgLength =>
    if bounds.iscontig then
      ((DataType.hindexed bounds blocks base).shortcutBytes num).map
        (shortcut · user buffer msgLength)
    else
      inTurn (callsPerElement bounds.extent ((blocks.map (·.1)).sum * base.size) (fun user buffer =>
        callsAt (serialize base) 1 base.size user (blocks.flatMap fun (blockLength, d) =>
          blockOffsets base.extent blockLength d) buffer) num user buffer) msgLength
  | .struct bounds members, user, buffer, num, msgLength =>
    if bounds.iscontig then
      ((DataType.struct bounds members).shortcutBytes num).map (shortcut · user buffer msgLength)
    else
      inTurnIfLeft (callsPerElement bounds.extent members.size (memberCalls members) num
        user buffer)
        msgLength

/-- The calls for the blocks of a struct. -/
def memberCalls : Members → Int → Int → List (Int → Option Outcome)
  | .nil, _, _ => []
  | .cons blockLength displacement type rest, user, buffer =>
    callsAt (serialize type) 1 type.size user
      (structOffsets type.extent blockLength displacement) buffer ++
      memberCalls rest user (buffer + (blockLength * type.size : Nat))

end

/-! ## Derived types and their parts -/

/-- The calls for parts that are next to each other in the buffer. -/
def partCalls : List Part → Int → Int → List (Int → Option Outcome)
  | [], _, _ => []
  | p :: ps, user, buffer =>
    serialize p.type (user + p.offset) buffer p.num :: partCalls ps user (buffer + p.size)

variable {ps : List Part} {user buf : Int}

theorem partCalls_append (qs : List Part) : partCalls (ps ++ qs) user buf =
      partCalls ps user buf ++ partCalls qs user (buf + (ps.map Part.size).sum) := by
  induction ps generalizing buf with
  | nil => simp [partCalls]
  | cons p ps ih =>
    rw [cons_append, partCalls, partCalls, ih, map_cons, sum_cons, Nat.cast_add, add_assoc]
    rfl

theorem partCalls_shift (d : Int) :
    partCalls (ps.map (Part.shift d)) user buf = partCalls ps (user + d) buf := by
  induction ps generalizing buf with
  | nil => rfl
  | cons p ps ih =>
    rw [map_cons, partCalls, partCalls, ih, add_assoc]
    rfl

variable {base : DataType} {os : List Int}

theorem callsAt_eq (num : Nat) : callsAt (serialize base) num (num * base.size) user os buf =
      partCalls (os.map (partAt base num)) user buf := by
  induction os generalizing buf with
  | nil => rfl
  | cons o os ih =>
    rw [callsAt, map_cons, partCalls, ih]
    rfl

theorem callsAt_one_eq : callsAt (serialize base) 1 base.size user os buf =
      partCalls (os.map (partAt base 1)) user buf := by
  rw [← callsAt_eq, one_mul]

/-- The calls for all elements are those for their parts. -/
theorem callsPerElement_eq {type : DataType} (h : ¬type.IsBasic)
    {calls : Int → Int → List (Int → Option Outcome)}
    (hcalls : ∀ user buf, calls user buf = partCalls type.parts user buf) (num : Nat)
    (user buf : Int) : callsPerElement type.extent type.size calls num user buf =
      partCalls (type.partsFor num) user buf := by
  induction num generalizing user buf with
  | zero => rfl
  | succ num ih =>
    rw [callsPerElement, ih, hcalls, DataType.partsFor, partCalls_append, partCalls_shift,
      size_eq type h]

/-- The calls for the elements of a block of a struct. -/
theorem callsAt_structOffsets (m : Member) : callsAt (serialize m.type) 1 m.type.size user
        (structOffsets m.type.extent m.blockLength m.displacement) buf =
      partCalls m.parts user buf := by
  rw [structOffsets, Member.parts]
  induction List.range m.blockLength generalizing buf with
  | nil => rfl
  | cons j js ih =>
    rw [map_cons, map_cons, callsAt, partCalls, ih, Part.size, one_mul]

theorem memberCalls_eq : (members : Members) → (user buf : Int) →
    memberCalls members user buf = partCalls (members.toList.flatMap Member.parts) user buf
  | .nil, _, _ => rfl
  | .cons blockLength displacement type rest, user, buf => by
    rw [memberCalls, memberCalls_eq rest, Members.toList, flatMap_cons, partCalls_append,
      sum_size_member, ← callsAt_structOffsets]

/-- The loop of a struct is that of the other types, after asking whether anything is left at
all. -/
theorem inTurnIfLeft_eq (calls : List (Int → Option Outcome)) (msgLength : Int) :
    inTurnIfLeft calls msgLength =
      if msgLength = 0 then some ⟨[], 0, []⟩ else inTurn calls msgLength := by
  induction calls generalizing msgLength with
  | nil => simp [inTurnIfLeft, inTurn]
  | cons call calls ih =>
    rw [inTurnIfLeft]
    split
    · rfl
    · congr 1
      funext o
      rw [ih]
      split
      · simp
      · rfl

/-- Whether a datatype is a struct. -/
def DataType.isStruct : DataType → Bool
  | .struct _ _ => true
  | _ => false

section Serialize

variable {type : DataType} (user buf : Int) (num : Nat) (msgLength : Int)

/-- What `serialize` does with a derived type that is taken to be contiguous. -/
theorem serialize_shortcut (h : ¬type.IsBasic) (hcontig : type.bounds.iscontig = true) :
    serialize type user buf num msgLength =
      (type.shortcutBytes num).map (shortcut · user buf msgLength) := by
  cases type <;> simp only [DataType.bounds] at hcontig
  case basic => exact absurd trivial h
  all_goals rw [serialize, if_pos hcontig]

/-- What `serialize` does with the other derived types: it goes through the parts. -/
theorem serialize_parts (h : ¬type.IsBasic) (hcontig : type.bounds.iscontig = false) :
    serialize type user buf num msgLength =
      if type.isStruct = true ∧ msgLength = 0 then some ⟨[], 0, []⟩
      else inTurn (partCalls (type.partsFor num) user buf) msgLength := by
  cases type <;> simp only [DataType.bounds] at hcontig
  case basic => exact absurd trivial h
  case struct bounds members =>
    rw [serialize, if_neg (by simp [hcontig]), inTurnIfLeft_eq]
    simp only [DataType.isStruct, true_and]
    rw [← callsPerElement_eq h fun _ _ => memberCalls_eq members _ _]
    rfl
  all_goals
    rw [serialize, if_neg (by simp [hcontig]), if_neg (by simp [DataType.isStruct])]
    refine congrArg (inTurn · msgLength) (callsPerElement_eq h (fun _ _ => ?_) num user buf)
  case contiguous => exact callsAt_eq _
  case vector => exact callsAt_eq _
  case hvector => exact callsAt_eq _
  all_goals exact callsAt_one_eq

end Serialize

end CharmRuntime.TypeMap
