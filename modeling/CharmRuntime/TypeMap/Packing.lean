import CharmRuntime.TypeMap.Serialize
import CharmRuntime.Lib.Moves
import Mathlib.Algebra.BigOperators.Ring.List

/-!
# Messages of the full length

`serialize` is right for a number of elements if it moves their bytes between the displacements of
the type map and consecutive places of the buffer, and returns their number (`Right`). Three things
can go wrong. The branch for contiguous data copies from the first address on, whatever the
displacements of a single block are, and also after `createResized` has only made the extent equal
to the size. A basic type whose extent was changed returns the whole length that is left, so that
nothing after it is copied. And the loop of a struct computes offsets with `int`.

`Sound` says that none of this matters for a datatype, a number of elements and the length left.
Then `serialize` is right; and for datatypes whose offsets and sizes are computed right, only then
(`right_iff_sound`). The constructors make such datatypes (`Constructed.regular`).
-/

set_option autoImplicit false

namespace CharmRuntime.TypeMap

open Lib.Moves List Option

/-! ## What is expected -/

/-- The bytes that a copy moves. -/
def Copy.moves (c : Copy) : List Move :=
  (List.range c.size).map fun (i : Nat) => (c.user + i, c.buffer + i)

/-- The bytes that are moved. -/
def Outcome.moves (o : Outcome) : List Move := o.copies.flatMap Copy.moves

/-- `serialize` packs and unpacks `num` elements as the type map says, and returns their size. -/
def Right (type : DataType) (num : Nat) : Prop :=
  ∀ user buffer : Int, ∃ o, serialize type user buffer num (num * type.size : Nat) = some o ∧
    o.bytes = (num * type.size : Nat) ∧
    ∀ mem buf : Int → UInt8,
      pack o.moves mem buf = pack (pairs (elements type num) user buffer) mem buf ∧
      unpack o.moves mem buf = unpack (pairs (elements type num) user buffer) mem buf

/-- The bytes of `num` elements are consecutive from the first address on, and the branch for
contiguous data has their number right. -/
def Straight (type : DataType) (num : Nat) : Prop :=
  type.shortcutBytes num = some (num * type.size) ∧
    elements type num = (List.range (num * type.size)).map Int.ofNat

mutual

/-- `serialize` is right for `num` elements when `length` bytes are left. -/
inductive Sound : DataType → Nat → Nat → Prop
  | straight {type : DataType} {num length : Nat} (hcontig : type.bounds.iscontig = true)
      (h : Straight type num) : Sound type num length
  | basic {type : DataType} {num length : Nat} (hbasic : type.IsBasic)
      (hcontig : type.bounds.iscontig = false) (hlength : length = num * type.size) :
      Sound type num length
  | nothing {type : DataType} {num : Nat} (hderived : ¬type.IsBasic)
      (hcontig : type.bounds.iscontig = false) (hstruct : type.isStruct = true) : Sound type num 0
  | parts {type : DataType} {num length : Nat} (hderived : ¬type.IsBasic)
      (hcontig : type.bounds.iscontig = false) (h : SoundInTurn (type.partsFor num) length) :
      Sound type num length

/-- The same for parts one after the other, until nothing is left. -/
inductive SoundInTurn : List Part → Nat → Prop
  | nil {length : Nat} : SoundInTurn [] length
  | last {p : Part} {ps : List Part} {length : Nat} (h : Sound p.type p.num length)
      (hplace : p.size = 0 ∨ p.offset = p.place) (hlength : length = p.size) :
      SoundInTurn (p :: ps) length
  | cons {p : Part} {ps : List Part} {length : Nat} (h : Sound p.type p.num length)
      (hplace : p.size = 0 ∨ p.offset = p.place) (hlength : p.size < length)
      (hps : SoundInTurn ps (length - p.size)) : SoundInTurn (p :: ps) length

end

/-! ## Basic types and contiguous data -/

variable {type : DataType} {len num : Nat} {ps : List Part} {user buffer : Int}

section Leaves

variable {type : DataType} {num size bytes rest : Nat} {user buffer extent : Int} {bounds : Bounds}

variable {m : Nat}

theorem clamp_of_le (h : bytes ≤ m) : clamp bytes m = bytes := by
  rw [clamp, if_neg (by omega), Int.toNat_natCast, Nat.min_eq_left h]

theorem clamp_of_ge (h : m ≤ bytes) : clamp bytes m = m := by
  rw [clamp, if_neg (by omega), Int.toNat_natCast, Nat.min_eq_right h]

theorem moves_shortcut (h : bytes ≤ m) :
    (shortcut bytes user buffer m).moves = pairs
    ((List.range bytes).map Int.ofNat) user buffer := by
  rw [pairs_range, shortcut, Outcome.moves, flatMap_singleton, Copy.moves, clamp_of_le h]

/-- The loop over elements of a basic type copies those that fit. -/
theorem basicLoop_spec (user buffer : Int) :
    (basicLoop extent size num user buffer bytes).1.flatMap Copy.moves =
        pairs ((repeated ((List.range size).map Int.ofNat) extent num).take
          (whole (replicate num size) bytes)) user buffer ∧
      (basicLoop extent size num user buffer bytes).2 = bytes - whole
      (replicate num size) bytes := by
  induction num generalizing user buffer bytes with
  | zero => simp [basicLoop, repeated, pairs, whole]
  | succ num ih =>
    rw [basicLoop, replicate_succ, whole]
    split
    case isTrue hlt =>
      rw [if_neg (not_le.2 hlt)]
      exact ⟨rfl, rfl⟩
    case isFalse hle =>
      obtain ⟨hmoves, hrest⟩ := @ih (bytes - size) (user + extent) (buffer + size)
      have hlen : ((List.range size).map Int.ofNat).length = size := by simp
      rw [if_pos (not_lt.1 hle)]
      refine ⟨?_, by rw [hrest, Nat.sub_sub]⟩
      rw [flatMap_cons, hmoves, repeated_succ]
      have htake (n : Nat) (l : List Int) : ((List.range size).map Int.ofNat ++ l).take (size + n) =
          (List.range size).map Int.ofNat ++ l.take n := by
        rw [take_append, hlen, Nat.add_sub_cancel_left, take_of_length_le (by omega)]
      rw [htake, pairs_append, ← map_take, pairs_map_add, pairs_range, hlen]
      rfl

theorem serializeBasic_contig (hcontig : bounds.iscontig = true) (h : num * size ≤ m) :
    serializeBasic bounds size user buffer num m = shortcut (num * size) user buffer m := by
  rw [serializeBasic, shortcut, clamp_of_le h, if_pos hcontig]

/-- The branch for contiguous data, when its number of bytes is right. -/
theorem serialize_contig (user buffer : Int) (hcontig : type.bounds.iscontig = true)
    (hbytes : type.shortcutBytes num = some (num * type.size)) (hle : num * type.size ≤ len) :
    serialize type user buffer num len = some (shortcut (num * type.size) user buffer len) := by
  by_cases hbasic : type.IsBasic
  · cases type <;> simp only [DataType.IsBasic] at hbasic
    exact congrArg some (serializeBasic_contig hcontig hle)
  · rw [serialize_shortcut _ _ _ _ hbasic hcontig, hbytes]
    rfl

/-- Elements of a basic type that are not contiguous are copied, but the result is the whole
length. -/
theorem serializeBasic_spread (user buffer : Int) (hcontig : bounds.iscontig = false)
    (h : num * size ≤ m) : (serializeBasic bounds size user buffer num m).bytes = m ∧
      (serializeBasic bounds size user buffer num m).moves =
        pairs (repeated ((List.range size).map Int.ofNat) bounds.extent num) user buffer := by
  have hwhole : whole (replicate num size) (num * size) = num * size :=
    whole_replicate_of_dvd le_rfl (Nat.dvd_mul_left size num)
  obtain ⟨hmoves, hrest⟩ := @basicLoop_spec num size (num * size) bounds.extent user buffer
  rw [hwhole] at hmoves hrest
  rw [serializeBasic, if_neg (by simp [hcontig]), clamp_of_le h]
  refine ⟨?_, ?_⟩
  · dsimp only
    rw [hrest, Nat.sub_self, Nat.cast_zero, Int.sub_zero]
  · rw [Outcome.moves, hmoves, take_of_length_le (by simp [length_repeated])]

end Leaves

/-! ## The condition is sufficient -/

/-- What `serialize` does when it is right. -/
def Moves (type : DataType) (user buffer : Int) (num length : Nat) : Prop :=
  ∃ o, serialize type user buffer num length = some o ∧ o.bytes = (num * type.size : Nat) ∧
    o.moves = pairs (elements type num) user buffer

theorem Part.length_map (p : Part) : p.map.length = p.size := by
  rw [Part.map, List.length_map, length_elements, Part.size]

theorem length_flatMap_map (ps : List Part) :
    (ps.flatMap Part.map).length = (ps.map Part.size).sum := by
  rw [length_flatMap]
  exact congrArg List.sum (map_congr_left fun p _ => p.length_map)

/-- A part is moved to where the type map has it. -/
theorem pairs_part {p : Part} (h : p.size = 0 ∨ p.offset = p.place) (user buffer : Int) :
    pairs (elements p.type p.num) (user + p.offset) buffer = pairs p.map user buffer := by
  rw [Part.map, pairs_map_add]
  rcases h with hzero | hplace
  · have hnil : elements p.type p.num = [] := eq_nil_of_length_eq_zero (by rwa [length_elements])
    rw [hnil]
    rfl
  · rw [hplace]

theorem Outcome.moves_mk_append (o o' : Outcome) (bytes : Int) (lengths : List Int) :
    (Outcome.mk (o.copies ++ o'.copies) bytes lengths).moves = o.moves ++ o'.moves :=
  flatMap_append

/-- Parts one after the other. -/
theorem SoundInTurn.moves (h : SoundInTurn ps len)
    (hps : ∀ p ∈ ps, ∀ user buffer len, Sound p.type p.num len → p.size ≤ len →
      Moves p.type user buffer p.num len) (hle : (ps.map Part.size).sum ≤ len)
    (user buffer : Int) : ∃ o, inTurn (partCalls ps user buffer) len = some o ∧
      o.bytes = ((ps.map Part.size).sum : Nat) ∧ o.moves = pairs
      (ps.flatMap Part.map) user buffer := by
  induction ps generalizing len buffer with
  | nil => exact ⟨_, rfl, rfl, rfl⟩
  | cons p ps ih =>
    rw [map_cons, sum_cons] at hle
    rw [map_cons, sum_cons, flatMap_cons, pairs_append, partCalls, inTurn, Part.length_map]
    cases h with
    | last hsound hplace hlen =>
      -- Nothing is left, and the other parts are empty.
      obtain ⟨o, ho, hbytes, hmoves⟩ :=
        hps p mem_cons_self (user + p.offset) buffer len hsound (by omega)
      have hzero : (ps.map Part.size).sum = 0 := by omega
      have hnil : ps.flatMap Part.map = [] :=
        eq_nil_of_length_eq_zero (by rw [length_flatMap_map, hzero])
      have hbytes' : o.bytes = p.size := hbytes
      rw [ho, bind_some, if_pos (by omega)]
      refine ⟨_, rfl, by rw [hzero]; exact hbytes', ?_⟩
      rw [hnil, pairs, append_nil, ← pairs_part hplace]
      exact hmoves
    | cons hsound hplace hlen hrest =>
      obtain ⟨o, ho, hbytes, hmoves⟩ :=
        hps p mem_cons_self (user + p.offset) buffer len hsound (by omega)
      obtain ⟨o', ho', hbytes', hmoves'⟩ := ih hrest
        (fun q hq => hps q (mem_cons_of_mem p hq)) (by omega) (buffer + p.size)
      have hbytes1 : o.bytes = p.size := hbytes
      have hleft : (len : Int) - o.bytes = (len - p.size : Nat) := by omega
      rw [ho, bind_some, if_neg (by omega), hleft, ho']
      refine ⟨_, rfl, ?_, ?_⟩
      · simp only [hbytes1, hbytes']
        omega
      · rw [Outcome.moves_mk_append, hmoves, hmoves', pairs_part hplace]

/-- Nothing is moved when there is nothing to move. -/
theorem moves_of_nothing (hder : ¬type.IsBasic) (hcontig : type.bounds.iscontig = false)
    (hstr : type.isStruct = true) (hle : num * type.size ≤ 0) (user buffer : Int) :
    Moves type user buffer num 0 := by
  have hzero : num * type.size = 0 := Nat.le_zero.1 hle
  have hnil : elements type num = [] :=
    eq_nil_of_length_eq_zero ((length_elements type num).trans hzero)
  refine ⟨⟨[], 0, []⟩, ?_, by rw [hzero]; rfl, by rw [hnil]; rfl⟩
  rw [serialize_parts _ _ _ _ hder hcontig, if_pos ⟨hstr, rfl⟩]

/-- `serialize` is right where the condition holds. -/
theorem Sound.moves (type : DataType) : ∀ (user buffer : Int) (num len : Nat),
    Sound type num len → num * type.size ≤ len → Moves type user buffer num len := by
  induction type using DataType.induct_parts with
  | h type ih =>
    intro user buffer num len h hle
    cases h with
    | straight hcontig h =>
      exact ⟨_, serialize_contig user buffer hcontig h.1 hle, rfl, by rw [moves_shortcut hle, h.2]⟩
    | basic hbasic hcontig hlen =>
      cases type <;> simp only [DataType.IsBasic] at hbasic
      obtain ⟨hbytes, hmoves⟩ := serializeBasic_spread user buffer hcontig hle
      exact ⟨_, rfl, by rw [← hlen]; exact hbytes, hmoves⟩
    | nothing hder hcontig hstr => exact moves_of_nothing hder hcontig hstr hle user buffer
    | parts hder hcontig h =>
      by_cases hstr : type.isStruct = true ∧ (len : Int) = 0
      · obtain ⟨hstr, hzero⟩ := hstr
        obtain rfl : len = 0 := by omega
        exact moves_of_nothing hder hcontig hstr hle user buffer
      · have hsum := sum_size_partsFor hder num
        obtain ⟨o, ho, hbytes, hmoves⟩ := h.moves (fun p hp => by
          obtain ⟨q, hq, htype, -⟩ := exists_of_mem_partsFor hp
          intro user buffer len
          have hq := ih q hq user buffer p.num len
          rwa [htype] at hq) (by rw [hsum]; exact hle) user buffer
        refine ⟨o, ?_, ?_, ?_⟩
        · rw [serialize_parts _ _ _ _ hder hcontig, if_neg hstr, ho]
        · rw [hbytes, hsum]
        · rw [hmoves, elements_eq hder]

/-! ## The condition is necessary -/

/-- The branch for contiguous data never has a wrong number of bytes, and the offsets of a struct's
elements fit into `int`. Both can fail only for blocks of different lengths, or for more than 2 ^ 31
bytes. -/
inductive Regular : DataType → Prop
  | mk {type : DataType}
      (hbytes : type.bounds.iscontig = true → ∀ num bytes, type.shortcutBytes num = some bytes →
        bytes = num * type.size)
      (hplace : ∀ p ∈ type.parts, p.offset = p.place) (hparts : ∀ p ∈ type.parts, Regular p.type) :
      Regular type

/-- All blocks of a datatype have the same length and base type. -/
def DataType.isUniform : DataType → Bool
  | .indexed _ _ _ | .hindexed _ _ _ | .struct _ _ => false
  | _ => true

/-- Such datatypes are regular, also resized ones. -/
theorem regular_of_isUniform (h : type.isUniform = true)
    (hbase : ∀ base ∈ type.base?, Regular base) : Regular type := by
  have hmem : ∀ {base : DataType} {num : Nat} {places : List Int} {p : Part},
      p ∈ places.map (partAt base num) → p.offset = p.place ∧ p.type = base := by
    intro base num places p hp
    obtain ⟨place, -, rfl⟩ := mem_map.1 hp
    exact ⟨rfl, rfl⟩
  cases type <;> simp only [DataType.isUniform, Bool.false_eq_true] at h
  case basic =>
    exact .mk (fun _ num bytes h => (some.inj h).symm)
      (fun p hp => absurd hp not_mem_nil) fun p hp => absurd hp not_mem_nil
  case contiguous count base =>
    refine .mk (fun _ num bytes h => ?_) (fun p hp => ?_) fun p hp => ?_
    · rw [← some.inj h, DataType.size, mul_assoc]
    · rw [mem_singleton.1 hp]
      rfl
    · rw [mem_singleton.1 hp]
      exact hbase _ rfl
  all_goals
    refine .mk (fun _ num bytes h => ?_) (fun p hp => (hmem hp).1)
      fun p hp => by rw [(hmem hp).2]; exact hbase _ rfl
    rw [← some.inj h]
    simp only [DataType.size, mul_assoc]

/-! ### The constructors -/

/-- The datatypes that the constructors make. The offsets in a struct fit into `int`. -/
inductive Constructed : DataType → Prop
  | basic (mark : Mark) (size : Nat) : Constructed (basicType mark size)
  | contiguous {base : DataType} (h : Constructed base) (count : Nat) :
      Constructed (newContiguous count base)
  | vector {base : DataType} (h : Constructed base) (count blockLength : Nat) (strideLength : Int) :
      Constructed (newVector count blockLength strideLength base)
  | hvector {base : DataType} (h : Constructed base) (count blockLength : Nat)
      (strideLength : Int) :
      Constructed (newHVector count blockLength strideLength base)
  | indexedBlock {base : DataType} (h : Constructed base) (blockLength : Nat) (ds : List Int) :
      Constructed (newIndexedBlock blockLength ds base)
  | hindexedBlock {base : DataType} (h : Constructed base) (blockLength : Nat) (ds : List Int) :
      Constructed (newHIndexedBlock blockLength ds base)
  | indexed {base : DataType} (h : Constructed base) (blocks : List (Nat × Int)) :
      Constructed (newIndexed blocks base)
  | hindexed {base : DataType} (h : Constructed base) (blocks : List (Nat × Int)) :
      Constructed (newHIndexed blocks base)
  | struct {members : Members} (h : ∀ m ∈ members.toList, Constructed m.type)
      (hint : ∀ m ∈ members.toList, ∀ j : Nat, j < m.blockLength →
        toInt (j * toInt m.type.extent) = j * m.type.extent) : Constructed (newStruct members)

section Constructors

variable {blocks : List (Nat × Int)} {base : DataType} {extent : Int} {size count n : Nat}
  {contig : Bool}

/-- Blocks that are taken to be contiguous have the same length. -/
theorem exists_blockLength
    (h : iscontigOf extent size count (blocksContig blocks contig) = true) :
    ∃ n, ∀ block ∈ blocks, block.1 = n := by
  rw [iscontigOf] at h
  split at h
  · cases h
  rw [blocksContig] at h
  split at h
  · next hone =>
    obtain ⟨block, rfl⟩ := length_eq_one_iff.1 hone
    exact ⟨block.1, by simp⟩
  · refine ⟨1, fun block hblock => ?_⟩
    have hall := all_eq_true.1 (Bool.and_eq_true_iff.1 h).1 block hblock
    exact (of_decide_eq_true hall).2

theorem sum_blockLengths (h : ∀ block ∈ blocks, block.1 = n) :
    (blocks.map (·.1)).sum = blocks.length * n := by
  rw [map_congr_left h, map_const', sum_replicate_nat]

/-- The number of bytes that is computed from the length of one of the blocks. -/
theorem bytes_of_blocks {bytes i : Nat} (h : ∀ block ∈ blocks, block.1 = n)
    (hbytes : (blocks[i]?.map fun block => num * blocks.length * block.1 * base.size) =
      some bytes) :
    bytes = num * ((blocks.map (·.1)).sum * base.size) := by
  obtain ⟨block, hblock, rfl⟩ := map_eq_some_iff.1 hbytes
  rw [h block (mem_of_getElem? hblock), sum_blockLengths h]
  simp only [mul_assoc]

theorem members_size_eq_sum (members : Members) :
    members.size = (members.toList.map fun m => m.blockLength * m.type.size).sum := by
  cases members with
  | nil => rfl
  | cons _ _ _ rest =>
    rw [Members.size, members_size_eq_sum rest, Members.toList, map_cons, sum_cons]

theorem bytes_of_members {bounds : Bounds} {members : Members} {bytes : Nat}
    (h : ∀ m ∈ members.toList, m.blockLength = n)
    (hbytes : (DataType.struct bounds members).shortcutBytes num = some bytes) :
    bytes = num * members.size := by
  rw [members_size_eq_sum]
  rw [DataType.shortcutBytes] at hbytes
  cases hlist : members.toList with
  | nil =>
    rw [hlist] at hbytes
    simp [← some.inj hbytes]
  | cons first rest =>
    rw [hlist] at hbytes h
    rw [← some.inj hbytes, ← List.sum_map_mul_left, h first mem_cons_self]
    refine congrArg List.sum (map_congr_left fun m hm => ?_)
    rw [h m hm, mul_assoc]

/-- The parts of an indexed type are expected where they are. -/
theorem regular_of_blocks {type : DataType} {places : List Int}
    (hparts : type.parts = places.map (partAt base 1)) (hbase : Regular base)
    (hbytes : type.bounds.iscontig = true → ∀ num bytes, type.shortcutBytes num = some bytes →
      bytes = num * type.size) : Regular type := by
  have hpart : ∀ p ∈ type.parts, p.offset = p.place ∧ p.type = base := by
    intro p hp
    rw [hparts] at hp
    obtain ⟨place, -, rfl⟩ := mem_map.1 hp
    exact ⟨rfl, rfl⟩
  exact .mk hbytes (fun p hp => (hpart p hp).1) fun p hp => (hpart p hp).2 ▸ hbase

end Constructors

/-- The constructors make regular datatypes. -/
theorem Constructed.regular (h : Constructed type) : Regular type := by
  induction h with
  | basic mark size => exact regular_of_isUniform rfl nofun
  | contiguous _ _ ih | vector _ _ _ _ ih | hvector _ _ _ _ ih | indexedBlock _ _ _ ih
  | hindexedBlock _ _ _ ih =>
    refine regular_of_isUniform rfl ?_
    rintro base ⟨⟩
    exact ih
  | indexed _ blocks ih =>
    refine regular_of_blocks rfl ih fun hcontig num bytes hbytes => ?_
    obtain ⟨n, hn⟩ := exists_blockLength hcontig
    exact bytes_of_blocks (forall_mem_map.1 hn) hbytes
  | hindexed _ blocks ih =>
    refine regular_of_blocks rfl ih fun hcontig num bytes hbytes => ?_
    obtain ⟨n, hn⟩ := exists_blockLength hcontig
    exact bytes_of_blocks hn hbytes
  | @struct members _ hint ih =>
    refine .mk (fun hcontig num bytes hbytes => ?_) (fun p hp => ?_) fun p hp => ?_
    · obtain ⟨n, hn⟩ := exists_blockLength hcontig
      exact bytes_of_members (forall_mem_map.1 hn) hbytes
    · obtain ⟨m, hm, hp⟩ := mem_flatMap.1 hp
      obtain ⟨j, hj, rfl⟩ := mem_map.1 hp
      exact congrArg (m.displacement + ·) (hint m hm j (mem_range.1 hj))
    · obtain ⟨m, hm, hp⟩ := mem_flatMap.1 hp
      obtain ⟨j, -, rfl⟩ := mem_map.1 hp
      exact ih m hm

/-- What is done with `size` bytes of data: either all of them go to the first bytes of the buffer
and their number is the result, or the whole length is, although less is copied. -/
def Outcome.Shape (o : Outcome) (buffer : Int) (size length : Nat) : Prop :=
  ∃ n, Consecutive o.moves buffer n ∧
    (o.bytes = size ∧ n = size ∨ o.bytes = length ∧ n < length)

/-- Every result of `serialize` has this shape, and if it is right then the condition holds. -/
def Exact (type : DataType) (num length : Nat) : Prop :=
  ∀ (user buffer : Int) (o : Outcome), serialize type user buffer num length = some o →
    o.Shape buffer (num * type.size) length ∧
      (o.bytes = (num * type.size : Nat) → o.moves = pairs (elements type num) user buffer →
        Sound type num length)

theorem shape_shortcut {bytes : Nat} (h : bytes ≤ len) :
    (shortcut bytes user buffer len).Shape buffer bytes len := by
  refine ⟨bytes, ?_, .inl ⟨rfl, rfl⟩⟩
  have hconsecutive := @consecutive_pairs ((List.range bytes).map Int.ofNat) user buffer
  rwa [← moves_shortcut h, List.length_map, length_range] at hconsecutive

/-- Parts one after the other. -/
theorem exact_inTurn {o : Outcome} (hps : ∀ p ∈ ps, ∀ len, p.size ≤ len → Exact p.type p.num len)
    (hplace : ∀ p ∈ ps, p.offset = p.place) (hle : (ps.map Part.size).sum ≤ len)
    (ho : inTurn (partCalls ps user buffer) len = some o) :
    o.Shape buffer (ps.map Part.size).sum len ∧
      (o.bytes = ((ps.map Part.size).sum : Nat) →
        o.moves = pairs (ps.flatMap Part.map) user buffer → SoundInTurn ps len) := by
  induction ps generalizing len buffer o with
  | nil =>
    obtain rfl : _ = o := some.inj ho
    exact ⟨⟨0, rfl, .inl ⟨rfl, rfl⟩⟩, fun _ _ => .nil⟩
  | cons p ps ih =>
    rw [map_cons, sum_cons] at hle ⊢
    rw [partCalls, inTurn, bind_eq_some_iff] at ho
    obtain ⟨o1, ho1, ho⟩ := ho
    obtain ⟨⟨n1, hn1, hshape⟩, hsound⟩ := hps p mem_cons_self len (by omega) _ _ _ ho1
    rw [← Part.size] at hshape hsound
    rw [pairs_part (.inr (hplace p mem_cons_self))] at hsound
    rw [flatMap_cons, pairs_append, Part.length_map]
    split at ho
    case isTrue hzero =>
      -- Nothing is left: the other parts are empty, or something was forgotten.
      obtain rfl : _ = o := some.inj ho
      refine ⟨⟨n1, hn1, ?_⟩, fun hbytes hmoves => ?_⟩
      · dsimp only
        omega
      · have hlen := congrArg List.length hmoves
        rw [length_append, length_pairs, length_pairs, Part.length_map, length_flatMap_map] at hlen
        have hmoves1 : o1.moves.length = n1 := hn1.length_eq
        have hlength' : o1.moves.length = p.size + (ps.map Part.size).sum := hlen
        dsimp only at hbytes
        have hnil : ps.flatMap Part.map = [] :=
          eq_nil_of_length_eq_zero (by rw [length_flatMap_map]; omega)
        rw [hnil, pairs, append_nil] at hmoves
        exact .last (hsound (by omega) hmoves) (.inr (hplace p mem_cons_self)) (by omega)
    case isFalse hleft =>
      obtain ⟨hbytes1, rfl⟩ : o1.bytes = p.size ∧ n1 = p.size := by omega
      have hlen : (len : Int) - o1.bytes = (len - p.size : Nat) := by omega
      rw [hlen, map_eq_some_iff] at ho
      obtain ⟨o2, ho2, rfl⟩ := ho
      obtain ⟨⟨n2, hn2, hshape2⟩, hsound2⟩ := ih (fun q hq => hps q (mem_cons_of_mem p hq))
        (fun q hq => hplace q (mem_cons_of_mem p hq)) (by omega) ho2
      refine ⟨⟨p.size + n2, ?_, ?_⟩, fun hbytes hmoves => ?_⟩
      · rw [Outcome.moves_mk_append]
        exact hn1.append hn2
      · dsimp only
        omega
      · rw [Outcome.moves_mk_append] at hmoves
        obtain ⟨hmoves1, hmoves2⟩ := append_inj hmoves (by
          rw [hn1.length_eq, length_pairs, Part.length_map])
        dsimp only at hbytes
        exact .cons (hsound hbytes1 hmoves1) (.inr (hplace p mem_cons_self)) (by omega)
          (hsound2 (by omega) hmoves2)

/-- The branch for contiguous data. -/
theorem exact_shortcut (hcontig : type.bounds.iscontig = true)
    (hbytes : type.shortcutBytes num = some (num * type.size)) (hle : num * type.size ≤ len) :
    Exact type num len := by
  intro user buffer o ho
  rw [serialize_contig user buffer hcontig hbytes hle, some.injEq] at ho
  subst ho
  refine ⟨shape_shortcut hle, fun _ hmoves => .straight hcontig ⟨hbytes, ?_⟩⟩
  rw [moves_shortcut hle] at hmoves
  exact (pairs_injective hmoves).symm

/-- A basic type. -/
theorem exact_basic (bounds : Bounds) (mark : Mark) {size : Nat} (hle : num * size ≤ len) :
    Exact (.basic bounds mark size) num len := by
  rcases hcontig : bounds.iscontig with _ | _
  · intro user buffer o ho
    obtain rfl : serializeBasic bounds size user buffer num len = o := some.inj ho
    obtain ⟨hall, hmoves⟩ := serializeBasic_spread user buffer hcontig hle
    have hlen : (elements (DataType.basic bounds mark size) num).length = num * size :=
      length_elements _ num
    refine ⟨⟨num * size, ?_, ?_⟩, fun hbytes _ => .basic trivial hcontig ?_⟩
    · rw [hmoves, ← hlen]
      exact consecutive_pairs
    · rcases Nat.eq_or_lt_of_le hle with heq | hlt
      · exact .inl ⟨hall.trans (congrArg Int.ofNat heq.symm), rfl⟩
      · exact .inr ⟨hall, hlt⟩
    · exact Int.ofNat.inj (hall.symm.trans hbytes)
  · exact exact_shortcut hcontig rfl hle

/-- For regular datatypes, `serialize` is right only where the condition holds. -/
theorem Regular.exact (h : Regular type) : ∀ num len, num * type.size ≤ len →
    Exact type num len := by
  induction h with
  | @mk type hbytes hplace hparts ih =>
    intro num len hle
    by_cases hbasic : type.IsBasic
    · cases type <;> simp only [DataType.IsBasic] at hbasic
      exact exact_basic _ _ hle
    · rcases hcontig : type.bounds.iscontig with _ | _
      · intro user buffer o ho
        rw [serialize_parts _ _ _ _ hbasic hcontig] at ho
        split at ho
        case isTrue hstr =>
          obtain rfl : _ = o := some.inj ho
          obtain rfl : len = 0 := by omega
          rw [Nat.le_zero.1 hle]
          exact ⟨⟨0, rfl, .inl ⟨rfl, rfl⟩⟩, fun _ _ => .nothing hbasic hcontig hstr.1⟩
        case isFalse =>
          have hsum := sum_size_partsFor hbasic num
          obtain ⟨hshape, hsound⟩ := exact_inTurn (fun p hp => by
            obtain ⟨q, hq, htype, -⟩ := exists_of_mem_partsFor hp
            have hq := ih q hq p.num
            rwa [htype] at hq) (fun p hp => by
            obtain ⟨q, hq, -, -, hdiff⟩ := exists_of_mem_partsFor hp
            have := hplace q hq
            omega) (by rw [hsum]; exact hle) ho
          rw [hsum] at hshape hsound
          rw [← elements_eq hbasic] at hsound
          exact ⟨hshape, fun hbytes hmoves => .parts hbasic hcontig (hsound hbytes hmoves)⟩
      · rcases hsome : type.shortcutBytes num with _ | bytes
        · intro user buffer o ho
          rw [serialize_shortcut _ _ _ _ hbasic hcontig, hsome] at ho
          exact absurd ho (by simp)
        · obtain rfl := hbytes hcontig num bytes hsome
          exact exact_shortcut hcontig hsome hle

/-! ## The result -/

theorem right_of_sound (h : Sound type num (num * type.size)) : Right type num := by
  intro user buffer
  obtain ⟨o, ho, hbytes, hmoves⟩ := h.moves type user buffer num _ le_rfl
  refine ⟨o, ho, hbytes, fun mem buf => ?_⟩
  rw [hmoves]
  exact ⟨rfl, rfl⟩

instance instNontrivialByte : Nontrivial UInt8 := ⟨⟨0, 1, by decide⟩⟩

theorem sound_of_right (hreg : Regular type) (h : Right type num) :
    Sound type num (num * type.size) := by
  obtain ⟨o, ho, hbytes, hpack⟩ := h 0 0
  obtain ⟨⟨n, hn, -⟩, hsound⟩ := hreg.exact num _ le_rfl _ _ _ ho
  -- Copying into a buffer tells where each byte comes from.
  exact hsound hbytes (eq_pairs_of_pack hn fun mem buf => (hpack mem buf).1)

/-- `serialize` follows the type map where the condition holds; for regular datatypes, only
there. -/
theorem right_iff_sound (type : DataType) (num : Nat) :
    (Sound type num (num * type.size) → Right type num) ∧
      (Regular type → (Right type num ↔ Sound type num (num * type.size))) :=
  ⟨right_of_sound, fun hregular => ⟨sound_of_right hregular, right_of_sound⟩⟩

/-- `MPI_INT`. -/
abbrev int : DataType := basicType .data 4

/-- Every second integer of four. -/
theorem sound_vector : Sound (newVector 2 1 2 int) 1 8 := by
  have hint : ∀ length, Sound int 1 length := fun _ => .straight rfl ⟨rfl, rfl⟩
  exact .parts (fun h => h) rfl
    (.cons (hint 8) (.inr rfl) (by decide) (.last (hint 4) (.inr rfl) rfl))

theorem right_iff_sound_vector :
    Sound (newVector 2 1 2 (basicType .data 4)) 1 8 ∧ Right
    (newVector 2 1 2 (basicType .data 4)) 1 := by
  have hregular : Regular (newVector 2 1 2 int) :=
    (Constructed.vector (.basic .data 4) 2 1 2).regular
  have h := right_iff_sound (newVector 2 1 2 int) 1
  exact ⟨(h.2 hregular).1 (h.1 sound_vector), h.1 sound_vector⟩

/-- What is packed with one datatype and unpacked with another one, to different places, arrives
byte by byte, and nothing else is written. -/
theorem transferred {type' : DataType} {num' : Nat} (hs : Right type num) (hr : Right type' num')
    (hnd : (elements type' num').Nodup) (user user' buffer : Int) :
    ∃ o o', serialize type user buffer num (num * type.size : Nat) = some o ∧
      serialize type' user' buffer num' (num' * type'.size : Nat) = some o' ∧
      ∀ mem mem' buf : Int → UInt8,
        (∀ (k : Nat) d d', (elements type num)[k]? = some d → (elements type' num')[k]? = some d' →
          unpack o'.moves mem' (pack o.moves mem buf) (user' + d') = mem (user + d)) ∧
        ∀ a, (∀ d' ∈ elements type' num', a ≠ user' + d') →
          unpack o'.moves mem' (pack o.moves mem buf) a = mem' a := by
  obtain ⟨o, ho, -, hpack⟩ := hs user buffer
  obtain ⟨o', ho', -, hunpack⟩ := hr user' buffer
  refine ⟨o, o', ho, ho', fun mem mem' buf => ?_⟩
  rw [(hunpack mem' _).2, (hpack mem buf).1]
  refine ⟨fun k d d' hd hd' => ?_, fun a => unpack_pairs_of_notMem⟩
  rw [unpack_pairs hnd hd', pack_pairs, hd, elim_some]

/-- The first and the third integer of an array are received as two integers in a row. -/
theorem transferred_vector :
    ∃ o o', serialize (newVector 2 1 2 int) 0 64 1 8 = some o ∧
      serialize (newContiguous 2 int) 128 64 1 8 = some o' ∧
      ∀ mem mem' buf : Int → UInt8,
        unpack o'.moves mem' (pack o.moves mem buf) 128 = mem 0 ∧
        unpack o'.moves mem' (pack o.moves mem buf) 132 = mem 8 ∧
        unpack o'.moves mem' (pack o.moves mem buf) 136 = mem' 136 := by
  have hs : Right (newVector 2 1 2 int) 1 := right_of_sound sound_vector
  have hr : Right (newContiguous 2 int) 1 := right_of_sound (.straight rfl ⟨rfl, rfl⟩)
  obtain ⟨o, o', ho, ho', h⟩ := transferred hs hr (by decide) 0 128 64
  refine ⟨o, o', ho, ho', fun mem mem' buf => ?_⟩
  obtain ⟨hbytes, hrest⟩ := h mem mem' buf
  exact ⟨hbytes 0 0 0 rfl rfl, hbytes 4 8 4 rfl rfl, hrest 136 (by decide)⟩

/-- One block at displacement 4 is contiguous, and is copied from displacement 0. -/
theorem single_block_displaced : ¬Right (newHIndexedBlock 1 [4] (basicType .data 4)) 1 := by
  intro h
  obtain ⟨o, ho, -, hpack⟩ := h 0 0
  obtain rfl : _ = o := some.inj ho
  have hbyte := congrFun (hpack (fun a => if a = 0 then 1 else 0) fun _ => 0).1 0
  exact absurd hbyte (by decide)

end CharmRuntime.TypeMap
