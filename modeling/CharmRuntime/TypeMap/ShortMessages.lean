import CharmRuntime.TypeMap.Packing

/-!
# Messages shorter than what was asked for

A message that is received may hold fewer bytes than the elements asked for. Then `serialize` should
take from it the basic elements that it holds completely, and nothing else (`Stays`). The branch for
contiguous data returns the size of all elements although it copies no more than the message holds,
so that the length that is left becomes negative; a basic type that is not contiguous gives up what
is left when the message is longer; and a part of an element that is left over is offered to the
parts after it.

`Fits` says where the message has to end. Then `serialize` is right, and for regular datatypes only
then (`staysInside_iff_fits`).
-/

set_option autoImplicit false

namespace CharmRuntime.TypeMap

open Lib.Moves List Option

/-! ## Basic elements -/

mutual

/-- The sizes of the basic elements of a datatype, in the order of the type map. -/
def DataType.basicSizes : DataType → List Nat
  | .basic _ _ size => [size]
  | .contiguous _ count base => (replicate count base.basicSizes).flatten
  | .vector _ count blockLength _ base | .hvector _ count blockLength _ base =>
    (replicate count (replicate blockLength base.basicSizes).flatten).flatten
  | .indexedBlock _ blockLength displacements base
  | .hindexedBlock _ blockLength displacements base =>
    displacements.flatMap fun _ => (replicate blockLength base.basicSizes).flatten
  | .indexed _ blocks base | .hindexed _ blocks base =>
    blocks.flatMap fun (blockLength, _) => (replicate blockLength base.basicSizes).flatten
  | .struct _ members => members.basicSizes

/-- The same for the blocks of a struct. -/
def Members.basicSizes : Members → List Nat
  | .nil => []
  | .cons blockLength _ type rest =>
    (replicate blockLength type.basicSizes).flatten ++ rest.basicSizes

end

/-- The sizes of the basic elements of `num` elements. -/
def elementSizes (type : DataType) (num : Nat) : List Nat := (replicate num type.basicSizes).flatten

/-- The sizes of the basic elements of a part. -/
def Part.sizes (p : Part) : List Nat := elementSizes p.type p.num

variable {type : DataType} {buf user : Int} {len num size : Nat} {o : Outcome}
  {ps : List Part} {sizes : List Nat} {bounds : Bounds} {mark : Mark}

theorem flatMap_sizes_of_const (h : ∀ p ∈ ps, p.sizes = sizes) :
    ps.flatMap Part.sizes = (replicate ps.length sizes).flatten := by
  rw [flatMap_def, map_congr_left h, map_const']

variable {base : DataType}

theorem flatMap_sizes_partAt (os : List Int) : (os.map (partAt base num)).flatMap Part.sizes =
      (replicate os.length (elementSizes base num)).flatten := by
  rw [flatMap_sizes_of_const fun p hp => ?_, List.length_map]
  obtain ⟨o, -, rfl⟩ := mem_map.1 hp
  rfl

theorem elementSizes_one (type : DataType) : elementSizes type 1 = type.basicSizes := by
  simp [elementSizes]

theorem flatMap_sizes_blocks {α : Type} (offsets : α → List Int) (bs : List α) :
    ((bs.flatMap offsets).map (partAt base 1)).flatMap Part.sizes =
      bs.flatMap fun b => elementSizes base (offsets b).length := by
  rw [map_flatMap, flatMap_assoc]
  refine flatMap_congr fun b _ => ?_
  rw [flatMap_sizes_partAt, elementSizes_one, elementSizes]

/-- A derived type has the basic elements of its parts. -/
theorem basicSizes_eq : (type : DataType) → ¬type.IsBasic →
    type.basicSizes = type.parts.flatMap Part.sizes
  | .basic _ _ _, h => absurd trivial h
  | .contiguous _ _ _, _ => by
    simp [DataType.basicSizes, DataType.parts, Part.sizes, partAt, elementSizes]
  | .vector _ _ _ _ _, _ | .hvector _ _ _ _ _, _ => by
    rw [DataType.basicSizes, DataType.parts, flatMap_sizes_partAt, List.length_map, length_range,
      elementSizes]
  | .indexedBlock _ _ _ _, _ | .hindexedBlock _ _ _ _, _ | .indexed _ _ _,
      _ | .hindexed _ _ _, _ => by
    rw [DataType.basicSizes, DataType.parts, flatMap_sizes_blocks]
    simp [blockOffsets, elementSizes]
  | .struct _ members, _ => by
    exact members_eq members
where
  members_eq : (members : Members) →
      members.basicSizes = (members.toList.flatMap Member.parts).flatMap Part.sizes
    | .nil => rfl
    | .cons blockLength displacement type rest => by
      rw [Members.basicSizes, members_eq rest, Members.toList, flatMap_cons, flatMap_append]
      rw [@flatMap_sizes_of_const (Member.parts _) type.basicSizes fun p hp => ?_, Member.parts,
        List.length_map, length_range]
      obtain ⟨j, -, rfl⟩ := mem_map.1 hp
      exact elementSizes_one type

theorem sum_elementSizes_of (h : type.basicSizes.sum = type.size) (num : Nat) :
    (elementSizes type num).sum = num * type.size := by
  rw [elementSizes, sum_flatten, map_replicate, h, sum_replicate_nat]

theorem sum_flatMap_sizes (h : ∀ p ∈ ps, p.sizes.sum = p.size) :
    (ps.flatMap Part.sizes).sum = (ps.map Part.size).sum := by
  rw [flatMap_def, sum_flatten, List.map_map]
  exact congrArg List.sum (map_congr_left h)

theorem sum_basicSizes (type : DataType) : type.basicSizes.sum = type.size := by
  induction type using DataType.induct_parts with
  | h type ih =>
    by_cases hbasic : type.IsBasic
    · cases type <;> simp only [DataType.IsBasic] at hbasic
      exact sum_singleton
    · rw [basicSizes_eq type hbasic, size_eq type hbasic]
      exact sum_flatMap_sizes fun p hp => sum_elementSizes_of (ih p hp) p.num

theorem sum_elementSizes (type : DataType) (num : Nat) :
    (elementSizes type num).sum = num * type.size :=
  sum_elementSizes_of (sum_basicSizes type) num

theorem elementSizes_basic (bounds : Bounds) (mark : Mark) (size : Nat) :
    elementSizes (.basic bounds mark size) num = replicate num size := by
  exact flatten_replicate_singleton

theorem Part.sum_sizes (p : Part) : p.sizes.sum = p.size :=
  sum_elementSizes p.type p.num

/-- Consecutive elements of a derived type have the basic elements of their parts. -/
theorem elementSizes_eq (h : ¬type.IsBasic) :
    elementSizes type num = (type.partsFor num).flatMap Part.sizes := by
  induction num with
  | zero => rfl
  | succ num ih =>
    rw [elementSizes, replicate_succ, flatten_cons, ← elementSizes, ih, basicSizes_eq type h,
      DataType.partsFor, flatMap_append, flatMap_map]
    rfl

/-! ## What is expected -/

/-- What is done with data at the displacements `map`, in elements of the given sizes, when `length`
bytes are left: the elements that these bytes hold completely are moved, their number is the result,
and no length that is passed on is negative. -/
structure Stays (o : Outcome) (map : List Int) (sizes : List Nat) (user buffer : Int)
    (length : Nat) : Prop where
  bytes : o.bytes = whole sizes length
  moves : o.moves = pairs (map.take (whole sizes length)) user buffer
  lengths : ∀ l ∈ o.lengths, 0 ≤ l

/-- Everything is where `serialize` expects it: data that is taken to be contiguous begins at the
first address and has no gaps, and the elements of a struct are at the offsets that the loop
computes. -/
inductive Placed : DataType → Prop
  | mk {type : DataType}
      (hcontig : type.bounds.iscontig = true → ∀ num,
        elements type num = (List.range (num * type.size)).map Int.ofNat)
      (hplace : ∀ p ∈ type.parts, p.size = 0 ∨ p.offset = p.place)
      (hparts : ∀ p ∈ type.parts, Placed p.type) : Placed type

mutual

/-- `serialize` can deal with `num` elements when `length` bytes of the message are left. -/
inductive Fits : DataType → Nat → Nat → Prop
  | all {type : DataType} {num length : Nat} (hcontig : type.bounds.iscontig = true)
      (hbytes : type.shortcutBytes num = some (num * type.size)) (hle : num * type.size ≤ length) :
      Fits type num length
  | cut {type : DataType} {num length : Nat} (hbasic : type.IsBasic)
      (hcontig : type.bounds.iscontig = true) (hlt : length < num * type.size)
      (hdvd : type.size ∣ length) : Fits type num length
  | spread {type : DataType} {num length : Nat} (hbasic : type.IsBasic)
      (hcontig : type.bounds.iscontig = false) (hle : length ≤ num * type.size) :
        Fits type num length
  | nothing {type : DataType} {num : Nat} (hderived : ¬type.IsBasic)
      (hcontig : type.bounds.iscontig = false) (hstruct : type.isStruct = true) : Fits type num 0
  | parts {type : DataType} {num length : Nat} (hderived : ¬type.IsBasic)
      (hcontig : type.bounds.iscontig = false) (h : FitsInTurn (type.partsFor num) length) :
      Fits type num length

/-- The same for parts one after the other. What is left over after the part in which the message
ends must be too short for all elements after it. -/
inductive FitsInTurn : List Part → Nat → Prop
  | nil {length : Nat} : FitsInTurn [] length
  | stop {p : Part} {ps : List Part} {length : Nat} (h : Fits p.type p.num length)
      (hwhole : whole p.sizes length = length) : FitsInTurn (p :: ps) length
  | next {p : Part} {ps : List Part} {length : Nat} (h : Fits p.type p.num length)
      (hwhole : whole p.sizes length < length)
      (hps : FitsInTurn ps (length - whole p.sizes length))
      (hrest : length < p.size →
        whole (ps.flatMap Part.sizes) (length - whole p.sizes length) = 0) :
      FitsInTurn (p :: ps) length

end

/-! ## The condition is sufficient -/

theorem pairs_take_part {p : Part} (h : p.size = 0 ∨ p.offset = p.place) (n : Nat)
    (user buf : Int) : pairs ((elements p.type p.num).take n) (user + p.offset) buf = pairs
    (p.map.take n) user buf := by
  rw [Part.map, ← map_take, pairs_map_add]
  rcases h with hzero | hplace
  · have hnil : elements p.type p.num = [] := eq_nil_of_length_eq_zero (by rwa [length_elements])
    rw [hnil, take_nil]
    rfl
  · rw [hplace]

theorem place_of_mem_partsFor (h : ∀ p ∈ type.parts, p.size = 0 ∨ p.offset = p.place) {p : Part}
    (hp : p ∈ type.partsFor num) : p.size = 0 ∨ p.offset = p.place := by
  obtain ⟨q, hq, htype, hnum, hdiff⟩ := exists_of_mem_partsFor hp
  have hplace := h q hq
  rw [Part.size, htype, hnum, ← Part.size] at hplace
  omega

/-- Parts one after the other. -/
theorem FitsInTurn.stays (h : FitsInTurn ps len)
    (hps : ∀ p ∈ ps, ∀ user buf len, Fits p.type p.num len →
      ∃ o, serialize p.type user buf p.num len = some o ∧
        Stays o (elements p.type p.num) p.sizes user buf len)
    (hplace : ∀ p ∈ ps, p.size = 0 ∨ p.offset = p.place) (user buf : Int) :
    ∃ o, inTurn (partCalls ps user buf) len = some o ∧
      Stays o (ps.flatMap Part.map) (ps.flatMap Part.sizes) user buf len := by
  induction ps generalizing len buf with
  | nil => exact ⟨_, rfl, rfl, rfl, nofun⟩
  | cons p ps ih =>
    have hsum := p.sum_sizes
    have hmap := p.length_map
    rw [partCalls, inTurn, flatMap_cons, flatMap_cons]
    cases h with
    | stop hfits hwhole =>
      obtain ⟨o, ho, hbytes, hmoves, hlengths⟩ :=
        hps p mem_cons_self (user + p.offset) buf len hfits
      have hle : len ≤ p.map.length := by
        have := @whole_le_sum p.sizes len
        omega
      rw [ho, bind_some, if_pos (by omega)]
      refine ⟨_, rfl, ?_, ?_, forall_mem_cons.2 ⟨by omega, hlengths⟩⟩
      · rw [whole_append_of_eq hwhole, hbytes, hwhole]
      · rw [whole_append_of_eq hwhole, take_append_of_le_length hle,
          ← pairs_take_part (hplace p mem_cons_self)]
        nth_rewrite 2 [← hwhole]
        exact hmoves
    | next hfits hwhole hrest hidle =>
      obtain ⟨o, ho, hbytes, hmoves, hlengths⟩ :=
        hps p mem_cons_self (user + p.offset) buf len hfits
      obtain ⟨o', ho', hbytes', hmoves', hlengths'⟩ := ih hrest
        (fun q hq => hps q (mem_cons_of_mem p hq))
        (fun q hq => hplace q (mem_cons_of_mem p hq)) (buf + p.size)
      have hleft : (len : Int) - o.bytes = (len - whole p.sizes len : Nat) := by omega
      rw [ho, bind_some, if_neg (by omega), hleft, ho']
      have hlengths2 : ∀ l ∈ (len : Int) :: o.lengths ++ o'.lengths, 0 ≤ l :=
        forall_mem_append.2 ⟨forall_mem_cons.2 ⟨by omega, hlengths⟩, hlengths'⟩
      rw [pairs_take_part (hplace p mem_cons_self)] at hmoves
      rcases Nat.lt_or_ge len p.size with hlt | hge
      · -- The message ends within this part, and nothing of the rest fits.
        rw [hidle hlt] at hbytes' hmoves'
        refine ⟨_, rfl, ?_, ?_, hlengths2⟩
        · rw [whole_append_of_lt (by omega), ← hbytes]
          dsimp only
          omega
        · rw [Outcome.moves_mk_append, take_whole_append_of_lt (by omega) (by omega),
            hmoves, hmoves', take_zero, pairs, append_nil]
      · have hall : whole p.sizes len = p.size := (whole_of_sum_le (by omega)).trans hsum
        rw [hall] at hbytes hmoves hbytes' hmoves'
        refine ⟨_, rfl, ?_, ?_, hlengths2⟩
        · rw [whole_append_of_le (by omega), hsum]
          dsimp only
          omega
        · rw [Outcome.moves_mk_append, take_whole_append_of_le (by omega) (by omega),
            hmoves, hmoves', pairs_append, hsum, hmap, take_of_length_le (by omega)]

/-- A message that ends within contiguous elements of a basic type. -/
theorem stays_cut (hflag : bounds.iscontig = true) (hlt : len < num * size) (hdvd : size ∣ len) :
    Stays (serializeBasic bounds size user buf num len)
      ((List.range (num * size)).map Int.ofNat)
      (elementSizes (.basic bounds mark size) num) user buf
      len := by
  have hwhole := whole_replicate_of_dvd hlt.le hdvd
  rw [serializeBasic, if_pos hflag, clamp_of_ge hlt.le, elementSizes_basic]
  refine ⟨by rw [hwhole], ?_, forall_mem_nil _⟩
  rw [hwhole, ← map_take, take_range, Nat.min_eq_left hlt.le, pairs_range, Outcome.moves,
    flatMap_singleton, Copy.moves]

/-- A message that ends within other elements of a basic type. -/
theorem stays_spread (hflag : bounds.iscontig = false) (hle : len ≤ num * size) :
    Stays (serializeBasic bounds size user buf num len)
      (elements (.basic bounds mark size) num) (elementSizes (.basic bounds mark size) num) user buf
      len := by
  obtain ⟨hmoves, hrest⟩ := @basicLoop_spec num size len bounds.extent user buf
  have hwhole := @whole_le (replicate num size) len
  rw [serializeBasic, if_neg (by simp [hflag]), clamp_of_ge hle, elementSizes_basic]
  refine ⟨?_, hmoves, forall_mem_nil _⟩
  dsimp only
  omega

theorem stays_nothing (hder : ¬type.IsBasic) (hflag : type.bounds.iscontig = false)
    (hstr : type.isStruct = true) (user buf : Int) :
    ∃ o, serialize type user buf num (0 : Nat) = some o ∧
      Stays o (elements type num) (elementSizes type num) user buf 0 := by
  have hwhole : whole (elementSizes type num) 0 = 0 := Nat.le_zero.1 whole_le
  refine ⟨⟨[], 0, []⟩, ?_, by rw [hwhole]; rfl, by rw [hwhole]; rfl, nofun⟩
  rw [serialize_parts _ _ _ _ hder hflag, if_pos ⟨hstr, rfl⟩]

/-- `serialize` deals with short messages where the condition holds. -/
theorem Fits.stays (hplaced : Placed type) : ∀ (user buf : Int) (num len : Nat),
    Fits type num len → ∃ o, serialize type user buf num len = some o ∧
      Stays o (elements type num) (elementSizes type num) user buf len := by
  induction hplaced with
  | @mk type hcontig hplace hparts ih =>
    intro user buf num len h
    cases h with
    | all hflag hbytes hle =>
      have hwhole := (whole_of_sum_le ((sum_elementSizes type num).trans_le hle)).trans
        (sum_elementSizes type num)
      refine ⟨_, serialize_contig user buf hflag hbytes hle, by rw [hwhole]; rfl, ?_, by
        simp [shortcut]⟩
      rw [hwhole, moves_shortcut hle, ← hcontig hflag, take_of_length_le (by rw [length_elements])]
    | cut hbasic hflag hlt hdvd =>
      cases type <;> simp only [DataType.IsBasic] at hbasic
      refine ⟨_, rfl, ?_⟩
      rw [hcontig hflag]
      exact stays_cut hflag hlt hdvd
    | spread hbasic hflag hle =>
      cases type <;> simp only [DataType.IsBasic] at hbasic
      exact ⟨_, rfl, stays_spread hflag hle⟩
    | nothing hder hflag hstr => exact stays_nothing hder hflag hstr user buf
    | parts hder hflag h =>
      by_cases hstr : type.isStruct = true ∧ (len : Int) = 0
      · obtain ⟨hstr, hzero⟩ := hstr
        obtain rfl : len = 0 := by omega
        exact stays_nothing hder hflag hstr user buf
      · rw [serialize_parts _ _ _ _ hder hflag, if_neg hstr, elements_eq hder,
          elementSizes_eq hder]
        refine h.stays (fun p hp => ?_) (fun p hp => place_of_mem_partsFor hplace hp) user buf
        obtain ⟨q, hq, htype, -⟩ := exists_of_mem_partsFor hp
        intro user buf
        have hq := ih q hq user buf p.num
        rwa [htype] at hq

/-! ## The condition is necessary -/

/-- Something has gone wrong that nothing after it can repair: more bytes than there are, a negative
length, bytes that are counted and not moved, moves that are not next to each other in the buffer,
or a part of an element. -/
inductive Spoiled (o : Outcome) (buffer : Int) (sizes : List Nat) (length : Nat) : Prop
  | beyond (hbytes : length < o.bytes)
  | negative {l : Int} (hmem : l ∈ o.lengths) (hneg : l < 0)
  | lost (hbytes : o.bytes = length) (hmoves : o.moves.length < length)
  | scattered (hmoves : ¬Consecutive o.moves buffer o.moves.length)
  | broken (hbytes : o.bytes = length) (hlt : length < sizes.sum)
      (hwhole : whole sizes length < length)

theorem Stays.not_spoiled {map : List Int} (h : Stays o map sizes user buf len)
    (hmap : map.length = sizes.sum) : ¬Spoiled o buf sizes len := by
  obtain ⟨hbytes, hmoves, hlengths⟩ := h
  have hle := @whole_le sizes len
  have hsum := @whole_le_sum sizes len
  have hlen : o.moves.length = whole sizes len := by
    rw [hmoves, length_pairs, length_take]
    omega
  intro hspoiled
  cases hspoiled with
  | beyond | lost | broken => omega
  | negative hmem hneg => exact absurd (hlengths _ hmem) (not_le.2 hneg)
  | scattered hscat =>
    refine hscat ?_
    rw [hmoves, length_pairs]
    exact consecutive_pairs

theorem mem_lengths_inTurn {call : Int → Option Outcome} {calls : List (Int → Option Outcome)}
    {l : Int} (h : inTurn (call :: calls) l = some o) : l ∈ o.lengths := by
  rw [inTurn, bind_eq_some_iff] at h
  obtain ⟨o1, -, h⟩ := h
  split at h
  · obtain rfl := some.inj h
    exact mem_cons_self
  · obtain ⟨o2, -, rfl⟩ := map_eq_some_iff.1 h
    exact mem_cons_self

/-- A call that has spoiled everything, and those after it. -/
theorem Spoiled.head {o' : Outcome} {sizes' : List Nat} {calls : List (Int → Option Outcome)}
    (h : Spoiled o buf sizes len) (ho : (if (len : Int) - o.bytes = 0 then
        some { o with lengths := (len : Int) :: o.lengths }
      else (inTurn calls (len - o.bytes)).map fun o' =>
        ⟨o.copies ++ o'.copies, o.bytes + o'.bytes, (len : Int) :: o.lengths ++ o'.lengths⟩) =
          some o') :
    Spoiled o' buf (sizes ++ sizes') len := by
  split at ho
  case isTrue hzero =>
    obtain rfl := some.inj ho
    cases h with
    | beyond hbeyond => omega
    | negative hmem hneg => exact .negative (mem_cons_of_mem _ hmem) hneg
    | lost hall hless => exact .lost hall hless
    | scattered hscat => exact .scattered hscat
    | broken hall hlt hwhole =>
      refine .broken hall ?_ (by rwa [whole_append_of_lt hlt])
      rw [sum_append]
      omega
  case isFalse hleft =>
    obtain ⟨o2, ho2, rfl⟩ := map_eq_some_iff.1 ho
    cases h with
    | beyond hbeyond =>
      cases calls with
      | nil =>
        obtain rfl := some.inj ho2
        exact .beyond (by simpa using hbeyond)
      | cons call calls =>
        exact .negative (mem_append_right _ (mem_lengths_inTurn ho2)) (by omega)
    | negative hmem hneg =>
      exact .negative (mem_append_left _ (mem_cons_of_mem _ hmem)) hneg
    | lost | broken => omega
    | scattered hscat =>
      refine .scattered fun hmoves => hscat ?_
      rw [Outcome.moves_mk_append] at hmoves
      exact hmoves.of_append.1

/-- Moves that begin behind where the others have ended. -/
theorem not_consecutive_of_gap {moves moves' : List Move} {n : Nat} (hne : moves' ≠ [])
    (hlow : ∀ mv ∈ moves', buf + n ≤ mv.2) (hlt : moves.length < n) :
    ¬Consecutive (moves ++ moves') buf (moves ++ moves').length := by
  intro h
  obtain ⟨mv, rest, rfl⟩ := exists_cons_of_ne_nil hne
  have hhead := h.of_append.2.head
  have := hlow mv mem_cons_self
  omega

/-- Calls that spoil everything after one that has not. -/
theorem Spoiled.tail {o' : Outcome} {sizes' : List Nat} (hbytes : o.bytes = whole sizes len)
    (hmoves : o.moves.length = whole sizes len) (hlt : whole sizes len < len)
    (hlow : ∀ mv ∈ o'.moves, buf + sizes.sum ≤ mv.2)
    (h : Spoiled o' (buf + sizes.sum) sizes' (len - whole sizes len)) :
    Spoiled ⟨o.copies ++ o'.copies, o.bytes + o'.bytes, (len : Int) :: o.lengths ++ o'.lengths⟩ buf
      (sizes ++ sizes') len := by
  have hsum := @whole_le_sum sizes len
  cases h with
  | beyond hbeyond => exact .beyond (by dsimp only; omega)
  | negative hmem hneg => exact .negative (mem_append_right _ hmem) hneg
  | lost hall hless =>
    refine .lost (by dsimp only; omega) ?_
    rw [Outcome.moves_mk_append, length_append]
    omega
  | scattered hscat =>
    refine .scattered ?_
    rw [Outcome.moves_mk_append]
    rcases Nat.lt_or_eq_of_le hsum with hgap | hall
    · refine not_consecutive_of_gap (fun hnil => hscat ?_) hlow (by omega)
      rw [hnil]
      rfl
    · intro hconsecutive
      have hright := hconsecutive.of_append.2
      rw [hmoves, hall] at hright
      exact hscat hright
  | broken hall hshort hwhole =>
    refine .broken (by dsimp only; omega) (by rw [sum_append]; omega) ?_
    rcases Nat.lt_or_ge len sizes.sum with hcut | hfull
    · rwa [whole_append_of_lt hcut]
    · rw [whole_of_sum_le hfull] at hwhole hlt
      rw [whole_append_of_le hfull]
      omega

/-! Nothing is moved to or from addresses before the buffer. -/

theorem le_buffer_basicLoop {extent : Int} {bufSize : Nat} {c : Copy}
    (h : c ∈ (basicLoop extent size num user buf bufSize).1) : buf ≤ c.buffer := by
  induction num generalizing user buf bufSize with
  | zero => simp [basicLoop] at h
  | succ num ih =>
    rw [basicLoop] at h
    split at h
    · exact absurd h not_mem_nil
    · rcases mem_cons.1 h with rfl | h
      · exact le_rfl
      · have := ih h
        omega

theorem le_buffer_inTurn {len : Int}
    (hps : ∀ p ∈ ps, ∀ user buf len o, serialize p.type user buf p.num len = some o →
      ∀ c ∈ o.copies, buf ≤ c.buffer) (ho : inTurn (partCalls ps user buf) len = some o) :
    ∀ c ∈ o.copies, buf ≤ c.buffer := by
  induction ps generalizing buf len o with
  | nil =>
    obtain rfl := some.inj ho
    exact nofun
  | cons p ps ih =>
    rw [partCalls, inTurn, bind_eq_some_iff] at ho
    obtain ⟨o1, ho1, ho⟩ := ho
    have hhead := hps p mem_cons_self _ _ _ _ ho1
    split at ho
    · obtain rfl := some.inj ho
      exact hhead
    · obtain ⟨o2, ho2, rfl⟩ := map_eq_some_iff.1 ho
      have htail := ih (fun q hq => hps q (mem_cons_of_mem p hq)) ho2
      refine forall_mem_append.2 ⟨hhead, fun c hc => ?_⟩
      have := htail c hc
      omega

theorem le_buffer_serialize (type : DataType) :
    ∀ (user buf : Int) (num : Nat) (len : Int) (o : Outcome),
    serialize type user buf num len = some o → ∀ c ∈ o.copies, buf ≤ c.buffer := by
  induction type using DataType.induct_parts with
  | h type ih =>
    intro user buf num len o ho c hc
    by_cases hbasic : type.IsBasic
    · cases type <;> simp only [DataType.IsBasic] at hbasic
      obtain rfl := some.inj ho
      rw [serializeBasic] at hc
      split at hc
      · rw [mem_singleton.1 hc]
      · exact le_buffer_basicLoop hc
    · rcases hcontig : type.bounds.iscontig with _ | _
      · rw [serialize_parts _ _ _ _ hbasic hcontig] at ho
        split at ho
        · obtain rfl := some.inj ho
          exact absurd hc not_mem_nil
        · refine le_buffer_inTurn (fun p hp => ?_) ho c hc
          obtain ⟨q, hq, htype, -⟩ := exists_of_mem_partsFor hp
          intro user buf
          have hq := ih q hq user buf p.num
          rwa [htype] at hq
      · rw [serialize_shortcut _ _ _ _ hbasic hcontig, map_eq_some_iff] at ho
        obtain ⟨bytes, -, rfl⟩ := ho
        rw [mem_singleton.1 hc]

theorem le_of_mem_moves (h : ∀ c ∈ o.copies, buf ≤ c.buffer) : ∀ mv ∈ o.moves, buf ≤ mv.2 := by
  intro mv hmv
  obtain ⟨c, hc, hmv⟩ := mem_flatMap.1 hmv
  obtain ⟨i, -, rfl⟩ := mem_map.1 hmv
  have := h c hc
  omega

/-! Either the condition holds, or everything is spoiled. -/

theorem fits_or_spoiled_inTurn (hplaced : ∀ p ∈ ps, Placed p.type)
    (hplace : ∀ p ∈ ps, p.size = 0 ∨ p.offset = p.place)
    (hps : ∀ p ∈ ps, ∀ (user buf : Int) (len : Nat) (o : Outcome),
      serialize p.type user buf p.num len = some o →
      Fits p.type p.num len ∨ Spoiled o buf p.sizes len)
    (ho : inTurn (partCalls ps user buf) len = some o) :
    FitsInTurn ps len ∨ Spoiled o buf (ps.flatMap Part.sizes) len := by
  induction ps generalizing len buf o with
  | nil => exact .inl .nil
  | cons p ps ih =>
    rw [partCalls, inTurn, bind_eq_some_iff] at ho
    obtain ⟨o1, ho1, ho⟩ := ho
    rcases hps p mem_cons_self _ _ _ _ ho1 with hfits | hspoiled
    · obtain ⟨o1', ho1', hbytes, hmoves, -⟩ :=
        hfits.stays (hplaced p mem_cons_self) (user + p.offset) buf
      obtain rfl : o1 = o1' := some.inj (ho1.symm.trans ho1')
      have hsum := p.sum_sizes
      have hwhole := @whole_le p.sizes len
      have hlen : o1.moves.length = whole p.sizes len := by
        have := @whole_le_sum p.sizes len
        have := length_elements p.type p.num
        rw [Part.size] at hsum
        rw [hmoves, length_pairs, length_take, ← Part.sizes]
        omega
      split at ho
      case isTrue hzero => exact .inl (.stop hfits (by rw [← Part.sizes] at hbytes; omega))
      case isFalse hleft =>
        rw [← Part.sizes] at hbytes
        have hlt : whole p.sizes len < len := by omega
        have hrest : (len : Int) - o1.bytes = (len - whole p.sizes len : Nat) := by omega
        rw [hrest] at ho
        obtain ⟨o2, ho2, rfl⟩ := map_eq_some_iff.1 ho
        have hlow : ∀ mv ∈ o2.moves, buf + p.size ≤ mv.2 :=
          le_of_mem_moves (le_buffer_inTurn (fun q _ => fun user buf len o =>
            le_buffer_serialize q.type user buf q.num len o) ho2)
        have hplaced' : ∀ q ∈ ps, Placed q.type := fun q hq => hplaced q (mem_cons_of_mem p hq)
        have hplace' : ∀ q ∈ ps, q.size = 0 ∨ q.offset = q.place :=
          fun q hq => hplace q (mem_cons_of_mem p hq)
        rcases ih hplaced' hplace' (fun q hq => hps q (mem_cons_of_mem p hq)) ho2
          with hps' | hspoiled
        · by_cases hidle : len < p.size →
              whole (ps.flatMap Part.sizes) (len - whole p.sizes len) = 0
          · exact .inl (.next hfits hlt hps' hidle)
          · -- Elements after one that is cut off are moved, and leave a gap.
            obtain ⟨hcut, hne⟩ := Classical.not_imp.1 hidle
            obtain ⟨o2', ho2', hbytes2, hmoves2, -⟩ := hps'.stays (fun q hq user buf len =>
              Fits.stays (hplaced' q hq) user buf q.num len) hplace' user (buf + p.size)
            obtain rfl : o2 = o2' := some.inj (ho2.symm.trans ho2')
            refine .inr (.scattered ?_)
            rw [Outcome.moves_mk_append]
            refine not_consecutive_of_gap (fun hnil => hne ?_) hlow (by omega)
            rw [hnil] at hmoves2
            have hzero := congrArg List.length hmoves2
            have hle := @whole_le_sum (ps.flatMap Part.sizes) (len - whole p.sizes len)
            rw [sum_flatMap_sizes fun q _ => q.sum_sizes] at hle
            rw [length_nil, length_pairs, length_take, length_flatMap_map] at hzero
            omega
        · rw [← hsum] at hlow hspoiled
          exact .inr (hspoiled.tail hbytes hlen hlt hlow)
    · exact .inr (hspoiled.head ho)

theorem fits_or_spoiled_basic : Fits (.basic bounds mark size) num len ∨
      Spoiled (serializeBasic bounds size user buf num len) buf
        (elementSizes (.basic bounds mark size) num) len := by
  have hsum : (elementSizes (.basic bounds mark size) num).sum = num * size :=
    sum_elementSizes _ num
  rcases hcontig : bounds.iscontig with _ | _
  · rcases Nat.lt_or_ge (num * size) len with hlt | hge
    · obtain ⟨hbytes, hmoves⟩ := serializeBasic_spread user buf hcontig hlt.le
      refine .inr (.lost hbytes ?_)
      rw [hmoves, length_pairs, length_repeated, List.length_map, length_range]
      exact hlt
    · exact .inl (.spread trivial hcontig hge)
  · rcases Nat.lt_or_ge len (num * size) with hlt | hge
    · by_cases hdvd : size ∣ len
      · exact .inl (.cut trivial hcontig hlt hdvd)
      · refine .inr (.broken ?_ (by omega) ?_)
        · rw [serializeBasic, if_pos hcontig, clamp_of_ge hlt.le]
        · rw [elementSizes_basic]
          refine lt_of_le_of_ne whole_le fun heq => hdvd ?_
          have hdvd' := @dvd_whole_replicate len num size
          rwa [heq] at hdvd'
    · exact .inl (.all hcontig rfl hge)

/-- Where the condition does not hold, everything is spoiled. -/
theorem fits_or_spoiled (hplaced : Placed type) : Regular type →
    ∀ (user buf : Int) (num len : Nat) (o : Outcome), serialize type user buf num len = some o →
      Fits type num len ∨ Spoiled o buf (elementSizes type num) len := by
  induction hplaced with
  | @mk type hcontig hplace hparts ih =>
    rintro ⟨hbytes, -, hreg⟩ user buf num len o ho
    by_cases hbasic : type.IsBasic
    · cases type <;> simp only [DataType.IsBasic] at hbasic
      obtain rfl := some.inj ho
      exact fits_or_spoiled_basic
    · rcases hflag : type.bounds.iscontig with _ | _
      · rw [serialize_parts _ _ _ _ hbasic hflag] at ho
        split at ho
        case isTrue hstr =>
          obtain rfl : len = 0 := by omega
          exact .inl (.nothing hbasic hflag hstr.1)
        case isFalse =>
          rw [elementSizes_eq hbasic]
          refine (fits_or_spoiled_inTurn (fun p hp => ?_) (fun p hp => ?_) (fun p hp => ?_)
            ho).imp_left
            (.parts hbasic hflag)
          · obtain ⟨q, hq, htype, -⟩ := exists_of_mem_partsFor hp
            rw [← htype]
            exact hparts q hq
          · exact place_of_mem_partsFor hplace hp
          · obtain ⟨q, hq, htype, -⟩ := exists_of_mem_partsFor hp
            intro user buf
            have hq := ih q hq (hreg q hq) user buf p.num
            rwa [htype] at hq
      · rw [serialize_shortcut _ _ _ _ hbasic hflag, map_eq_some_iff] at ho
        obtain ⟨bytes, hsome, rfl⟩ := ho
        obtain rfl := hbytes hflag num bytes hsome
        rcases Nat.lt_or_ge len (num * type.size) with hlt | hge
        · exact .inr (.beyond (Int.ofNat_lt.2 hlt))
        · exact .inl (.all hflag hsome hge)

/-! ## The result -/

/-- `serialize` stays inside a message of `length` bytes: it reads only these bytes, it moves the
first bytes of the type map up to the last basic element that the message holds completely, it
returns their number, and it passes on no negative length. -/
def StaysInside (type : DataType) (num length : Nat) : Prop :=
  ∀ user buffer : Int, ∃ o, serialize type user buffer num length = some o ∧
    (∀ mv ∈ o.moves, buffer ≤ mv.2 ∧ mv.2 < buffer + length) ∧
    o.moves = pairs ((elements type num).take (whole (elementSizes type num) length)) user buffer ∧
    o.bytes = o.moves.length ∧ o.bytes ≤ length ∧ ∀ l ∈ o.lengths, 0 ≤ l

theorem length_take_whole (type : DataType) (num len : Nat) :
    ((elements type num).take (whole (elementSizes type num) len)).length =
      whole (elementSizes type num) len := by
  have hle := @whole_le_sum (elementSizes type num) len
  rw [sum_elementSizes] at hle
  rw [length_take, length_elements]
  omega

theorem staysInside_of_fits (hplaced : Placed type) (h : Fits type num len) :
    StaysInside type num len := by
  intro user buf
  obtain ⟨o, ho, hbytes, hmoves, hlengths⟩ := h.stays hplaced user buf
  have hwhole := @whole_le (elementSizes type num) len
  have hlen := length_take_whole type num len
  refine ⟨o, ho, fun mv hmv => ?_, hmoves, ?_, by omega, hlengths⟩
  · rw [hmoves] at hmv
    have := consecutive_pairs.bounds hmv
    omega
  · rw [hbytes, hmoves, length_pairs, hlen]

theorem fits_of_staysInside (hplaced : Placed type) (hreg : Regular type)
    (h : StaysInside type num len) : Fits type num len := by
  obtain ⟨o, ho, -, hmoves, hbytes, -, hlengths⟩ := h 0 0
  have hstays : Stays o (elements type num) (elementSizes type num) 0 0 len :=
    ⟨by rw [hbytes, hmoves, length_pairs, length_take_whole], hmoves, hlengths⟩
  refine (fits_or_spoiled hplaced hreg 0 0 num len o ho).resolve_right (hstays.not_spoiled ?_)
  rw [length_elements, sum_elementSizes]

/-- A datatype that is placed where `serialize` expects it stays inside the message where the
condition holds; if it is regular, only there. -/
theorem staysInside_iff_fits {type : DataType} (num length : Nat) (hplaced : Placed type) :
    (Fits type num length → StaysInside type num length) ∧
      (Regular type → (StaysInside type num length ↔ Fits type num length)) :=
  ⟨staysInside_of_fits hplaced,
    fun hregular => ⟨fits_of_staysInside hplaced hregular, staysInside_of_fits hplaced⟩⟩

/-- An element without gaps whose extent is its size is followed directly by the next one. -/
theorem elements_of_dense (hmap : typeMap type = (List.range type.size).map Int.ofNat)
    (hextent : type.extent = type.size) :
    elements type num = (List.range (num * type.size)).map Int.ofNat := by
  induction num with
  | zero => rw [Nat.zero_mul]; rfl
  | succ num ih =>
    rw [elements, repeated_succ, ← elements, ih, hmap, hextent, Nat.succ_mul, Nat.add_comm,
      List.range_add, map_append, List.map_map, List.map_map]
    rfl

theorem placed_basicType (mark : Mark) (size : Nat) : Placed (basicType mark size) := by
  constructor
  · intro _ num
    exact elements_of_dense rfl rfl
  -- a basic type has no parts
  · exact forall_mem_nil _
  · exact forall_mem_nil _

/-- A message with three of four integers that are not next to each other is read right. -/
theorem staysInside_iff_fits_vector : Fits (newVector 2 1 2 (basicType .data 4)) 2 12 ∧
      StaysInside (newVector 2 1 2 (basicType .data 4)) 2 12 := by
  have hint (length : Nat) (h : 4 ≤ length) : Fits (basicType .data 4) 1 length := .all rfl rfl h
  have hfits : Fits (newVector 2 1 2 (basicType .data 4)) 2 12 := by
    refine .parts (fun h => h) rfl (.next (hint 12 (by decide)) (by decide) ?_ (by decide))
    refine .next (hint 8 (by decide)) (by decide) ?_ (by decide)
    exact .stop (hint 4 (by decide)) rfl
  have hplaced : Placed (newVector 2 1 2 (basicType .data 4)) := by
    refine .mk (fun h => absurd h (by decide)) (fun p hp => ?_) fun p hp => ?_
    all_goals obtain ⟨i, -, rfl⟩ := mem_map.1 hp
    · exact .inr rfl
    · exact placed_basicType .data 4
  exact ⟨hfits, (staysInside_iff_fits 2 12 hplaced).1 hfits⟩

/-- Three contiguous integers are asked for and the message holds one: the result is 12, not 4. -/
theorem contiguous_short_beyond :
    Placed (newContiguous 3 (basicType .data 4)) ∧ ¬StaysInside
    (newContiguous 3 (basicType .data 4)) 1 4 := by
  refine ⟨.mk (fun _ _ => elements_of_dense (by decide) rfl) (by decide) fun p hp => ?_,
    fun h => ?_⟩
  · rw [mem_singleton.1 hp]
    exact placed_basicType .data 4
  · obtain ⟨o, ho, -, -, -, hle, -⟩ := h 0 0
    obtain rfl := some.inj ho
    exact absurd hle (by decide)

end CharmRuntime.TypeMap
