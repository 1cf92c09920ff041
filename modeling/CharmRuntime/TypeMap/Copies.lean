import CharmRuntime.TypeMap.Packing

/-!
# Duplicated and resized datatypes

`createDup` and `createResized` make their objects with the copy constructor of `CkDDT_DataType`.
Its arguments `_lb` and `_extent` are 0 where they are not given, as in the copy constructors of the
derived classes, which are implicit; and it calls `setSize` with them. So a duplicate has extent 0,
whatever the extent of its original is, while `createResized` sets the bounds afterwards.
`copies_kept_iff` says which copies keep the layout.
-/

set_option autoImplicit false

namespace CharmRuntime.TypeMap

/-! ## Copies -/

section Bounds

variable (type : DataType) (lb extent lb' extent' : Int)

theorem createResized_createResized :
    createResized (createResized type lb extent) lb' extent' = createResized type lb' extent' := by
  cases type <;> rfl

theorem bounds_createResized :
    (createResized type lb extent).bounds.lb = lb ∧
    (createResized type lb extent).bounds.ub = lb + extent ∧
      (createResized type lb extent).extent = extent := by
  cases type <;> exact ⟨rfl, rfl, rfl⟩

theorem size_createResized : (createResized type lb extent).size = type.size := by
  cases type <;> simp only [createResized, DataType.withBounds, DataType.size]

theorem typeMap_createResized : typeMap (createResized type lb extent) = typeMap type := by
  cases type <;> simp only [createResized, DataType.withBounds, typeMap]

end Bounds

/-- A datatype with the bounds of the bytes that it serializes. A basic type has the flag that
`setSize` would give it. -/
structure Object where
  type : DataType
  trueLB : Int
  trueExtent : Int
  basic_eq : type.IsBasic → createResized type type.bounds.lb type.extent = type

namespace Object

variable (t : Object) (lb extent : Int)

/-- `setSize`. -/
def setSize : Object where
  type := TypeMap.createResized t.type lb extent
  trueLB := t.trueLB
  trueExtent := t.trueExtent
  basic_eq _ := by
    obtain ⟨hlb, -, hextent⟩ := bounds_createResized t.type lb extent
    rw [createResized_createResized, hlb, hextent]

/-- The copy constructor of `CkDDT_DataType`. -/
def copy : Object :=
  if (lb ≠ 0 ∨ lb ≠ t.type.bounds.lb) ∨ extent ≠ 0 ∨ extent ≠ t.type.extent then t.setSize lb extent
  else t

/-- `createDup`. -/
def createDup : Object := t.copy 0 0

/-- `createResized`: the constructor of a basic type gets the new bounds, those of the other types
do not. -/
def createResized : Object :=
  match t.type with
  | .basic _ _ _ => t.copy lb extent
  | _ => (t.copy 0 0).setSize lb extent

/-! ## What is kept -/

/-- `d` has the size, the bounds and the layout of `t`. -/
def Duplicated (d : Object) : Prop :=
  d.type.size = t.type.size ∧ d.type.bounds.lb = t.type.bounds.lb ∧
    d.type.bounds.ub = t.type.bounds.ub ∧
    d.type.extent = t.type.extent ∧ d.trueLB = t.trueLB ∧ d.trueExtent = t.trueExtent ∧
    serialize d.type = serialize t.type

/-- `r` has the new bounds, and packs any number of elements with the type map of `t` at the new
extent. -/
def Resized (r : Object) : Prop :=
  r.type.bounds.lb = lb ∧ r.type.bounds.ub = lb + extent ∧ r.type.extent = extent ∧
    typeMap r.type = typeMap t.type ∧ ∀ num, Right r.type num

/-- What is expected of both copies. -/
def Kept : Prop := t.Duplicated t.createDup ∧ t.Resized lb extent (t.createResized lb extent)

/-- There are no bounds to lose, and the layout is packed right with the new ones. -/
def Copyable : Prop :=
  (t.type.bounds.lb = 0 ∧ t.type.extent = 0) ∧
    ∀ num, Sound (TypeMap.createResized t.type lb extent) num (num * t.type.size)

theorem duplicated_iff : t.Duplicated t.createDup ↔ t.type.bounds.lb = 0 ∧ t.type.extent = 0 := by
  rw [createDup, copy]
  split_ifs with hset
  · constructor
    · rintro ⟨-, hlb, -, hextent, -⟩
      obtain ⟨hzero, -, hzero'⟩ := bounds_createResized t.type 0 0
      exact ⟨hlb.symm.trans hzero, hextent.symm.trans hzero'⟩
    · intro hbounds
      exact absurd hset (by simp [hbounds])
  · -- The object is copied as it is.
    refine ⟨fun _ => ?_, fun _ => ⟨rfl, rfl, rfl, rfl, rfl, rfl, rfl⟩⟩
    push Not at hset
    exact ⟨hset.1.2.symm, hset.2.2.symm⟩

theorem type_createResized : (t.createResized lb extent).type =
    TypeMap.createResized t.type lb extent := by
  have hcopy : ∀ lb' extent', TypeMap.createResized (t.copy lb' extent').type lb extent =
      TypeMap.createResized t.type lb extent := by
    intro lb' extent'
    rw [copy]
    split_ifs
    · exact createResized_createResized _ _ _ _ _
    · rfl
  rw [createResized]
  split
  case h_2 => exact hcopy 0 0
  case h_1 hbasic =>
    rw [copy]
    split_ifs with hset
    · rfl
    · -- All bounds are zero, so `setSize` would change nothing.
      push Not at hset
      obtain ⟨⟨hlb, hlb'⟩, hextent, hextent'⟩ := hset
      rw [hlb', hextent']
      exact (t.basic_eq (by rw [hbasic]; trivial)).symm

theorem resized_iff : t.Resized lb extent (t.createResized lb extent) ↔
    ∀ num, Right (TypeMap.createResized t.type lb extent) num := by
  rw [Resized, type_createResized]
  obtain ⟨hlb, hub, hextent⟩ := bounds_createResized t.type lb extent
  exact ⟨fun h => h.2.2.2.2, fun h => ⟨hlb, hub, hextent, typeMap_createResized _ _ _, h⟩⟩

/-- Both copies keep the layout where the condition holds; where the new one is regular, only
there. -/
theorem copies_kept_iff : (t.Copyable lb extent → t.Kept lb extent) ∧
    (Regular (TypeMap.createResized t.type lb extent) →
      (t.Kept lb extent ↔ t.Copyable lb extent)) := by
  have hsize := size_createResized t.type lb extent
  have hkept : t.Copyable lb extent → t.Kept lb extent := fun ⟨hbounds, hsound⟩ =>
    ⟨t.duplicated_iff.2 hbounds, (t.resized_iff lb extent).2 fun num => right_of_sound (by
      rw [hsize]
      exact hsound num)⟩
  refine ⟨hkept, fun hregular =>
    ⟨fun ⟨hdup, hresized⟩ => ⟨t.duplicated_iff.1 hdup, fun num => ?_⟩, hkept⟩⟩
  rw [← hsize]
  exact sound_of_right hregular ((t.resized_iff lb extent).1 hresized num)

/-- `MPI_INT`. -/
def int : Object := ⟨basicType .data 4, 0, 4, fun _ => rfl⟩

/-- A duplicate has no extent any more, so it is duplicated right and can be resized. -/
theorem copies_kept_iff_duplicate : int.createDup.Kept 0 8 ∧ int.createDup.Copyable 0 8 := by
  have hcopyable : int.createDup.Copyable 0 8 :=
    ⟨⟨rfl, rfl⟩, fun num => .basic trivial rfl rfl⟩
  have hregular : Regular (TypeMap.createResized int.createDup.type 0 8) :=
    regular_of_isUniform rfl fun base hbase => absurd hbase (Option.not_mem_none base)
  have h := copies_kept_iff int.createDup 0 8
  exact ⟨h.1 hcopyable, (h.2 hregular).1 (h.1 hcopyable)⟩

/-- The duplicate of an integer has extent 0. -/
theorem int_duplicate_extent : ¬int.Duplicated int.createDup := by
  rintro ⟨-, -, -, hextent, -⟩
  exact absurd hextent (by decide)

end Object

end CharmRuntime.TypeMap
