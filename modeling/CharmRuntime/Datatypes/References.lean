import CharmRuntime.Datatypes.Table
import CharmRuntime.Lib.RefCount

/-!
# References to datatypes

Every handle of the user and every datatype made of others counts as one reference to an object, and
an object is deleted when the last one is given up. This is reference counting as `Lib.RefCount`
describes it, with one complication: the references are indices into a table whose slots are used
again. `Good` joins the counts and the table. It is kept by `incRefCount` and `insertType`, and by
`freeType` with all the objects that it deletes (`freeTypeAt_good`).

The copy constructor breaks it in two ways: it does not count the references of a copied struct to
its members, and copies of basic types are not counted at all. Without such copies, and while a
count has room for the references that a call makes, no datatype is deleted too early or never
(`datatypes_live_while_referred`).
-/

set_option autoImplicit false

namespace CharmRuntime.Datatypes

open Lib RefCount Function List Option

/-! ## Views -/

/-- The address of a user-defined type. -/
def Pointer.address? : Pointer → Option Nat
  | .predefined _ => none
  | .user address => some address

/-- The addresses that references lead to. -/
def targets (bases : List Base) : List Nat := bases.filterMap (·.type.address?)

/-- What reference counting sees of an object. -/
def DataType.cell (type : DataType) : Cell := ⟨type.refCount.toNat, targets type.bases⟩

/-- What reference counting sees of the objects. -/
def CkDDT.cells (ddt : CkDDT) (address : Nat) : Option Cell := (ddt.heap address).map DataType.cell

/-- The index leads to the object. -/
def CkDDT.Refers (ddt : CkDDT) (base : Base) : Prop := ddt.getType base.index = some base.type

/-- What is true of every object: it is counted, the count has not wrapped around, and a struct has
members instead of a base. -/
def DataType.Counted (type : DataType) : Prop :=
  type.kind ≠ .basic ∧ 0 ≤ type.refCount ∧ (type.kind = .struct → type.base = none)

/-- The counts are right, and the table has one slot for each object. -/
structure Good (ddt : CkDDT) (dying : List Nat) (loose : List Base) : Prop where
  balanced : Balanced ddt.cells ddt.next dying (targets loose)
  aligned : ddt.types.map isSome = ddt.userTypeTable.map isSome
  slot_live : ∀ i a, ddt.slot i = some a → ∃ type, ddt.heap a = some type
  live_slot : ∀ a type, ddt.heap a = some type → ∃ i, ddt.slot i = some a
  slot_inj : ∀ i j a, ddt.slot i = some a → ddt.slot j = some a → i = j
  counted : ∀ a type, ddt.heap a = some type → type.Counted
  loose_refer : ∀ b ∈ loose, ddt.Refers b
  bases_refer : ∀ a type, ddt.heap a = some type → a ∉ dying → ∀ b ∈ type.bases, ddt.Refers b

variable {ddt ddt' : CkDDT} {dying : List Nat} {loose bs : List Base} {b : Base} {a i : Nat}
  {type : DataType}

@[simp]
theorem targets_cons_user (h : b.type = .user a) : targets (b :: bs) = a :: targets bs := by
  simp [targets, h, Pointer.address?]

variable {index : Nat} {loose' : List Base}

@[simp]
theorem targets_cons_predefined (h : b.type = .predefined index) :
    targets (b :: bs) = targets bs := by
  simp [targets, h, Pointer.address?]

@[simp]
theorem targets_append (bs' : List Base) : targets (bs ++ bs') = targets bs ++ targets bs' :=
  filterMap_append

theorem mem_targets : a ∈ targets bs ↔ ∃ b ∈ bs, b.type = .user a := by
  simp only [targets, mem_filterMap]
  refine exists_congr fun b => and_congr_right fun _ => ?_
  cases b.type <;> simp [Pointer.address?]

theorem cells_some (h : ddt.heap a = some type) : ddt.cells a = some type.cell := by
  rw [CkDDT.cells, h]
  rfl

theorem cells_update {o : Option DataType} (hheap : ddt'.heap = update ddt.heap a o) :
    ddt'.cells = update ddt.cells a (o.map DataType.cell) := by
  funext q
  rw [CkDDT.cells, hheap]
  exact apply_update (fun _ o => o.map DataType.cell) ddt.heap a o q

/-- Changing the count of an object does not change what it refers to. -/
theorem cell_recount (n : Nat) :
    ({ type with refCount := n } : DataType).cell = { type.cell with count := n } := rfl

theorem DataType.Counted.recount (h : type.Counted) (n : Nat) :
    ({ type with refCount := n } : DataType).Counted :=
  ⟨h.1, Int.natCast_nonneg n, h.2.2⟩

theorem exists_of_cells {c : Cell} (h : ddt.cells a = some c) :
    ∃ type, ddt.heap a = some type ∧ c = type.cell := by
  obtain ⟨type, htype, hc⟩ := map_eq_some_iff.1 h
  exact ⟨type, htype, hc.symm⟩

/-! ## The table -/

theorem getType_user (h : ddt.getType b.index = some (.user a)) :
    ¬b.index ≤ maxPredefinedType ∧ ddt.slot (b.index - maxPredefinedType - 1) = some a := by
  unfold CkDDT.getType at h
  split at h
  · simp at h
  · obtain ⟨a', ha, heq⟩ := map_eq_some_iff.1 h
    exact ⟨‹_›, by rw [ha, Pointer.user.inj heq]⟩

theorem refers_iff_user (h : b.type = .user a) : ddt.Refers b ↔ ¬b.index ≤ maxPredefinedType ∧
      ddt.slot (b.index - maxPredefinedType - 1) = some a := by
  rw [CkDDT.Refers, h]
  refine ⟨getType_user, fun ⟨hindex, hslot⟩ => ?_⟩
  rw [CkDDT.getType, if_neg hindex, hslot]
  rfl

theorem refers_iff_predefined (h : b.type = .predefined index) :
    ddt.Refers b ↔ b.index ≤ maxPredefinedType ∧ b.index = index := by
  rw [CkDDT.Refers, h, CkDDT.getType]
  split
  · simp [*]
  · simp [*, map_eq_some_iff]

/-- References stay good as long as the slots of their objects do. -/
theorem CkDDT.Refers.keep (h : ddt.Refers b)
    (hslot : ∀ i a, b.type = .user a → ddt.slot i = some a → ddt'.slot i = some a) :
    ddt'.Refers b := by
  cases hb : b.type with
  | predefined index => exact (refers_iff_predefined hb).2 ((refers_iff_predefined hb).1 h)
  | user a =>
    obtain ⟨hindex, hs⟩ := (refers_iff_user hb).1 h
    exact (refers_iff_user hb).2 ⟨hindex, hslot _ a hb hs⟩

theorem sameSize_of_aligned (h : ddt.types.map isSome = ddt.userTypeTable.map isSome) :
    ddt.sameSize = true := by
  simpa [CkDDT.sameSize] using congrArg List.length h

/-! ## Counting -/

theorem heap_store_of_ne {q : Nat} (hq : q ≠ a) : (ddt.store a type).heap q = ddt.heap q :=
  update_of_ne hq _ _

theorem heap_store_self : (ddt.store a type).heap a = some type := update_self _ _ _

section

variable (h : Good ddt dying loose)

include h

/-- The count of an object is changed. -/
theorem Good.recount (ha : ddt.heap a = some type) {n : Nat} {dying' : List Nat}
    (hbal : Balanced (update ddt.cells a (some { type.cell with count := n })) ddt.next
      dying' (targets loose'))
    (hdying : ∀ q, q ∉ dying' → q ∉ dying) (hloose : ∀ b ∈ loose', ddt.Refers b) :
    Good (ddt.store a { type with refCount := n }) dying' loose' := by
  -- Every object is an old one, but for its count.
  have hold : ∀ q t, (ddt.store a { type with refCount := n }).heap q = some t →
      ∃ t0, ddt.heap q = some t0 ∧ (t0.Counted → t.Counted) ∧ t.bases = t0.bases := by
    intro q t hq
    rcases eq_or_ne q a with rfl | hne
    · rw [heap_store_self, some.injEq] at hq
      exact ⟨type, ha, fun hcounted => hq ▸ hcounted.recount n, by rw [← hq]; rfl⟩
    · rw [heap_store_of_ne hne] at hq
      exact ⟨t, hq, id, rfl⟩
  constructor
  case balanced =>
    rw [cells_update (a := a) (o := some { type with refCount := n }) rfl, map_some, cell_recount]
    exact hbal
  case aligned => exact h.aligned
  case slot_live =>
    intro j q hslot
    rcases eq_or_ne q a with rfl | hne
    · exact ⟨_, heap_store_self⟩
    · rw [heap_store_of_ne hne]
      exact h.slot_live j q hslot
  case live_slot =>
    intro q t hq
    obtain ⟨t0, ht0, -⟩ := hold q t hq
    exact h.live_slot q t0 ht0
  case slot_inj => exact h.slot_inj
  case counted =>
    intro q t hq
    obtain ⟨t0, ht0, hcounted, -⟩ := hold q t hq
    exact hcounted (h.counted q t0 ht0)
  case loose_refer => exact hloose
  case bases_refer =>
    intro q t hq hd b hb
    obtain ⟨t0, ht0, -, hbases⟩ := hold q t hq
    exact h.bases_refer q t0 ht0 (hdying q hd) b (hbases ▸ hb)

/-- What a reference leads to is counted. -/
theorem Good.exists_of_mem (hb : b ∈ loose) (hu : b.type = .user a) :
    ∃ type, ddt.heap a = some type ∧ a ∉ dying ∧ 0 < type.refCount := by
  obtain ⟨c, hc, hd, hpos⟩ := h.balanced.exists_of_mem (mem_targets.2 ⟨b, hb, hu⟩)
  obtain ⟨type, htype, rfl⟩ := exists_of_cells hc
  exact ⟨type, htype, hd, Int.pos_iff_toNat_pos.2 hpos⟩

theorem Good.perm (hperm : loose.Perm loose') : Good ddt dying loose' :=
  { h with
    balanced := h.balanced.perm (hperm.filterMap _)
    loose_refer := fun b hb => h.loose_refer b (hperm.mem_iff.2 hb) }

/-- Predefined types are referred to without a count. -/
theorem Good.add_predefined (hb : ddt.Refers b)
    (hp : b.type = .predefined index) : Good ddt dying (b :: loose) :=
  { h with
    balanced := by rw [targets_cons_predefined hp]; exact h.balanced
    loose_refer := fun b' hb' => (mem_cons.1 hb').elim (fun heq => heq ▸ hb) (h.loose_refer b') }

end

theorem Good.drop_predefined (h : Good ddt dying (b :: loose)) (hp : b.type = .predefined index) :
    Good ddt dying loose :=
  { h with
    balanced := by
      have hbal := h.balanced
      rwa [targets_cons_predefined hp] at hbal
    loose_refer := fun b' hb' => h.loose_refer b' (mem_cons_of_mem b hb') }

/-- The counts have room for more references. -/
def CkDDT.Room (ddt : CkDDT) (bs : List Base) : Prop :=
  ∀ a, countAt ddt.cells a + (targets bs).count a < 2 ^ 31

/-- An object that is not dying has a reference. -/
theorem Good.refCount_pos (h : Good ddt [] loose) (ha : ddt.heap a = some type) :
    0 < type.refCount := by
  rw [Int.pos_iff_toNat_pos]
  refine Nat.pos_of_ne_zero fun hzero => ?_
  exact absurd ((h.balanced.dying_iff a _ (cells_some ha)).2 hzero) not_mem_nil

/-- `incRefCount` makes one more reference. -/
theorem Good.incRefCount (h : Good ddt [] loose) (hb : ddt.Refers b) (hroom : ddt.Room (b :: bs)) :
    ∃ ddt', ddt.incRefCount b.type = some ddt' ∧ Good ddt' [] (b :: loose) ∧
      (∀ b', ddt'.Refers b' ↔ ddt.Refers b') ∧ ddt'.Room bs := by
  cases hp : b.type with
  | predefined index =>
    refine ⟨ddt, rfl, h.add_predefined hb hp, fun _ => Iff.rfl, fun q => ?_⟩
    have hq := hroom q
    rwa [targets_cons_predefined hp] at hq
  | user a =>
    obtain ⟨-, hslot⟩ := (refers_iff_user hp).1 hb
    obtain ⟨type, htype⟩ := h.slot_live _ a hslot
    have hpos := h.refCount_pos htype
    -- the count does not wrap around
    have hcount : countAt ddt.cells a = type.refCount.toNat := countAt_some (cells_some htype)
    have hnext : Words.toInt32 (type.refCount + 1) = ((type.refCount.toNat + 1 : Nat) : Int) := by
      have ha := hroom a
      rw [targets_cons_user hp, count_cons_self, hcount] at ha
      rw [Words.toInt32_of_range] <;> omega
    refine ⟨ddt.store a { type with refCount := (type.refCount.toNat + 1 : Nat) }, ?_, ?_,
      fun _ => Iff.rfl, fun q => ?_⟩
    · rw [CkDDT.incRefCount, htype, bind_some, if_pos hpos,
        if_neg (h.counted a type htype).1, hnext]
    · refine h.recount htype ?_ (fun _ hd => hd) fun b' hb' => ?_
      · rw [targets_cons_user hp]
        exact h.balanced.share (cells_some htype) not_mem_nil
      · exact (mem_cons.1 hb').elim (fun heq => heq ▸ hb) (h.loose_refer b')
    · have hq := hroom q
      rw [targets_cons_user hp] at hq
      rcases eq_or_ne q a with rfl | hne
      · rw [count_cons_self, hcount] at hq
        rw [countAt_some (cells_some heap_store_self), cell_recount]
        dsimp only
        omega
      · rw [count_cons_of_ne hne.symm] at hq
        rwa [countAt, CkDDT.cells, heap_store_of_ne hne]

theorem Good.incRefCounts (h : Good ddt [] loose) (hbs : ∀ b ∈ bs, ddt.Refers b)
    (hroom : ddt.Room bs) :
    ∃ ddt', ddt.incRefCounts bs = some ddt' ∧ Good ddt' [] (bs ++ loose) := by
  induction bs generalizing ddt loose with
  | nil => exact ⟨ddt, rfl, h⟩
  | cons b bs ih =>
    obtain ⟨ddt1, hinc, h1, hrefers1, hroom1⟩ := h.incRefCount (hbs b mem_cons_self) hroom
    obtain ⟨ddt', hincs, h'⟩ :=
      ih h1 (fun b' hb' => (hrefers1 b').2 (hbs b' (mem_cons_of_mem b hb'))) hroom1
    refine ⟨ddt', ?_, ?_⟩
    · rw [CkDDT.incRefCounts, foldlM_cons, hinc]
      exact hincs
    · exact h'.perm perm_middle

/-! ## New objects -/

variable {table : List (Option Nat)} {o : Option Nat} {oldType : Nat} {oldTypes : List Nat}
  {s : System}

theorem slot_set (hi : i < table.length) :
    (fun j => ((table.set i o)[j]?).join) = update (fun j => (table[j]?).join) i o := by
  funext j
  rcases eq_or_ne j i with rfl | hne
  · rw [update_self, getElem?_set_self hi]
    rfl
  · rw [update_of_ne hne, getElem?_set_ne hne.symm]

theorem slot_concat : (fun j => ((table ++ [o])[j]?).join) =
    update (fun j => (table[j]?).join) table.length o := by
  funext j
  rcases lt_trichotomy j table.length with hlt | rfl | hgt
  · rw [update_of_ne hlt.ne, getElem?_append_left hlt]
  · simp
  · rw [update_of_ne hgt.ne', getElem?_eq_none (by simp; omega), getElem?_eq_none hgt.le]

/-- `insertType` finds a slot that is not in use. -/
theorem insertType_slot (haligned : ddt.types.map isSome = ddt.userTypeTable.map isSome)
    (type : DataType) :
    ∃ ddt' i, ddt.insertType type = some (ddt', maxPredefinedType + 1 + i) ∧ ddt.slot i = none ∧
      ddt'.slot = update ddt.slot i (some ddt.next) ∧
      ddt'.types.map isSome = ddt'.userTypeTable.map isSome ∧
      ddt'.heap = update ddt.heap ddt.next (some type) ∧ ddt'.next = ddt.next + 1 := by
  have hlen : ddt.types.length = ddt.userTypeTable.length := by
    simpa using congrArg List.length haligned
  rw [CkDDT.insertType, if_pos (sameSize_of_aligned haligned)]
  cases hfind : ddt.types.findIdx? isNone with
  | some i =>
    obtain ⟨hi, hnone, -⟩ := findIdx?_eq_some_iff_getElem.1 hfind
    have hi' : i < ddt.userTypeTable.length := hlen ▸ hi
    refine ⟨_, i, rfl, ?_, slot_set hi', ?_, rfl, rfl⟩
    · have hsome : (ddt.types.map isSome)[i]? = (ddt.userTypeTable.map isSome)[i]? := by
        rw [haligned]
      rw [getElem?_map, getElem?_map, getElem?_eq_getElem hi,
        getElem?_eq_getElem hi', map_some, map_some, some.injEq] at hsome
      rw [CkDDT.slot, getElem?_eq_getElem hi']
      simpa [isNone_iff_eq_none.1 hnone] using hsome.symm
    · simp only [map_set, haligned, isSome_some]
  | none =>
    have hindex : maxPredefinedType + (ddt.types.length + 1) =
        maxPredefinedType + 1 + ddt.types.length := by omega
    rw [hindex]
    refine ⟨_, ddt.types.length, rfl, ?_, ?_, ?_, rfl, rfl⟩
    · rw [CkDDT.slot, getElem?_eq_none hlen.ge]
      rfl
    · rw [hlen]
      exact slot_concat
    · simp [haligned]

theorem Good.heap_next (h : Good ddt dying loose) : ddt.heap ddt.next = none := by
  cases hnext : ddt.heap ddt.next with
  | none => rfl
  | some type => exact absurd (h.balanced.bounded _ _ (cells_some hnext)) (lt_irrefl _)

/-- A new object takes over the references to the datatypes that it is made of, and the user gets
one. -/
theorem Good.insertType (h : Good ddt [] (type.bases ++ loose)) (hcount : type.refCount = 1)
    (hcounted : type.Counted) : ∃ made, ddt.insertType type = some made ∧
      Good made.1 [] (⟨made.2, .user (made.1.next - 1)⟩ :: loose) := by
  obtain ⟨ddt', i, hmade, hfree, hslot, haligned, hheap, hnext⟩ := insertType_slot h.aligned type
  refine ⟨_, hmade, ?_⟩
  simp only [hnext, Nat.add_sub_cancel]
  have hlive : ∀ j a, ddt.slot j = some a → a ≠ ddt.next := by
    rintro j a hj rfl
    obtain ⟨t, ht⟩ := h.slot_live j _ hj
    rw [h.heap_next] at ht
    cases ht
  have hkeep : ∀ j a, ddt.slot j = some a → ddt'.slot j = some a := fun j a hj => by
    rw [hslot, update_of_free hfree hj]
  have hslots : ∀ j a, ddt'.slot j = some a → j = i ∧ a = ddt.next ∨ j ≠ i ∧ ddt.slot j = some a :=
    fun j a hj => update_some_cases (hslot ▸ hj)
  have hobjects : ∀ a t, ddt'.heap a = some t → a = ddt.next ∧ t = type ∨
      a ≠ ddt.next ∧ ddt.heap a = some t :=
    fun a t ha => update_some_cases (hheap ▸ ha)
  constructor
  case balanced =>
    rw [cells_update hheap, hnext, targets_cons_user rfl, map_some, DataType.cell, hcount]
    have hbal := h.balanced
    rw [targets_append] at hbal
    exact hbal.alloc
  case aligned => exact haligned
  case slot_live =>
    intro j a hj
    rw [hheap]
    rcases hslots j a hj with ⟨-, rfl⟩ | ⟨-, hj⟩
    · exact ⟨type, update_self ..⟩
    · rw [update_of_ne (hlive j a hj)]
      exact h.slot_live j a hj
  case live_slot =>
    intro a t ha
    rcases hobjects a t ha with ⟨rfl, -⟩ | ⟨-, ha⟩
    · exact ⟨i, by rw [hslot, update_self]⟩
    · obtain ⟨j, hj⟩ := h.live_slot a t ha
      exact ⟨j, hkeep j a hj⟩
  case slot_inj =>
    intro j k a hj hk
    rcases hslots j a hj with ⟨hj, ha⟩ | ⟨-, hj⟩ <;> rcases hslots k a hk with ⟨hk, ha'⟩ | ⟨-, hk⟩
    · exact hj.trans hk.symm
    · exact absurd ha (hlive k a hk)
    · exact absurd ha' (hlive j a hj)
    · exact h.slot_inj j k a hj hk
  case counted =>
    intro a t ha
    rcases hobjects a t ha with ⟨-, rfl⟩ | ⟨-, ha⟩
    · exact hcounted
    · exact h.counted a t ha
  case loose_refer =>
    refine forall_mem_cons.2 ⟨(refers_iff_user rfl).2 ⟨by dsimp only; omega, ?_⟩, fun b hb => ?_⟩
    · rw [hslot, Nat.sub_sub, Nat.add_sub_cancel_left, update_self]
    · exact (h.loose_refer b (mem_append_right _ hb)).keep fun j a _ hj => hkeep j a hj
  case bases_refer =>
    intro a t ha _ b hb
    rcases hobjects a t ha with ⟨-, rfl⟩ | ⟨-, ha⟩
    · exact (h.loose_refer b (mem_append_left _ hb)).keep fun j a _ hj => hkeep j a hj
    · exact (h.bases_refer a t ha not_mem_nil b hb).keep fun j a _ hj => hkeep j a hj

/-! ## Deletion -/

/-- The loop removes null pointers only. -/
theorem trimBack_eq {types : List (Option Kind)} (h : types.map isSome = table.map isSome) :
    ∃ table' types' n, CkDDT.trimBack table types = some (table', types') ∧
      table = replicate n none ++ table' ∧ types'.map isSome = table'.map isSome := by
  induction table generalizing types with
  | nil => exact ⟨[], types, 0, by simp [CkDDT.trimBack], rfl, h⟩
  | cons o table ih =>
    cases types with
    | nil => simp at h
    | cons type types =>
      rw [map_cons, map_cons, List.cons.injEq] at h
      cases o with
      | none =>
        obtain ⟨table', types', n, htrim, htable, haligned⟩ := ih h.2
        refine ⟨table', types', n + 1, ?_, by rw [replicate_succ, cons_append, ← htable], haligned⟩
        obtain rfl : type = none := not_isSome_iff_eq_none.1 (Bool.eq_false_iff.1 h.1)
        rw [CkDDT.trimBack, isNone_none, if_pos rfl, htrim]
      | some a =>
        exact ⟨some a :: table, type :: types, 0, by simp [CkDDT.trimBack], rfl,
          by rw [map_cons, map_cons, h.1, h.2]⟩

theorem join_getElem?_append_replicate (n j : Nat) :
    ((table ++ replicate n none)[j]?).join = (table[j]?).join := by
  rcases lt_or_ge j table.length with hlt | hge
  · rw [getElem?_append_left hlt]
  · rw [getElem?_append_right hge, getElem?_eq_none hge, getElem?_replicate]
    split <;> rfl

theorem delete_slot (haligned : ddt.types.map isSome = ddt.userTypeTable.map isSome)
    (hslot : ddt.slot i = some a) :
    ∃ ddt', ddt.delete i a = some ddt' ∧ ddt'.slot = update ddt.slot i none ∧
      ddt'.types.map isSome = ddt'.userTypeTable.map isSome ∧
      ddt'.heap = update ddt.heap a none ∧ ddt'.next = ddt.next := by
  have hi : i < ddt.userTypeTable.length := by
    by_contra hge
    simp [CkDDT.slot, getElem?_eq_none (not_lt.1 hge)] at hslot
  have hset : (ddt.types.set i none).reverse.map isSome =
      (ddt.userTypeTable.set i none).reverse.map isSome := by
    simp only [map_reverse, map_set, haligned, isSome_none]
  obtain ⟨table, types, n, htrim, htable, haligned'⟩ := trimBack_eq hset
  rw [CkDDT.delete, htrim]
  refine ⟨_, rfl, ?_, ?_, rfl, rfl⟩
  · have hback : ddt.userTypeTable.set i none = table.reverse ++ replicate n none := by
      rw [← reverse_inj, htable, reverse_append, reverse_reverse, reverse_replicate]
    refine Eq.trans (funext fun j => ?_) (slot_set hi)
    rw [CkDDT.slot, ← join_getElem?_append_replicate n, ← hback]
  · simp only [map_reverse, haligned']

/-- A dying object, whose references have been given up, is deleted. -/
theorem Good.delete (h : Good ddt (a :: dying) loose) (hd : a ∉ dying)
    (hslot : ddt.slot i = some a) :
    ∃ ddt', ddt.delete i a = some ddt' ∧ Good ddt' dying loose ∧
      ddt'.slot = update ddt.slot i none ∧ ddt'.heap = update ddt.heap a none ∧
      ddt'.next = ddt.next := by
  obtain ⟨ddt', hdelete, hslot', haligned, hheap, hnext⟩ := delete_slot h.aligned hslot
  have hslots : ∀ j q, ddt'.slot j = some q → j ≠ i ∧ ddt.slot j = some q :=
    fun j q hj => update_none_cases (hslot' ▸ hj)
  have hobjects : ∀ q t, ddt'.heap q = some t → q ≠ a ∧ ddt.heap q = some t :=
    fun q t hq => update_none_cases (hheap ▸ hq)
  have hkeep : ∀ j q, q ≠ a → ddt.slot j = some q → ddt'.slot j = some q := by
    intro j q hq hj
    rw [hslot', update_of_ne, hj]
    rintro rfl
    exact hq (some.inj (hj.symm.trans hslot))
  refine ⟨ddt', hdelete, ?_, hslot', hheap, hnext⟩
  constructor
  case balanced =>
    rw [cells_update hheap, hnext]
    exact h.balanced.delete hd
  case aligned => exact haligned
  case slot_live =>
    intro j q hj
    obtain ⟨hne, hj⟩ := hslots j q hj
    rw [hheap, update_of_ne]
    · exact h.slot_live j q hj
    · rintro rfl
      exact hne (h.slot_inj j i q hj hslot)
  case live_slot =>
    intro q t hq
    obtain ⟨hne, hq⟩ := hobjects q t hq
    obtain ⟨j, hj⟩ := h.live_slot q t hq
    exact ⟨j, hkeep j q hne hj⟩
  case slot_inj => exact fun j k q hj hk => h.slot_inj j k q (hslots j q hj).2 (hslots k q hk).2
  case counted => exact fun q t hq => h.counted q t (hobjects q t hq).2
  case loose_refer =>
    intro b hb
    refine (h.loose_refer b hb).keep fun j q hbq hj => hkeep j q ?_ hj
    obtain ⟨-, -, hq, -⟩ := h.exists_of_mem hb hbq
    exact fun heq => hq (heq ▸ mem_cons_self)
  case bases_refer =>
    intro q t hq hdq b hb
    obtain ⟨hne, hq⟩ := hobjects q t hq
    have hdq' : q ∉ a :: dying := not_mem_cons_of_ne_of_not_mem hne hdq
    refine (h.bases_refer q t hq hdq' b hb).keep fun j r hbr hj => hkeep j r ?_ hj
    obtain ⟨-, -, hr, -⟩ :=
      h.balanced.exists_of_ref (cells_some hq) hdq' (mem_targets.2 ⟨b, hb, hbr⟩)
    exact fun heq => hr (heq ▸ mem_cons_self)

/-! ## Freeing -/

/-- The depth of recursion that freeing a reference may need. -/
def Base.depth (b : Base) : Nat := b.type.address?.elim 1 (· + 2)

/-- What `freeType` does not touch: the objects that are being deleted, and their slots. -/
structure Keeps (dying : List Nat) (ddt ddt' : CkDDT) : Prop where
  heap : ∀ a ∈ dying, ddt'.heap a = ddt.heap a
  slot : ∀ i, ∀ a ∈ dying, ddt.slot i = some a → ddt'.slot i = some a
  next : ddt'.next = ddt.next

theorem Keeps.refl (dying : List Nat) (ddt : CkDDT) : Keeps dying ddt ddt :=
  ⟨fun _ _ => rfl, fun _ _ _ h => h, rfl⟩

theorem Keeps.trans {ddt'' : CkDDT} (h : Keeps dying ddt ddt') (h' : Keeps dying ddt' ddt'') :
    Keeps dying ddt ddt'' where
  heap a ha := (h'.heap a ha).trans (h.heap a ha)
  slot i a ha hi := h'.slot i a ha (h.slot i a ha hi)
  next := h'.next.trans h.next

/-- `freeType` gives up one reference, with all that follows. -/
theorem freeTypeAt_good (fuel : Nat) (h : Good ddt dying (b :: loose)) (hfuel : b.depth ≤ fuel) :
    ∃ ddt', CkDDT.freeTypeAt fuel ddt b.index = some ddt' ∧ Good ddt' dying loose ∧
      Keeps dying ddt ddt' := by
  induction fuel generalizing ddt dying b loose with
  | zero =>
    cases hp : b.type <;> simp [Base.depth, hp, Pointer.address?] at hfuel
  | succ fuel ih =>
    -- The loop over the bases of an object.
    have hloop : ∀ (bs : List Base) (ddt : CkDDT) (dying : List Nat) (loose : List Base),
        Good ddt dying (bs ++ loose) → (∀ b ∈ bs, b.depth ≤ fuel) →
        ∃ ddt', bs.foldlM (fun ddt base => CkDDT.freeTypeAt fuel ddt base.index) ddt = some ddt' ∧
          Good ddt' dying loose ∧ Keeps dying ddt ddt' := by
      intro bs
      induction bs with
      | nil => exact fun ddt dying loose h _ => ⟨ddt, rfl, h, Keeps.refl dying ddt⟩
      | cons b bs ihbs =>
        intro ddt dying loose h hdepth
        obtain ⟨ddt1, hfree, h1, hkeeps1⟩ := ih h (hdepth b mem_cons_self)
        obtain ⟨ddt', hfrees, h', hkeeps'⟩ :=
          ihbs ddt1 dying loose h1 fun b' hb' => hdepth b' (mem_cons_of_mem b hb')
        refine ⟨ddt', ?_, h', hkeeps1.trans hkeeps'⟩
        rw [foldlM_cons, hfree]
        exact hfrees
    have hrefers := h.loose_refer b mem_cons_self
    rw [CkDDT.freeTypeAt, if_pos (sameSize_of_aligned h.aligned)]
    cases hp : b.type with
    | predefined index =>
      rw [if_pos ((refers_iff_predefined hp).1 hrefers).1]
      exact ⟨ddt, rfl, h.drop_predefined hp, Keeps.refl dying ddt⟩
    | user a =>
      obtain ⟨hindex, hslot⟩ := (refers_iff_user hp).1 hrefers
      obtain ⟨type, htype, hd, hpos⟩ := h.exists_of_mem mem_cons_self hp
      have hcell := cells_some htype
      have hbal := h.balanced
      rw [targets_cons_user hp] at hbal
      rw [if_neg hindex]
      dsimp only
      rw [hslot, bind_some, htype, bind_some, if_pos hpos, if_neg (h.counted a type htype).1]
      have hloose : ∀ b' ∈ loose, ddt.Refers b' := fun b' hb' =>
        h.loose_refer b' (mem_cons_of_mem b hb')
      have hne : ∀ q ∈ dying, q ≠ a := fun q hq heq => hd (heq ▸ hq)
      by_cases hone : type.refCount - 1 = 0
      · -- The last reference: the references of the object are given up, then it is deleted.
        rw [if_pos hone, hone]
        have hkill : Good (ddt.store a { type with refCount := 0 }) (a :: dying)
            (type.bases ++ loose) := by
          refine h.recount (n := 0) htype ?_ (fun q hq => fun hq' => hq (mem_cons_of_mem a hq'))
            fun b' hb' => ?_
          · rw [targets_append]
            exact hbal.kill hcell (by simp only [DataType.cell]; omega)
          · exact (mem_append.1 hb').elim (h.bases_refer a type htype hd b') (hloose b')
        have hdepth : ∀ b' ∈ type.bases, b'.depth ≤ fuel := by
          intro b' hb'
          have hfuel' : a + 2 ≤ fuel + 1 := by simpa [Base.depth, hp, Pointer.address?] using hfuel
          cases hp' : b'.type with
          | predefined _ =>
            simp only [Base.depth, hp', Pointer.address?, elim_none]
            omega
          | user q =>
            have hq : q < a := h.balanced.older a _ hcell q (mem_targets.2 ⟨b', hb', hp'⟩)
            simp only [Base.depth, hp', Pointer.address?, elim_some]
            omega
        obtain ⟨ddt1, hfrees, h1, hkeeps1⟩ := hloop _ _ _ _ hkill hdepth
        have hslot1 := hkeeps1.slot _ a mem_cons_self hslot
        obtain ⟨ddt', hdelete, h', hslot', hheap, hnext'⟩ := h1.delete hd hslot1
        refine ⟨ddt', ?_, h', ?_, ?_, hnext'.trans hkeeps1.next⟩
        · rw [hfrees, bind_some, hdelete]
          exact if_pos (sameSize_of_aligned h'.aligned)
        · intro q hq
          rw [hheap, update_of_ne (hne q hq), hkeeps1.heap q (mem_cons_of_mem a hq),
            heap_store_of_ne (hne q hq)]
        · intro j q hq hj
          have hj1 := hkeeps1.slot j q (mem_cons_of_mem a hq) hj
          rw [hslot', update_of_ne, hj1]
          rintro rfl
          exact hne q hq (some.inj (hj1.symm.trans hslot1))
      · rw [if_neg hone]
        have hpred : type.refCount - 1 = ((type.refCount.toNat - 1 : Nat) : Int) := by omega
        refine ⟨_, rfl, ?_, fun q hq => heap_store_of_ne (hne q hq), fun _ _ _ hj => hj, rfl⟩
        rw [hpred]
        exact h.recount htype (hbal.drop hcell (by simp only [DataType.cell]; omega))
          (fun _ hq => hq) hloose

/-! ## The calls -/

/-- The references that a call counts, before it runs. -/
def Call.shares (ddt : CkDDT) : Call → List Base
  | .newDerived _ oldType => ((ddt.getType oldType).map (Base.mk oldType)).toList
  | .newStruct oldTypes =>
    (oldTypes.mapM fun index =>
      (ddt.getType index).map fun pointer => Base.mk index pointer).getD []
  | .createDup oldType | .createResized oldType =>
    ((ddt.getType oldType).bind ddt.deref).elim [] (·.base.toList)
  | .getContents index => ((ddt.getType index).bind ddt.deref).elim [] DataType.bases
  | .freeType _ => []

/-- The handle of the user for a new object. -/
def handleOf (made : CkDDT × Nat) : Base := ⟨made.2, .user (made.1.next - 1)⟩

theorem Good.made {made : CkDDT × Nat} (h : Good ddt [] (bs ++ loose))
    (hmade : ddt.insertType type = some made) (hbases : type.bases = bs)
    (hcount : type.refCount = 1)
    (hcounted : type.Counted) : Good made.1 [] (handleOf made :: loose) := by
  obtain ⟨made', hmade', hgood⟩ := (hbases ▸ h).insertType hcount hcounted
  rw [hmade, some.injEq] at hmade'
  exact hmade' ▸ hgood

section

variable (h : Good ddt [] loose)

include h

theorem Good.newDerived {kind : Kind} {made : CkDDT × Nat}
    (hkind : ¬(kind = .basic ∨ kind = .struct)) (hmade : ddt.newDerived kind oldType = some made)
    (hroom : ddt.Room ((Call.newDerived kind oldType).shares ddt)) :
    Good made.1 [] (handleOf made :: loose) := by
  obtain ⟨pointer, hpointer, hmade⟩ := bind_eq_some_iff.1 hmade
  obtain ⟨hbasic, hstr⟩ := not_or.1 hkind
  rw [Call.shares, hpointer] at hroom
  obtain ⟨ddt1, hinc, h1, -⟩ := h.incRefCount (b := ⟨oldType, pointer⟩) hpointer hroom
  rw [hinc, bind_some] at hmade
  exact h1.made hmade (if_neg hstr) rfl ⟨hbasic, Int.one_nonneg, hstr.elim⟩

omit h in
theorem refers_of_mapM {members : List Base}
    (h : (oldTypes.mapM fun index => (ddt.getType index).map fun pointer => Base.mk index pointer) =
      some members) : ∀ b ∈ members, ddt.Refers b := by
  induction oldTypes generalizing members with
  | nil =>
    obtain rfl : members = [] := by simpa [eq_comm] using h
    exact nofun
  | cons index oldTypes ih =>
    rw [mapM_cons] at h
    obtain ⟨b0, hb0, h⟩ := bind_eq_some_iff.1 h
    obtain ⟨bs, hbs, h⟩ := bind_eq_some_iff.1 h
    obtain ⟨pointer, hpointer, rfl⟩ := map_eq_some_iff.1 hb0
    obtain rfl := some.inj h
    exact forall_mem_cons.2 ⟨hpointer, ih hbs⟩

theorem Good.newStruct {made : CkDDT × Nat} (hmade : ddt.newStruct oldTypes = some made)
    (hroom : ddt.Room ((Call.newStruct oldTypes).shares ddt)) :
    Good made.1 [] (handleOf made :: loose) := by
  obtain ⟨members, hmembers, hmade⟩ := bind_eq_some_iff.1 hmade
  rw [Call.shares, hmembers] at hroom
  obtain ⟨ddt1, hinc, h1⟩ := h.incRefCounts (refers_of_mapM hmembers) hroom
  rw [hinc, bind_some] at hmade
  exact h1.made hmade rfl rfl ⟨by simp, Int.one_nonneg, fun _ => rfl⟩

/-- References to predefined types need no count. -/
theorem Good.add_predefineds
    (hbs : ∀ b ∈ bs, ddt.Refers b ∧ b.index ≤ maxPredefinedType) : Good ddt [] (bs ++ loose) := by
  induction bs with
  | nil => exact h
  | cons b bs ih =>
    obtain ⟨hrefers, hindex⟩ := hbs b mem_cons_self
    have hrest := ih fun b' hb' => hbs b' (mem_cons_of_mem b hb')
    cases hp : b.type with
    | predefined index => exact hrest.add_predefined hrefers hp
    | user a => exact absurd hindex ((refers_iff_user hp).1 hrefers).1

omit h in
theorem pairMembers_le : ∀ i ∈ pairMembers index, i ≤ maxPredefinedType := by
  unfold pairMembers
  split <;> decide

/-- What is known of a datatype that is found by its index. -/
theorem Good.of_deref (htype : (ddt.getType index).bind ddt.deref = some type) :
    (type.kind = .basic ∧ type.base = none ∨ type.Counted) ∧ ∀ b ∈ type.bases, ddt.Refers b := by
  obtain ⟨pointer, hpointer, htype⟩ := bind_eq_some_iff.1 htype
  cases pointer with
  | user a =>
    exact ⟨.inr (h.counted a type htype), h.bases_refer a type htype not_mem_nil⟩
  | predefined i =>
    obtain rfl := some.inj htype
    unfold predefinedType
    split
    · exact ⟨.inl ⟨rfl, rfl⟩, nofun⟩
    · refine ⟨.inr ⟨by simp, Int.one_nonneg, fun _ => rfl⟩, fun b hb => ?_⟩
      obtain ⟨i, hi, rfl⟩ := mem_map.1 hb
      exact (refers_iff_predefined rfl).2 ⟨pairMembers_le i hi, rfl⟩

/-- A copy is counted when the copied type has a base, or has no members that are counted. -/
theorem Good.copy {made : CkDDT × Nat}
    (hcopy : ∀ type, (ddt.getType oldType).bind ddt.deref = some type → type.kind ≠ .basic ∧
        (type.kind = .struct → ∀ member ∈ type.members, member.index ≤ maxPredefinedType))
    (hmade : ddt.copy oldType = some made)
    (hroom : ddt.Room ((Call.createDup oldType).shares ddt)) :
    Good made.1 [] (handleOf made :: loose) := by
  obtain ⟨type, htype, hmade⟩ := bind_eq_some_iff.1 hmade
  obtain ⟨hbasic, hmembers⟩ := hcopy type htype
  rw [Call.shares, htype] at hroom
  obtain ⟨hcounted | hcounted, hrefers⟩ := h.of_deref htype
  · exact absurd hcounted.1 hbasic
  -- The base of the copied type, if it has one, gets a reference.
  cases hbase : type.base with
  | none =>
    have hinc : ddt.incBase type.base = some ddt := by rw [hbase]; rfl
    rw [hinc, bind_some] at hmade
    refine Good.made (h.add_predefineds fun b hb => ⟨hrefers b hb, ?_⟩) hmade rfl rfl
      (hcounted.recount 1)
    by_cases hstr : type.kind = .struct
    · rw [DataType.bases, if_pos hstr] at hb
      exact hmembers hstr b hb
    · simp [DataType.bases, hstr, hbase] at hb
  | some base =>
    have hstr : type.kind ≠ .struct := fun hstr => by simp [hcounted.2.2 hstr] at hbase
    have hbases : type.bases = [base] := by rw [DataType.bases, if_neg hstr, hbase]; rfl
    simp only [elim_some, hbase, toList_some] at hroom
    obtain ⟨ddt1, hinc, h1, -⟩ := h.incRefCount (hrefers base (by simp [hbases])) hroom
    have hincBase : ddt.incBase type.base = some ddt1 := by rw [hbase]; exact hinc
    rw [hincBase, bind_some] at hmade
    exact h1.made hmade hbases rfl (hcounted.recount 1)

theorem Good.getContents {contents : List Base}
    (hget : ddt.getContents index = some (ddt', contents))
    (hroom : ddt.Room ((Call.getContents index).shares ddt)) :
    Good ddt' [] (contents ++ loose) := by
  obtain ⟨type, htype, hget⟩ := bind_eq_some_iff.1 hget
  rw [Call.shares, htype, elim_some] at hroom
  obtain ⟨-, hrefers⟩ := h.of_deref htype
  by_cases hstr : type.kind = .struct
  · have hbases : type.bases = type.members := if_pos hstr
    obtain ⟨ddt1, hinc, h1⟩ := h.incRefCounts (hbases ▸ hrefers) (hbases ▸ hroom)
    rw [if_pos hstr, hinc] at hget
    obtain ⟨rfl, rfl⟩ := Prod.mk.inj (some.inj hget)
    exact h1
  · have hbases : type.bases = type.base.toList := if_neg hstr
    rw [if_neg hstr] at hget
    obtain ⟨base, hbase, hget⟩ := bind_eq_some_iff.1 hget
    rw [hbases, hbase] at hroom
    obtain ⟨ddt1, hinc, h1, -⟩ := h.incRefCount (hrefers base (by simp [hbases, hbase])) hroom
    rw [hinc] at hget
    obtain ⟨rfl, rfl⟩ := Prod.mk.inj (some.inj hget)
    exact h1

/-- Every reference can be given up. -/
theorem Good.freeType (hb : b ∈ loose) :
    ∃ ddt', ddt.freeType b.index = some ddt' ∧ Good ddt' [] (loose.erase b) := by
  have h' := h.perm (perm_cons_erase hb)
  have hdepth : b.depth ≤ ddt.next + 1 := by
    cases hp : b.type with
    | predefined _ => simp [Base.depth, hp, Pointer.address?]
    | user a =>
      obtain ⟨type, htype, -⟩ := h.exists_of_mem hb hp
      have hlt := h.balanced.bounded a _ (cells_some htype)
      simp only [Base.depth, hp, Pointer.address?, elim_some]
      omega
  obtain ⟨ddt', hfree, hgood, -⟩ := freeTypeAt_good (ddt.next + 1) h' hdepth
  exact ⟨ddt', hfree, hgood⟩

end

/-! ## Runs -/

/-- The condition under which the copy constructor counts all references: what is copied is not a
basic type, and not a struct with members that are not predefined. -/
def CopiesCounted (ddt : CkDDT) : Call → Prop
  | .createDup oldType | .createResized oldType =>
    ∀ type, (ddt.getType oldType).bind ddt.deref = some type →
      type.kind ≠ .basic ∧
        (type.kind = .struct → ∀ member ∈ type.members, member.index ≤ maxPredefinedType)
  | _ => True

/-- The number of references to an object: handles of the user, and datatypes made of it. -/
def System.references (s : System) (a : Nat) : Nat :=
  s.handles.countP (·.type = .user a) +
    ∑ q ∈ Finset.range s.ddt.next, ((s.ddt.heap q).elim [] DataType.bases).countP (·.type = .user a)

/-- The calls of a program that makes no other copies. With the references that the call makes there
are fewer than `2 ^ 31` to each object. -/
def CountedStep (s : System) (call : Call) (s' : System) : Prop :=
  s.exec call = some s' ∧ CopiesCounted s.ddt call ∧
    ∀ a, s.references a + (call.shares s.ddt).countP (·.type = .user a) < 2 ^ 31

theorem count_targets (bs : List Base) (a : Nat) :
    (targets bs).count a = bs.countP (·.type = .user a) := by
  induction bs with
  | nil => rfl
  | cons b bs ih =>
    cases hp : b.type with
    | predefined _ => rw [targets_cons_predefined hp, ih, countP_cons_of_neg (by simp [hp])]
    | user q =>
      rw [targets_cons_user hp, count_cons, countP_cons, ih]
      simp [hp]

theorem references_eq (s : System) :
    RefCount.references s.ddt.cells s.ddt.next [] (targets s.handles) a = s.references a := by
  rw [RefCount.references, System.references, count_targets]
  congr 1
  refine Finset.sum_congr rfl fun q _ => ?_
  rw [held, if_neg not_mem_nil, CkDDT.cells]
  cases s.ddt.heap q with
  | none => rfl
  | some type => exact count_targets type.bases a

theorem Good.room (h : Good s.ddt [] s.handles)
    (hroom : ∀ a, s.references a + bs.countP (·.type = .user a) < 2 ^ 31) : s.ddt.Room bs := by
  intro a
  rw [h.balanced.balance, references_eq, count_targets]
  exact hroom a

theorem Good.start : Good CkDDT.empty [] [] where
  balanced := {
    bounded := fun _ _ h => by simp [CkDDT.cells, CkDDT.empty] at h
    older := fun _ _ h => by simp [CkDDT.cells, CkDDT.empty] at h
    balance := fun _ => rfl
    alive := nofun
    dying_iff := fun _ _ h => by simp [CkDDT.cells, CkDDT.empty] at h }
  aligned := rfl
  slot_live _ _ h := by simp [CkDDT.slot, CkDDT.empty] at h
  live_slot _ _ h := by simp [CkDDT.empty] at h
  slot_inj _ _ _ h := by simp [CkDDT.slot, CkDDT.empty] at h
  counted _ _ h := by simp [CkDDT.empty] at h
  loose_refer := nofun
  bases_refer _ _ h := by simp [CkDDT.empty] at h

theorem Good.step {s' : System} {call : Call} (h : Good s.ddt [] s.handles)
    (hstep : CountedStep s call s') : Good s'.ddt [] s'.handles := by
  obtain ⟨hexec, hcopy, hroom⟩ := hstep
  replace hroom := h.room hroom
  cases call with
  | newDerived kind oldType =>
    by_cases hkind : kind = .basic ∨ kind = .struct
    · rw [System.exec, if_pos hkind] at hexec
      simp at hexec
    · rw [System.exec, if_neg hkind] at hexec
      obtain ⟨made, hmade, rfl⟩ := map_eq_some_iff.1 hexec
      exact h.newDerived hkind hmade hroom
  | newStruct oldTypes =>
    obtain ⟨made, hmade, rfl⟩ := map_eq_some_iff.1 hexec
    exact h.newStruct hmade hroom
  | createDup | createResized =>
    obtain ⟨made, hmade, rfl⟩ := map_eq_some_iff.1 hexec
    exact h.copy hcopy hmade hroom
  | getContents index =>
    obtain ⟨⟨ddt, contents⟩, hget, rfl⟩ := map_eq_some_iff.1 hexec
    exact h.getContents hget hroom
  | freeType handle =>
    by_cases hmem : handle ∈ s.handles
    · rw [System.exec, if_pos hmem] at hexec
      obtain ⟨ddt', hfree, rfl⟩ := map_eq_some_iff.1 hexec
      obtain ⟨ddt'', hfree', hgood⟩ := h.freeType hmem
      rw [hfree, some.injEq] at hfree'
      exact hfree' ▸ hgood
    · rw [System.exec, if_neg hmem] at hexec
      simp at hexec

/-- The table as its users expect it. -/
structure Sound (s : System) : Prop where
  handles_refer : ∀ h ∈ s.handles, s.ddt.Refers h ∧ ∃ type, s.ddt.deref h.type = some type
  bases_refer : ∀ a type, s.ddt.heap a = some type →
    ∀ b ∈ type.bases, s.ddt.Refers b ∧ ∃ base, s.ddt.deref b.type = some base
  referred : ∀ a type, s.ddt.heap a = some type → 0 < s.references a
  counted : ∀ a type, s.ddt.heap a = some type → (s.references a : Int) ≤ type.refCount
  one_slot : ∀ a type, s.ddt.heap a = some type → ∃ i, ∀ j, s.ddt.slot j = some a ↔ j = i
  freeable : ∀ h ∈ s.handles, ∃ ddt, s.ddt.freeType h.index = some ddt

theorem Good.deref_refers (h : Good ddt dying loose) (hb : ddt.Refers b) :
    ∃ type, ddt.deref b.type = some type := by
  cases hp : b.type with
  | predefined index => exact ⟨_, rfl⟩
  | user a => exact h.slot_live _ a ((refers_iff_user hp).1 hb).2

theorem Good.sound (h : Good s.ddt [] s.handles) : Sound s := by
  have hcount : ∀ a type, s.ddt.heap a = some type → (s.references a : Int) = type.refCount := by
    intro a type ha
    rw [← references_eq, ← h.balanced.balance, countAt_some (cells_some ha)]
    exact Int.toNat_of_nonneg (h.counted a type ha).2.1
  constructor
  case handles_refer =>
    intro b hb
    exact ⟨h.loose_refer b hb, h.deref_refers (h.loose_refer b hb)⟩
  case bases_refer =>
    intro a type ha b hb
    have hrefers := h.bases_refer a type ha not_mem_nil b hb
    exact ⟨hrefers, h.deref_refers hrefers⟩
  case referred =>
    intro a type ha
    have hpos := h.refCount_pos ha
    rw [← hcount a type ha] at hpos
    exact Int.natCast_pos.1 hpos
  case counted => exact fun a type ha => (hcount a type ha).le
  case one_slot =>
    intro a type ha
    obtain ⟨i, hi⟩ := h.live_slot a type ha
    exact ⟨i, fun j => ⟨fun hj => h.slot_inj j i a hj hi, fun hj => hj ▸ hi⟩⟩
  case freeable =>
    intro b hb
    obtain ⟨ddt', hfree, -⟩ := h.freeType hb
    exact ⟨ddt', hfree⟩

/-- In every run in which no basic type is copied, no struct with members that are not predefined,
and no object gets `2 ^ 31` references: an object is there as long as a handle or another object
refers to it, and no longer; its count is not below the number of references; it keeps its slot of
the table; and every handle can be freed. -/
theorem datatypes_live_while_referred {calls : List Call} {s : System}
    (hrun : Run CountedStep System.start calls s) : Sound s :=
  (hrun.invariant (P := fun s => Good s.ddt [] s.handles) Good.start
    fun _ _ _ h hstep => h.step hstep).sound

/-- There is room if there are few references in all. -/
theorem countedStep_of_few {s' : System} {call : Call} (hexec : s.exec call = some s')
    (hcopy : CopiesCounted s.ddt call)
    (hfew : s.handles.length +
        ∑ q ∈ Finset.range s.ddt.next, ((s.ddt.heap q).elim [] DataType.bases).length +
      (call.shares s.ddt).length < 2 ^ 31) : CountedStep s call s' := by
  refine ⟨hexec, hcopy, fun a => lt_of_le_of_lt ?_ hfew⟩
  refine Nat.add_le_add (Nat.add_le_add countP_le_length ?_) countP_le_length
  exact Finset.sum_le_sum fun q _ => countP_le_length

/-- A contiguous type is created, a vector is made of it and duplicated, and the handle of the
contiguous type is freed: the two vectors keep it. -/
theorem datatypes_live_while_referred_vector :
    ∃ s, Run CountedStep System.start [.newDerived .contiguous 1, .newDerived .vector 42,
        .createDup 43, .freeType ⟨42, .user 0⟩] s ∧
      s.handles = [⟨44, .user 2⟩, ⟨43, .user 1⟩] ∧
      s.ddt.heap 0 = some ⟨.contiguous, 2, some ⟨1, .predefined 1⟩, []⟩ ∧ Sound s := by
  have hrun : Run CountedStep System.start [.newDerived .contiguous 1, .newDerived .vector 42,
      .createDup 43, .freeType ⟨42, .user 0⟩] _ :=
    .cons (countedStep_of_few rfl trivial (by decide)) <|
    .cons (countedStep_of_few rfl trivial (by decide)) <|
    -- a vector is neither basic nor a struct
    .cons (countedStep_of_few rfl (by rintro type ⟨⟩; simp) (by decide)) <|
    .cons (countedStep_of_few rfl trivial (by decide)) .nil
  exact ⟨_, hrun, rfl, rfl, datatypes_live_while_referred hrun⟩

/-- A struct with a contiguous type is duplicated. When both structs have been freed, the contiguous
type has been deleted, although the user still has a handle of it. -/
theorem dup_struct_frees_member : ∃ s, Run (fun s call s' => s.exec call = some s') System.start
        [.newDerived .contiguous 1, .newStruct [42], .createDup 43, .freeType ⟨43, .user 1⟩,
          .freeType ⟨44, .user 2⟩] s ∧ ⟨42, .user 0⟩ ∈ s.handles ∧ s.ddt.heap 0 = none :=
  ⟨_, .snoc (.snoc (.snoc (.snoc (.snoc .nil rfl) rfl) rfl) rfl) rfl, by decide, rfl⟩

end CharmRuntime.Datatypes
