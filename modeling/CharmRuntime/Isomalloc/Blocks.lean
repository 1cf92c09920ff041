import CharmRuntime.Lib.Words
import CharmRuntime.Isomalloc.RemoteOps

/-!
# Allocation of blocks

A block of memory is allocated in a range of slots of the calling processor. `get_slots` searches
the binned lists for a free range, `grab_slots` takes it out of the slot set, and the header
(`CmiIsomallocBlock`) that stands before the memory of the user keeps its first slot and the length.
An aligned allocation moves the header up with the pointer. `CmiIsomallocFree` computes the number
of slots again, from the length in the header.

The memory is modelled as far as the headers are concerned: `Mem` gives the header that can be read
at an address. Writing a header destroys the headers it overlaps. Words of 64 bits are natural
numbers, and addresses, sizes and alignments are reduced modulo `2 ^ 64` as `size_t` is.
-/

set_option autoImplicit false

namespace CharmRuntime.Isomalloc

open Lib BTree List

/-! ## `get_slots` -/

/-- The inner loop of `get_slots`, over one list; `fuel` bounds the number of iterations. -/
def searchList (ss : SlotSet) (nslots : Int) : Nat → Nat → Option (Option Int)
  | 0, _ => none
  | fuel + 1, dlln =>
    if dlln = 0 then some none
    else (ss.btreeRoot.deref (ss.heap.sb dlln)).bind fun sb =>
      if sb.nslots ≥ nslots then some (some sb.startslot)
      else searchList ss nslots fuel (ss.heap.next dlln)

/-- The outer loop of `get_slots`, over the bins. -/
def searchBins (ss : SlotSet) (nslots : Int) : List Nat → Option Int
  | [] => some (-1)
  | i :: bins => (searchList ss nslots ss.heap.fresh (ss.heap.listArray i)).bind fun
    | some startslot => some startslot
    | none => searchBins ss nslots bins

/-- `get_slots`. -/
def getSlots (ss : SlotSet) (nslots : Int) : Option Int :=
  (findListBin nslots).bind fun startList =>
    searchBins ss nslots (range' startList (listArraySize - startList))

section GetSlots

variable {ss : SlotSet} {nslots : Int} {l : List Nat}

/-- The list node of a block leads to the block. -/
theorem SlotSet.Linked.deref_sb (h : ss.Linked) {b : SlotBlock} (hb : b ∈ ss.btreeRoot.elems) :
    ss.btreeRoot.deref (ss.heap.sb b.listblock) = some b := by
  obtain ⟨⟨p, b⟩, hcell, rfl⟩ := mem_map.1 hb
  rw [h.ok.located _ hcell]
  exact deref_of_mem h.addrs hcell

/-- The lists are shorter than the number of addresses that were handed out. -/
theorem SlotSet.Linked.length_lt (h : ss.Linked) {bin : Nat}
    (hl : LinkedList.IsList ss.heap.previous ss.heap.next (ss.heap.listArray bin) l)
    (hmem : ∀ x, x ∈ l ↔ InBin ss.btreeRoot.elems x bin) : l.length < ss.heap.fresh := by
  have hnd : (0 :: l).Nodup := nodup_cons.2 ⟨fun h0 => hl.ne_zero 0 h0 rfl, hl.nodup⟩
  have hsub : 0 :: l ⊆ List.range ss.heap.fresh := by
    refine cons_subset.2 ⟨mem_range.2 (Nat.pos_of_ne_zero h.fresh), fun x hx => mem_range.2 ?_⟩
    obtain ⟨b, hb, rfl, -⟩ := (hmem x).1 hx
    exact h.ok.fresh b hb
  have := (hnd.subperm hsub).length_le
  rwa [length_cons, length_range] at this

variable (nslots) in
/-- The inner loop returns a block of the list that is large enough, if there is one. -/
theorem searchList_spec (h : ss.Linked) : ∀ {fuel p x : Nat},
    LinkedList.Linked ss.heap.previous ss.heap.next p x l →
    (∀ y ∈ l, ∃ b ∈ ss.btreeRoot.elems, b.listblock = y) → l.length < fuel →
    (∃ b ∈ ss.btreeRoot.elems, nslots ≤ b.nslots ∧
      searchList ss nslots fuel x = some (some b.startslot)) ∨
        (searchList ss nslots fuel x = some none ∧
      ∀ b ∈ ss.btreeRoot.elems, b.listblock ∈ l → b.nslots < nslots) := by
  induction l with
  | nil =>
    intro fuel p x hl _ hfuel
    obtain ⟨fuel, rfl⟩ := Nat.exists_eq_succ_of_ne_zero (ne_of_gt hfuel)
    have hx : x = 0 := hl
    exact .inr ⟨by rw [searchList, if_pos hx], by simp⟩
  | cons y l ih =>
    intro fuel p x hl hmem hfuel
    obtain ⟨fuel, rfl⟩ := Nat.exists_eq_succ_of_ne_zero (ne_of_gt (Nat.zero_lt_of_lt hfuel))
    obtain ⟨rfl, h0, -, hl⟩ := hl
    obtain ⟨b, hb, rfl⟩ := hmem x mem_cons_self
    rw [searchList, if_neg h0, h.deref_sb hb, Option.bind_some]
    by_cases hle : b.nslots ≥ nslots
    · exact .inl ⟨b, hb, hle, by rw [if_pos hle]⟩
    · rw [if_neg hle]
      rcases ih hl (fun z hz => hmem z (mem_cons_of_mem _ hz)) (Nat.lt_of_succ_lt_succ hfuel)
        with hfound | ⟨hnone, hsmall⟩
      · exact .inl hfound
      · refine .inr ⟨hnone, fun b' hb' hb'l => ?_⟩
        rcases mem_cons.1 hb'l with heq | hb'l
        · rw [h.eq_of_listblock_eq hb' hb heq]
          exact Int.not_le.1 hle
        · exact hsmall b' hb' hb'l

/-- The outer loop returns a block of the bins that is large enough, if there is one. -/
theorem searchBins_spec (h : ss.Linked) (bins : List Nat) :
    (∃ b ∈ ss.btreeRoot.elems, nslots ≤ b.nslots ∧ searchBins ss nslots bins = some b.startslot) ∨
    (searchBins ss nslots bins = some (-1) ∧
      ∀ b ∈ ss.btreeRoot.elems, listBin b.nslots ∈ bins → b.nslots < nslots) := by
  induction bins with
  | nil => exact .inr ⟨rfl, by simp⟩
  | cons i bins ih =>
    obtain ⟨l, hl, hmem⟩ := h.lists i
    have hblocks : ∀ y ∈ l, ∃ b ∈ ss.btreeRoot.elems, b.listblock = y := by
      intro y hy
      obtain ⟨b, hb, hy, -⟩ := (hmem y).1 hy
      exact ⟨b, hb, hy⟩
    rw [searchBins]
    rcases searchList_spec nslots h hl hblocks (h.length_lt hl hmem)
      with ⟨b, hb, hle, heq⟩ | ⟨hnone, hsmall⟩
    · exact .inl ⟨b, hb, hle, by rw [heq]; rfl⟩
    · rw [hnone, Option.bind_some]
      rcases ih with hfound | ⟨heq, hrest⟩
      · exact .inl hfound
      · refine .inr ⟨heq, fun b hb hbin => ?_⟩
        rcases mem_cons.1 hbin with hi | hbin
        · exact hsmall b hb ((hmem _).2 ⟨b, hb, rfl, hi.symm⟩)
        · exact hrest b hb hbin

/-- `get_slots` returns the first slot of a block that is large enough, or `-1` if there is none. -/
theorem getSlots_spec (h : ss.Linked) (h1 : 1 ≤ nslots) (h2 : nslots ≤ 2 ^ 62) :
    (∃ b ∈ ss.btreeRoot.elems, nslots ≤ b.nslots ∧ getSlots ss nslots = some b.startslot) ∨
    (getSlots ss nslots = some (-1) ∧ ∀ b ∈ ss.btreeRoot.elems, b.nslots < nslots) := by
  rw [getSlots, findListBin_eq h1 h2, Option.bind_some]
  rcases searchBins_spec h (range' (listBin nslots) (listArraySize - listBin nslots))
    with hfound | ⟨heq, hsmall⟩
  · exact .inl hfound
  · refine .inr ⟨heq, fun b hb => ?_⟩
    by_contra hle
    -- a block that is large enough is in one of the bins searched
    obtain ⟨hb1, hb2⟩ := h.size b hb
    have hlo : listBin nslots ≤ listBin b.nslots := Nat.clog_mono_right 2 (by omega)
    have hhi : listBin b.nslots ≤ 62 := Nat.clog_le_of_le_pow (by omega)
    have hmem : listBin b.nslots ∈ range' (listBin nslots) (listArraySize - listBin nslots) := by
      rw [mem_range'_1, listArraySize]
      omega
    exact hle (hsmall b hb hmem)

end GetSlots

/-- A free range that is not part of a larger one. -/
def MaximalFree (F : Set Int) (s m : Int) : Prop := 1 ≤ m ∧ slots s m ⊆ F ∧ s - 1 ∉ F ∧ s + m ∉ F

theorem Holding.maximalFree {bs : List SlotBlock} {F : Set Int} {b : SlotBlock} (hF : Holding bs F)
    (hb : b ∈ bs) : MaximalFree F b.startslot b.nslots :=
  ⟨hF.pos b hb, fun x hx => (hF.cover x).2 ⟨b, hb, hx⟩, hF.border_notMem hb⟩

/-- The search finds a maximal free range that is large enough, and gives up exactly when there is
none. -/
theorem getSlots_complete {start n k : Int} (h0 : 0 ≤ start) (h1 : 1 ≤ n) (hn : n ≤ 2 ^ 62)
    (ops : List SlotOp)
    (hops : LegalOps (slots start n) (slots start n) ops) (hk1 : 1 ≤ k) (hk2 : k ≤ 2 ^ 62) :
    ∃ ss ss' x, newSlotset start n = some ss ∧ runOps ss ops = some ss' ∧ getSlots ss' k = some x ∧
      (x = -1 ↔ ∀ s m, MaximalFree (ops.foldl SlotOp.apply (slots start n)) s m → m < k) ∧
      (x ≠ -1 → ∃ m, k ≤ m ∧ MaximalFree (ops.foldl SlotOp.apply (slots start n)) x m) := by
  obtain ⟨ss, hnew, h, hF⟩ := newSlotset_spec hn h1
  obtain ⟨⟨ss', heq, h', hF'⟩, hsub⟩ := runOps_spec h0 hn h hF (Set.Subset.refl _) hops
  rcases getSlots_spec h' hk1 hk2 with ⟨b, hb, hle, hget⟩ | ⟨hget, hsmall⟩
  · have hstart := (hF'.within hsub hb).1
    have hmax := hF'.maximalFree hb
    refine ⟨ss, ss', _, hnew, heq, hget, ⟨fun heq => by omega, fun hnone => ?_⟩,
      fun _ => ⟨_, hle, hmax⟩⟩
    exact absurd (hnone _ _ hmax) (Int.not_lt.2 hle)
  · refine ⟨ss, ss', -1, hnew, heq, hget, ⟨fun _ s m hmax => ?_, fun _ => rfl⟩,
      fun hne => absurd rfl hne⟩
    obtain ⟨hm, hfree, -, -⟩ := hmax
    -- the range lies in the block of its first slot
    obtain ⟨b, hb, hs⟩ := (hF'.cover s).1 (hfree ⟨le_rfl, by omega⟩)
    have hend := hF'.range_le hb hs fun x hx hx' => hfree ⟨hx, hx'⟩
    have hs1 := hs.1
    have hb' := hsmall b hb
    omega

/-- Three of ten slots are grabbed from the middle; seven slots in a row are not found. -/
theorem getSlots_complete_seven : LegalOps (slots 0 10) (slots 0 10) [.grab 2 3] ∧
      ∃ ss ss' x, newSlotset 0 10 = some ss ∧ runOps ss
      [.grab 2 3] = some ss' ∧ getSlots ss' 7 = some x ∧
        (x = -1 ↔ ∀ s m, MaximalFree (slots 0 10 \ slots 2 3) s m → m < 7) ∧
        (x ≠ -1 → ∃ m, 7 ≤ m ∧ MaximalFree (slots 0 10 \ slots 2 3) x m) := by
  have hops : LegalOps (slots 0 10) (slots 0 10) [.grab 2 3] := by
    refine ⟨⟨by decide, fun x hx => ?_⟩, trivial⟩
    exact ⟨by have := hx.1; omega, by have := hx.2; omega⟩
  exact ⟨hops, getSlots_complete (by decide) (by decide) (by decide) _ hops (by decide) (by decide)⟩

/-! ## Headers -/

/-- `CmiIsomallocBlock`. -/
structure CmiIsomallocBlock where
  slot : Int
  length : Nat
  align : Nat
  alignoffset : Nat

/-- `sizeof(CmiIsomallocBlock)`. -/
def sizeofBlock : Nat := 32

/-- The conversion to `size_t`. -/
def word (x : Int) : Nat := (x % 2 ^ 64).toNat

/-- `block2pointer`. -/
def block2pointer (blk : Nat) : Nat := (blk + sizeofBlock) % 2 ^ 64

/-- `pointer2block`. -/
def pointer2block (ptr : Nat) : Nat := (ptr + 2 ^ 64 - sizeofBlock) % 2 ^ 64

/-- The header that can be read at each address. -/
abbrev Mem := Nat → Option CmiIsomallocBlock

/-- Write a header. -/
def Mem.set (mem : Mem) (a : Nat) (blk : CmiIsomallocBlock) : Mem := fun x =>
  if x = a then some blk
  else if x < a + sizeofBlock ∧ a < x + sizeofBlock then none
  else mem x

/-- Map or unmap the bytes `[a, a + len)`. -/
def Mem.clear (mem : Mem) (a len : Nat) : Mem := fun x =>
  if x < a + len ∧ a < x + sizeofBlock then none else mem x

/-- What `init_ranges` sets: the slot size is `16 * 1024` or the page size if that is larger, and
the slots of all processors lie in the region of the address space that was found free. -/
structure Ranges where
  slotsize : Nat
  isomallocStart : Nat
  numslots : Nat
  myPe : Nat
  slotsize_pow : ∃ k, 14 ≤ k ∧ k ≤ 62 ∧ slotsize = 2 ^ k
  start_pos : 0 < isomallocStart
  numslots_pos : 1 ≤ numslots
  region : isomallocStart + (myPe + 1) * numslots * slotsize ≤ 2 ^ 63

/-- `slot2addr`. -/
def slot2addr (r : Ranges) (slot : Int) : Nat := word (r.isomallocStart + r.slotsize * slot)

/-- `length2slots`, without `CMK_USE_MEMPOOL_ISOMALLOC`. -/
def length2slots (r : Ranges) (nBytes : Nat) : Nat :=
  (sizeofBlock + nBytes + r.slotsize - 1) % 2 ^ 64 / r.slotsize

/-- `map_slots`: the address, or `none` if nothing can be mapped. -/
def mapSlots (r : Ranges) (slot : Int) (nslots : Nat) (mem : Mem) : Option (Nat × Mem) :=
  if r.slotsize * nslots % 2 ^ 64 = 0 then none
  else some (slot2addr r slot, mem.clear (slot2addr r slot) (r.slotsize * nslots % 2 ^ 64))

/-- `unmap_slots`. -/
def unmapSlots (r : Ranges) (slot : Int) (nslots : Nat) (mem : Mem) : Mem :=
  mem.clear (slot2addr r slot) (r.slotsize * nslots % 2 ^ 64)

/-! ## Allocation -/

/-- A block of the user, with the range that was grabbed for it. -/
structure Live where
  ptr : Nat
  slot : Int
  nslots : Nat

/-- The state of a processor: its slot set, its memory, the messages it has sent to others, and the
blocks that were allocated and not freed. -/
structure Pe where
  myss : SlotSet
  mem : Mem
  msgs : List SlotMsg
  live : List Live

/-- The slots and the header that `isomalloc_internal_alloc_block` returns. -/
structure NewBlock where
  myss : SlotSet
  mem : Mem
  blk : Nat
  slot : Int
  nslots : Nat

/-- `isomalloc_internal_alloc_block`; `none` if it aborts. -/
def allocBlock (r : Ranges) (pe : Pe) (size : Nat) : Option NewBlock :=
  let n := length2slots r size
  (getSlots pe.myss n).bind fun s =>
    if s = -1 then none
    else (grabSlots pe.myss s n).bind fun myss =>
      (mapSlots r s n pe.mem).map fun (blk, mem) =>
        { myss, mem := mem.set blk ⟨s, 0, 0, 0⟩, blk, slot := s, nslots := n }

/-- `CmiIsomallocPlain`. -/
def cmiIsomallocPlain (r : Ranges) (pe : Pe) (size : Int32) : Option Pe :=
  let size := word size.toInt
  (allocBlock r pe ((size + sizeofBlock) % 2 ^ 64)).map fun b =>
    { pe with
      myss := b.myss
      mem := b.mem.set b.blk ⟨b.slot, size, 0, 0⟩
      live := ⟨block2pointer b.blk, b.slot, b.nslots⟩ :: pe.live }

/-- `MALLOC_ALIGNMENT`. -/
def mallocAlignment : Nat := 16

/-- The loop of `isomalloc_internal_validate_align`; `fuel` bounds the number of iterations. -/
def validateAlignLoop (align : Nat) : Nat → Nat → Option Nat
  | 0, _ => none
  | fuel + 1, a => if a < align then validateAlignLoop align fuel ((a <<< 1) % 2 ^ 64) else some a

/-- `isomalloc_internal_validate_align`; `none` if it does not return, which is so from `2 ^ 63 + 1`
on. -/
def validateAlign (align : Nat) : Option Nat :=
  let align := if align < sizeofBlock then sizeofBlock else align
  if align &&& (align - 1) ≠ 0 then validateAlignLoop align 64 (mallocAlignment * 2) else some align

/-- `isomalloc_internal_perform_alignment`: the memory and the pointer. -/
def performAlignment (mem : Mem) (blk align alignoffset : Nat) : Option (Mem × Nat) :=
  let ptr := block2pointer blk
  let ptr2align := (ptr + alignoffset) % 2 ^ 64
  if ptr2align % align ≠ 0 then
    (mem blk).map fun savedblk =>
      let ptr2align := (ptr2align + align - 1) % 2 ^ 64 &&& (2 ^ 64 - align)
      let ptr := (ptr2align + 2 ^ 64 - alignoffset) % 2 ^ 64
      (mem.set (pointer2block ptr) savedblk, ptr)
  else some (mem, ptr)

/-- `isomalloc_internal_alloc_aligned`. -/
def allocAligned (r : Ranges) (pe : Pe) (useralign usersize blocklistsize : UInt64) : Option Pe :=
  let size := (usersize.toNat + blocklistsize.toNat) % 2 ^ 64
  (validateAlign useralign.toNat).bind fun align =>
    (allocBlock r pe ((size + sizeofBlock + align) % 2 ^ 64)).bind fun b =>
      let mem := b.mem.set b.blk ⟨b.slot, size, align, blocklistsize.toNat⟩
      (performAlignment mem b.blk align blocklistsize.toNat).map fun (mem, ptr) =>
        { pe with myss := b.myss, mem, live := ⟨ptr, b.slot, b.nslots⟩ :: pe.live }

/-- The range that `CmiIsomallocFree` unmaps and gives back, from the header of the block. -/
def freedRange (r : Ranges) (pe : Pe) (ptr : Nat) : Option (Int × Nat) :=
  (pe.mem (pointer2block ptr)).map fun blk => (blk.slot, length2slots r blk.length)

/-- `CmiIsomallocFree`; `none` if it aborts. -/
def cmiIsomallocFree (r : Ranges) (pe : Pe) (ptr : Nat) : Option Pe :=
  if ptr = 0 then some pe
  else (freedRange r pe ptr).bind fun (s, n) =>
    let m := allSlotOP r.numslots r.myPe .freeOP s n ⟨fun _ => [], []⟩
    (runOps pe.myss (m.calls r.myPe)).map fun myss =>
      { myss
        mem := unmapSlots r s n pe.mem
        msgs := pe.msgs ++ m.msgs
        live := pe.live.filter fun b => b.ptr ≠ ptr }

end CharmRuntime.Isomalloc
