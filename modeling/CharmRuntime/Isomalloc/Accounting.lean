import CharmRuntime.Isomalloc.Blocks

/-!
# Slot accounting

Runs of allocations and frees on one processor. An allocation of `size` bytes asks for the slots of
`size + sizeof(CmiIsomallocBlock) + align` bytes, and `length2slots` adds the size of the header
once more. The free takes the slots of `size` bytes. The two agree if and only if the last slot has
room for the difference (`length2slots_eq_iff`).

In a run in which they agree for every allocation, each block gives back the range that was grabbed
for it, and when no block is left all slots are one free block again (`slot_accounting`). The
invariant is `Pe.Accounted`: the free slots are those of no live block, the ranges of the live
blocks do not overlap, and each header lies in the range of its block.
-/

set_option autoImplicit false

namespace CharmRuntime.Isomalloc

open Lib List Option

/-! ## The number of slots -/

/-- The last slot of the user's bytes and their header has room for a second header and the
alignment. -/
def Ranges.Fits (r : Ranges) (size align : Nat) : Prop :=
  (sizeofBlock + size - 1) % r.slotsize + (sizeofBlock + align) < r.slotsize

variable {align size n k a : Nat} {s : Int} {pe' : Pe} {mem : Mem}

namespace Ranges

variable (r : Ranges)

theorem slotsize_pos : 0 < r.slotsize := by
  obtain ⟨k, -, -, hk⟩ := r.slotsize_pow
  rw [hk]
  exact Nat.two_pow_pos k

theorem slotsize_le : r.slotsize ≤ 2 ^ 62 := by
  obtain ⟨k, -, h62, hk⟩ := r.slotsize_pow
  rw [hk]
  exact Nat.pow_le_pow_right (by decide) h62

theorem slotsize_ge : 2 ^ 14 ≤ r.slotsize := by
  obtain ⟨k, h14, -, hk⟩ := r.slotsize_pow
  rw [hk]
  exact Nat.pow_le_pow_right (by decide) h14

theorem slotsize_dvd : r.slotsize ∣ 2 ^ 64 := by
  obtain ⟨k, -, h62, hk⟩ := r.slotsize_pow
  rw [hk]
  exact Nat.pow_dvd_pow 2 (by omega)

theorem length2slots_le (nBytes : Nat) : length2slots r nBytes ≤ 2 ^ 50 := by
  apply Nat.div_le_of_le_mul
  have hmul : 2 ^ 14 * 2 ^ 50 ≤ r.slotsize * 2 ^ 50 := Nat.mul_le_mul_right _ r.slotsize_ge
  omega

/-- The slots counted by the allocation and by the free are the same exactly if the last slot has
room for what the allocation adds. -/
theorem length2slots_eq_iff (halign : align ≤ 2 ^ 63) :
    length2slots r ((size + sizeofBlock + align) % 2 ^ 64) = length2slots r size ↔
      r.Fits size align := by
  have hS := r.slotsize_pos
  have hle := r.slotsize_le
  rw [length2slots, length2slots, Fits, sizeofBlock]
  generalize hbytes : (32 + size + r.slotsize - 1) % 2 ^ 64 = bytes
  have hlt : bytes < 2 ^ 64 := hbytes ▸ Nat.mod_lt _ (Nat.two_pow_pos 64)
  have hsum : (32 + (size + 32 + align) % 2 ^ 64 + r.slotsize - 1) % 2 ^ 64 =
      (bytes + (32 + align)) % 2 ^ 64 := by
    omega
  have hrem : bytes % r.slotsize = (32 + size - 1) % r.slotsize := by
    have hshift : 32 + size + r.slotsize - 1 = 32 + size - 1 + r.slotsize := by omega
    rw [← hbytes, Nat.mod_mod_of_dvd _ r.slotsize_dvd, hshift, Nat.add_mod_right]
  rw [hsum, ← hrem]
  rcases lt_or_ge (bytes + (32 + align)) (2 ^ 64) with hno | hwrap
  · rw [Nat.mod_eq_of_lt hno]
    exact Words.div_add_eq_iff hS bytes (32 + align)
  · -- the sum wraps around, to a number that is smaller by more than a slot
    constructor
    · intro heq
      have hless : (bytes + (32 + align)) % 2 ^ 64 + r.slotsize ≤ bytes := by omega
      have := Nat.div_le_div_right (c := r.slotsize) hless
      rw [Nat.add_div_right _ hS] at this
      omega
    · intro hfits
      obtain ⟨q, hq⟩ := r.slotsize_dvd
      have hdiv : bytes / r.slotsize < q :=
        Nat.div_lt_of_lt_mul (hq ▸ hlt)
      have := Nat.div_add_mod bytes r.slotsize
      have := Nat.mul_le_mul_left r.slotsize hdiv
      rw [Nat.mul_succ] at this
      omega

end Ranges

/-! ## Memory -/

section Memory

variable {mem : Mem} {a x : Nat}

@[simp] theorem Mem.set_self (mem : Mem) (a : Nat) (blk : CmiIsomallocBlock) :
    mem.set a blk a = some blk :=
  if_pos rfl

theorem Mem.set_apart (h : x + sizeofBlock ≤ a ∨ a + sizeofBlock ≤ x) (blk : CmiIsomallocBlock) :
    mem.set a blk x = mem x := by
  rw [sizeofBlock] at h
  rw [Mem.set, if_neg (by omega), if_neg (by rw [sizeofBlock]; omega)]

theorem Mem.clear_apart {len : Nat} (h : x + sizeofBlock ≤ a ∨ a + len ≤ x) :
    mem.clear a len x = mem x := by
  rw [Mem.clear, if_neg (by omega)]

theorem pointer2block_eq {ptr : Nat} (h : sizeofBlock ≤ ptr) (hlt : ptr < 2 ^ 64) :
    pointer2block ptr = ptr - sizeofBlock := by
  rw [pointer2block]
  omega

theorem block2pointer_eq {blk : Nat} (hlt : blk + sizeofBlock < 2 ^ 64) :
    block2pointer blk = blk + sizeofBlock :=
  Nat.mod_eq_of_lt hlt

end Memory

section Addresses

variable {r : Ranges} {x : Int}

/-- The slots of the processor. -/
abbrev Ranges.own (r : Ranges) : Set Int := slots (pe2slot r.numslots r.myPe) r.numslots

/-- The first byte of a slot, without wraparound. -/
def Ranges.addr (r : Ranges) (slot : Int) : Nat := r.isomallocStart + r.slotsize * slot.toNat

theorem Ranges.own_iff : x ∈ r.own ↔ r.myPe * r.numslots ≤ x ∧ x < (r.myPe + 1) * r.numslots := by
  rw [Int.add_mul, Int.one_mul]
  exact Iff.rfl

theorem Ranges.own_nonneg (hx : x ∈ r.own) : 0 ≤ x := by
  have h := (Ranges.own_iff.1 hx).1
  exact le_trans (Int.mul_nonneg (Int.natCast_nonneg _) (Int.natCast_nonneg _)) h

section Addresses

variable (hn : 1 ≤ n) (hs : slots s n ⊆ r.own)

include hn hs

/-- The bytes of a range of own slots are below `2 ^ 63`. -/
theorem Ranges.addr_add_le : r.addr s + r.slotsize * n ≤ 2 ^ 63 := by
  have h0 : 0 ≤ s := Ranges.own_nonneg (hs ⟨by omega, by omega⟩)
  have hend := (Ranges.own_iff.1 (hs (show s + n - 1 ∈ slots s n from ⟨by omega, by omega⟩))).2
  have hle : s.toNat + n ≤ (r.myPe + 1) * r.numslots := by
    have : ((s.toNat + n : Nat) : Int) ≤ (((r.myPe + 1) * r.numslots : Nat) : Int) := by
      push_cast
      omega
    exact Int.ofNat_le.1 this
  have hmul := Nat.mul_le_mul_left r.slotsize hle
  have hregion := r.region
  rw [mul_comm _ r.slotsize] at hregion
  rw [mul_add] at hmul
  rw [Ranges.addr]
  omega

theorem slot2addr_eq : slot2addr r s = r.addr s := by
  have h0 : 0 ≤ s := Ranges.own_nonneg (hs ⟨by omega, by omega⟩)
  have hle := Ranges.addr_add_le hn hs
  have hcast : (r.isomallocStart + r.slotsize * s : Int) = (r.addr s : Nat) := by
    rw [Ranges.addr]
    push_cast
    rw [Int.toNat_of_nonneg h0]
  rw [slot2addr, hcast, word]
  omega

theorem mapped_eq : r.slotsize * n % 2 ^ 64 = r.slotsize * n := by
  have := Ranges.addr_add_le hn hs
  exact Nat.mod_eq_of_lt (by omega)

end Addresses

/-- Ranges that do not overlap have no byte in common. -/
theorem Ranges.addr_apart {s' : Int} {n' : Nat} (hn : 1 ≤ n) (hn' : 1 ≤ n') (hs : slots s n ⊆ r.own)
    (hs' : slots s' n' ⊆ r.own) (hdisj : ∀ x ∈ slots s n, x ∉ slots s' n') :
    r.addr s + r.slotsize * n ≤ r.addr s' ∨ r.addr s' + r.slotsize * n' ≤ r.addr s := by
  have h0 : 0 ≤ s := Ranges.own_nonneg (hs ⟨by omega, by omega⟩)
  have h0' : 0 ≤ s' := Ranges.own_nonneg (hs' ⟨by omega, by omega⟩)
  have hsides : s + n ≤ s' ∨ s' + n' ≤ s := by
    by_contra hcon
    have h1 : max s s' ∈ slots s n := ⟨by omega, by omega⟩
    exact hdisj _ h1 ⟨by omega, by omega⟩
  simp only [Ranges.addr]
  rcases hsides with h | h
  · have := Nat.mul_le_mul_left r.slotsize (show s.toNat + n ≤ s'.toNat by omega)
    rw [mul_add] at this
    omega
  · have := Nat.mul_le_mul_left r.slotsize (show s'.toNat + n' ≤ s.toNat by omega)
    rw [mul_add] at this
    omega

end Addresses

/-! ## Alignment -/

section Alignment

/-- Once the doubling has run out of bits the loop does not return. -/
theorem validateAlignLoop_zero (h : 0 < align) (fuel : Nat) :
    validateAlignLoop align fuel 0 = none := by
  induction fuel with
  | zero => rfl
  | succ fuel ih => rw [validateAlignLoop, if_pos h, Nat.zero_shiftLeft, Nat.zero_mod, ih]

theorem validateAlignLoop_pow (h : 0 < align) {fuel : Nat} (hk : k < 64)
    (heq : validateAlignLoop align fuel (2 ^ k) = some a) : ∃ k < 64, a = 2 ^ k := by
  induction fuel generalizing k with
  | zero => simp [validateAlignLoop] at heq
  | succ fuel ih =>
    rw [validateAlignLoop] at heq
    split at heq
    · have hdouble : 2 ^ k <<< 1 = 2 ^ (k + 1) := by rw [Nat.shiftLeft_eq, Nat.pow_one, pow_succ]
      rw [hdouble] at heq
      rcases lt_or_ge (k + 1) 64 with hlt | hge
      · rw [Nat.mod_eq_of_lt (Nat.pow_lt_pow_right (by decide) hlt)] at heq
        exact ih hlt heq
      · have hlast : k + 1 = 64 := by omega
        rw [hlast, Nat.mod_self, validateAlignLoop_zero h] at heq
        cases heq
    · exact ⟨k, hk, (some.inj heq).symm⟩

/-- The alignment is a power of two. -/
theorem validateAlign_pow (hlt : align < 2 ^ 64) (heq : validateAlign align = some a) :
    ∃ k < 64, a = 2 ^ k := by
  simp only [validateAlign] at heq
  generalize halign : (if align < sizeofBlock then sizeofBlock else align) = al at heq
  have hpos : 0 < al ∧ al < 2 ^ 64 := by
    rw [← halign, sizeofBlock]
    split <;> omega
  split at heq
  · exact validateAlignLoop_pow (k := 5) hpos.1 (by decide) heq
  · rename_i hand
    obtain ⟨k, hk⟩ := (Nat.and_sub_one_eq_zero_iff_isPowerOfTwo (by omega)).1 (not_not.1 hand)
    obtain rfl := some.inj heq
    refine ⟨k, ?_, hk⟩
    by_contra hge
    have := Nat.pow_le_pow_right (show 0 < 2 by decide) (Nat.not_lt.1 hge)
    omega

/-- The header moves up with the pointer, by less than the alignment. -/
theorem performAlignment_spec {blk alignoffset : Nat} {hdr : CmiIsomallocBlock} (hk : k < 64)
    (hoff : alignoffset < 2 ^ 64) (hblk : mem blk = some hdr)
    (hroom : blk + sizeofBlock + 2 ^ k ≤ 2 ^ 63) : ∃ mem' d, d < 2 ^ k ∧
      performAlignment mem blk (2 ^ k) alignoffset = some (mem', blk + sizeofBlock + d) ∧
      mem' (blk + d) = some hdr ∧
      ∀ x, x + sizeofBlock ≤ blk ∨ blk + sizeofBlock + 2 ^ k ≤ x → mem' x = mem x := by
  have hpos := Nat.two_pow_pos k
  have hptr : block2pointer blk = blk + sizeofBlock := block2pointer_eq (by omega)
  rw [performAlignment, hptr]
  simp only [ne_eq]
  split
  · obtain ⟨d, hd, hup⟩ :=
      Words.align_up (le_of_lt hk) ((blk + sizeofBlock + alignoffset) % 2 ^ 64)
    have hmove : (((blk + sizeofBlock + alignoffset) % 2 ^ 64 + d) % 2 ^ 64 + 2 ^ 64 - alignoffset)
        % 2 ^ 64 = blk + sizeofBlock + d := by omega
    have hback : pointer2block (blk + sizeofBlock + d) = blk + d := by
      rw [pointer2block_eq (by omega) (by omega)]
      omega
    rw [hblk, hup, map_some, hmove, hback]
    refine ⟨_, d, hd, rfl, Mem.set_self _ _ _, fun x hx => Mem.set_apart ?_ _⟩
    omega
  · exact ⟨mem, 0, hpos, rfl, hblk, fun _ _ => rfl⟩

end Alignment

/-! ## The invariant -/

/-- The own slots that belong to no block. -/
def Ranges.unused (r : Ranges) (live : List Live) : Set Int :=
  {x | x ∈ r.own ∧ ∀ b ∈ live, x ∉ slots b.slot b.nslots}

/-- The header lies in the range of the block and tells the range. -/
structure Live.Headed (r : Ranges) (mem : Mem) (b : Live) : Prop where
  header : ∃ blk, mem (b.ptr - sizeofBlock) = some blk ∧ blk.slot = b.slot ∧
    length2slots r blk.length = b.nslots
  lo : r.addr b.slot + sizeofBlock ≤ b.ptr
  hi : b.ptr < r.addr b.slot + r.slotsize * b.nslots

/-- Every own slot is free or belongs to one block. -/
structure Pe.Accounted (r : Ranges) (pe : Pe) : Prop where
  linked : pe.myss.Linked
  holding : Holding pe.myss.btreeRoot.elems (r.unused pe.live)
  nonempty : ∀ b ∈ pe.live, 1 ≤ b.nslots
  own : ∀ b ∈ pe.live, slots b.slot b.nslots ⊆ r.own
  apart : ∀ b ∈ pe.live, ∀ b' ∈ pe.live, b ≠ b' →
    ∀ x ∈ slots b.slot b.nslots, x ∉ slots b'.slot b'.nslots
  headed : ∀ b ∈ pe.live, b.Headed r pe.mem

/-- What `isomalloc_internal_alloc_block` grants. -/
structure NewBlock.Granted (r : Ranges) (pe : Pe) (size : Nat) (b : NewBlock) : Prop where
  count : b.nslots = length2slots r size
  nonempty : 1 ≤ b.nslots
  unused : slots b.slot b.nslots ⊆ r.unused pe.live
  linked : b.myss.Linked
  holding : Holding b.myss.btreeRoot.elems (r.unused pe.live \ slots b.slot b.nslots)
  blk : b.blk = r.addr b.slot
  frame : ∀ x, x + sizeofBlock ≤ b.blk ∨ b.blk + r.slotsize * b.nslots ≤ x → b.mem x = pe.mem x

section Alloc

variable {r : Ranges} {pe : Pe} {b : NewBlock}

theorem Ranges.unused_subset (live : List Live) : r.unused live ⊆ r.own := fun _ hx => hx.1

theorem Ranges.numslots_le : (r.numslots : Int) ≤ 2 ^ 62 := by
  have hregion := r.region
  have hmul : r.numslots * r.slotsize ≤ (r.myPe + 1) * r.numslots * r.slotsize :=
    Nat.mul_le_mul_right _ (Nat.le_mul_of_pos_left _ (by omega))
  have := Nat.mul_le_mul_left r.numslots r.slotsize_ge
  omega

theorem Ranges.start_nonneg : 0 ≤ pe2slot r.numslots r.myPe :=
  Int.mul_nonneg (Int.natCast_nonneg _) (Int.natCast_nonneg _)

/-- The first slots of a free block can be grabbed. -/
theorem Pe.Accounted.grab (h : pe.Accounted r) {c : SlotBlock} (hc : c ∈ pe.myss.btreeRoot.elems)
    (hn : 1 ≤ n) (hle : (n : Int) ≤ c.nslots) : slots c.startslot n ⊆ r.unused pe.live ∧
      Leaves (grabSlots pe.myss c.startslot n) (r.unused pe.live \ slots c.startslot n) := by
  have hfree : slots c.startslot n ⊆ r.unused pe.live := by
    intro x hx
    have h1 := hx.1
    have h2 := hx.2
    exact (h.holding.cover x).2 ⟨c, hc, ⟨by omega, by omega⟩⟩
  have hlegal : (SlotOp.grab c.startslot n).Legal r.own (r.unused pe.live) := ⟨by omega, hfree⟩
  exact ⟨hfree, (exec_spec Ranges.start_nonneg Ranges.numslots_le h.linked h.holding
    (Ranges.unused_subset _) hlegal).1⟩

theorem allocBlock_spec (h : pe.Accounted r) (heq : allocBlock r pe size = some b) :
    b.Granted r pe size := by
  obtain ⟨s, hs, heq⟩ := bind_eq_some_iff.1 heq
  rw [ite_none_left_eq_some] at heq
  obtain ⟨hs1, heq⟩ := heq
  obtain ⟨myss, hgrab, heq⟩ := bind_eq_some_iff.1 heq
  obtain ⟨⟨blk, mem⟩, hmap, rfl⟩ := map_eq_some_iff.1 heq
  rw [mapSlots, ite_none_left_eq_some] at hmap
  obtain ⟨hlen, hmap⟩ := hmap
  cases hmap
  -- nothing can be mapped for zero slots
  have hn : 1 ≤ length2slots r size := by
    apply Nat.pos_of_ne_zero
    intro h0
    rw [h0] at hlen
    exact hlen rfl
  have hle := r.length2slots_le size
  have hpos : (1 : Int) ≤ (length2slots r size : Nat) := by omega
  rcases getSlots_spec h.linked hpos (by omega)
    with ⟨c, hc, hsize, hget⟩ | ⟨hget, -⟩
  · obtain rfl : c.startslot = s := some.inj (hget.symm.trans hs)
    obtain ⟨hfree, ss', hgrab', hlink, hhold⟩ := h.grab hc hn hsize
    obtain rfl : ss' = myss := some.inj (hgrab'.symm.trans hgrab)
    have hown := hfree.trans (Ranges.unused_subset _)
    have haddr := slot2addr_eq hn hown
    refine ⟨rfl, hn, hfree, hlink, hhold, haddr, fun x hx => ?_⟩
    have hroom := Nat.mul_le_mul r.slotsize_ge hn
    dsimp only at hx ⊢
    rw [Mem.set_apart (by rw [sizeofBlock] at hx ⊢; omega),
      Mem.clear_apart (by rw [mapped_eq hn hown]; exact hx)]
  · exact absurd (some.inj (hs.symm.trans hget)) hs1

theorem Ranges.unused_cons (b : Live) (live : List Live) :
    r.unused (b :: live) = r.unused live \ slots b.slot b.nslots := by
  ext x
  simp only [unused, Set.mem_ofPred_eq, forall_mem_cons, Set.mem_sdiff]
  exact ⟨fun ⟨h, hb, hl⟩ => ⟨⟨h, hl⟩, hb⟩, fun ⟨⟨h, hl⟩, hb⟩ => ⟨h, hb, hl⟩⟩

/-- The header of a block is not touched by a change outside its range. -/
theorem Live.Headed.congr {mem' : Mem} {b : Live} (h : b.Headed r mem)
    (hframe : ∀ x, r.addr b.slot ≤ x → x + sizeofBlock ≤ r.addr b.slot + r.slotsize * b.nslots →
      mem' x = mem x) : b.Headed r mem' := by
  have hlo := h.lo
  have hhi := h.hi
  refine ⟨?_, hlo, hhi⟩
  rw [hframe _ (by omega) (by omega)]
  exact h.header

/-- A new block whose header is in place. -/
theorem Pe.Accounted.alloc (h : pe.Accounted r) (hb : b.Granted r pe size)
    {ptr : Nat} (hhead : Live.Headed r mem ⟨ptr, b.slot, b.nslots⟩)
    (hframe : ∀ x, x + sizeofBlock ≤ b.blk ∨ b.blk + r.slotsize * b.nslots ≤ x → mem x = b.mem x) :
    Pe.Accounted r { pe with myss := b.myss, mem, live := ⟨ptr, b.slot, b.nslots⟩ :: pe.live } := by
  have hown := hb.unused.trans (Ranges.unused_subset pe.live)
  have hnew : ∀ c ∈ pe.live, ∀ x ∈ slots b.slot b.nslots, x ∉ slots c.slot c.nslots :=
    fun c hc x hx => (hb.unused hx).2 c hc
  refine ⟨hb.linked, ?_, ?_, ?_, ?_, ?_⟩
  · rw [Ranges.unused_cons]
    exact hb.holding
  · exact forall_mem_cons.2 ⟨hb.nonempty, h.nonempty⟩
  · exact forall_mem_cons.2 ⟨hown, h.own⟩
  · intro c hc c' hc' hne x hx
    rcases mem_cons.1 hc with rfl | hc
    · rcases mem_cons.1 hc' with rfl | hc'
      · exact absurd rfl hne
      · exact hnew c' hc' x hx
    · rcases mem_cons.1 hc' with rfl | hc'
      · exact fun hx' => hnew c hc x hx' hx
      · exact h.apart c hc c' hc' hne x hx
  · refine forall_mem_cons.2 ⟨hhead, fun c hc => (h.headed c hc).congr fun x hlo hhi => ?_⟩
    -- the bytes of `c` are not those of the new block
    have hsides := Ranges.addr_apart hb.nonempty (h.nonempty c hc) hown (h.own c hc) (hnew c hc)
    have hout : x + sizeofBlock ≤ b.blk ∨ b.blk + r.slotsize * b.nslots ≤ x := by
      rw [hb.blk]
      omega
    exact (hframe x hout).trans (hb.frame x hout)

theorem NewBlock.Granted.header_lt (hb : b.Granted r pe size) : b.blk + sizeofBlock < 2 ^ 64 := by
  have hend := Ranges.addr_add_le hb.nonempty (hb.unused.trans (Ranges.unused_subset pe.live))
  rw [hb.blk, sizeofBlock]
  omega

/-- `CmiIsomallocPlain`. -/
theorem Pe.Accounted.plain (h : pe.Accounted r) {size : Int32}
    (heq : cmiIsomallocPlain r pe size = some pe') (hfits : r.Fits (word size.toInt) 0) :
    pe'.Accounted r := by
  obtain ⟨b, halloc, rfl⟩ := map_eq_some_iff.1 heq
  have hb := allocBlock_spec h halloc
  have hroom : 2 ^ 14 * 1 ≤ r.slotsize * b.nslots := Nat.mul_le_mul r.slotsize_ge hb.nonempty
  have hptr := block2pointer_eq hb.header_lt
  apply h.alloc hb
  · refine ⟨⟨⟨b.slot, word size.toInt, 0, 0⟩, ?_, rfl, ?_⟩, ?_, ?_⟩
    · rw [hptr, Nat.add_sub_cancel]
      exact Mem.set_self _ _ _
    · rw [hb.count]
      exact ((r.length2slots_eq_iff (Nat.zero_le _)).2 hfits).symm
    · rw [hptr, hb.blk]
    · rw [hptr, hb.blk, sizeofBlock]
      dsimp only
      omega
  · intro x hx
    apply Mem.set_apart
    rw [sizeofBlock] at hx ⊢
    omega

/-- `isomalloc_internal_alloc_aligned`. -/
theorem Pe.Accounted.aligned (h : pe.Accounted r) {useralign usersize blocklistsize : UInt64}
    (heq : allocAligned r pe useralign usersize blocklistsize = some pe')
    (hfits : ∀ align, validateAlign useralign.toNat = some align →
      r.Fits ((usersize.toNat + blocklistsize.toNat) % 2 ^ 64) align) : pe'.Accounted r := by
  obtain ⟨align, halign, heq⟩ := bind_eq_some_iff.1 heq
  obtain ⟨b, halloc, heq⟩ := bind_eq_some_iff.1 heq
  obtain ⟨⟨mem, ptr⟩, hperform, rfl⟩ := map_eq_some_iff.1 heq
  have hb := allocBlock_spec h halloc
  replace hfits := hfits align halign
  obtain ⟨k, hk, rfl⟩ := validateAlign_pow useralign.toNat_lt halign
  have hown := hb.unused.trans (Ranges.unused_subset pe.live)
  have hend := Ranges.addr_add_le hb.nonempty hown
  have hroom : r.slotsize * 1 ≤ r.slotsize * b.nslots := Nat.mul_le_mul_left _ hb.nonempty
  have hin : sizeofBlock + 2 ^ k < r.slotsize := lt_of_le_of_lt (Nat.le_add_left _ _) hfits
  obtain ⟨mem', d, hd, hperform', hhead, hframe⟩ := performAlignment_spec hk
    blocklistsize.toNat_lt (Mem.set_self b.mem b.blk _) (by rw [hb.blk]; omega)
  cases hperform'.symm.trans hperform
  have hblk := hb.blk
  apply h.alloc hb
  · refine ⟨⟨⟨b.slot, (usersize.toNat + blocklistsize.toNat) % 2 ^ 64, 2 ^ k,
      blocklistsize.toNat⟩, ?_, rfl, ?_⟩, ?_, ?_⟩
    · have hsub : b.blk + sizeofBlock + d - sizeofBlock = b.blk + d := by omega
      rw [hsub]
      exact hhead
    · rw [hb.count]
      have hle : 2 ^ k ≤ 2 ^ 63 := Nat.pow_le_pow_right (by decide) (Nat.le_of_lt_succ hk)
      exact ((r.length2slots_eq_iff hle).2 hfits).symm
    · dsimp only
      omega
    · dsimp only
      omega
  · intro x hx
    rw [hframe x (by omega), Mem.set_apart (by omega)]

end Alloc

section Free

variable {r : Ranges} {pe : Pe}

theorem Ranges.slot2pe_own {x : Int} (hx : x ∈ r.own) : slot2pe r.numslots x = r.myPe := by
  have hN : (0 : Int) < r.numslots := Int.natCast_pos.2 r.numslots_pos
  obtain ⟨hlo, hhi⟩ := Ranges.own_iff.1 hx
  rw [slot2pe, Int.tdiv_eq_ediv_of_nonneg (Ranges.own_nonneg hx)]
  exact le_antisymm (Int.lt_add_one_iff.1 ((Int.ediv_lt_iff_lt_mul hN).2 hhi))
    ((Int.le_ediv_iff_mul_le hN).2 hlo)

/-- A range of own slots is one call on the own slot set. -/
theorem allSlotOP_own (hn : 1 ≤ n) (hs : slots s n ⊆ r.own) (op : SlotOP) (m : Machine) :
    allSlotOP r.numslots r.myPe op s n m = m.call r.myPe (op.local s n) := by
  have hfirst := hs (show s ∈ slots s n from ⟨by omega, by omega⟩)
  have hlast := hs (show s + n - 1 ∈ slots s n from ⟨by omega, by omega⟩)
  have hlo := Ranges.own_iff.1 hfirst
  have hhi := Ranges.own_iff.1 hlast
  have hone : ((r.myPe : Int) - r.myPe + 1).toNat = 1 := by omega
  rw [allSlotOP, Ranges.slot2pe_own hfirst, Ranges.slot2pe_own hlast, hone]
  simp only [range_one, foldl_cons, foldl_nil, Int.natCast_zero, add_zero]
  rw [oneSlotOP, clip_low, clip_high, if_pos rfl, pe2slot, pe2slot, Int.max_eq_left hlo.1,
    Int.min_eq_left (by omega)]
  congr 2
  omega

/-- Blocks with the same pointer are the same. -/
theorem Pe.Accounted.eq_of_ptr_eq (h : pe.Accounted r) {b b' : Live} (hb : b ∈ pe.live)
    (hb' : b' ∈ pe.live) (hptr : b.ptr = b'.ptr) : b = b' := by
  by_contra hne
  have hsides := Ranges.addr_apart (h.nonempty b hb) (h.nonempty b' hb') (h.own b hb)
    (h.own b' hb') (h.apart b hb b' hb' hne)
  have h1 := (h.headed b hb).lo
  have h2 := (h.headed b hb).hi
  have h1' := (h.headed b' hb').lo
  have h2' := (h.headed b' hb').hi
  rw [sizeofBlock] at h1 h1'
  omega

variable {b : Live}

section Free

variable (h : pe.Accounted r) (hb : b ∈ pe.live)

include h hb

theorem Pe.Accounted.ptr_bounds : sizeofBlock ≤ b.ptr ∧ b.ptr ≤ 2 ^ 63 ∧ b.ptr ≠ 0 := by
  have h1 := (h.headed b hb).lo
  have h2 := (h.headed b hb).hi
  have hend := Ranges.addr_add_le (h.nonempty b hb) (h.own b hb)
  rw [sizeofBlock] at h1 ⊢
  omega

/-- The range that is given back is the one that was grabbed. -/
theorem Pe.Accounted.freedRange : freedRange r pe b.ptr = some (b.slot, b.nslots) := by
  obtain ⟨hlo, hhi, -⟩ := h.ptr_bounds hb
  obtain ⟨blk, hblk, hslot, hcount⟩ := (h.headed b hb).header
  rw [Isomalloc.freedRange, pointer2block_eq hlo (by omega), hblk, map_some, hslot, hcount]

theorem Pe.Accounted.unused_free : r.unused (pe.live.filter fun b' => b'.ptr ≠ b.ptr) =
      r.unused pe.live ∪ slots b.slot b.nslots := by
  ext x
  constructor
  · rintro ⟨hown, hout⟩
    by_cases hx : x ∈ slots b.slot b.nslots
    · exact .inr hx
    · refine .inl ⟨hown, fun b' hb' => ?_⟩
      by_cases hptr : b'.ptr = b.ptr
      · rwa [h.eq_of_ptr_eq hb' hb hptr]
      · exact hout b' (mem_filter.2 ⟨hb', by simpa using hptr⟩)
  · rintro (⟨hown, hout⟩ | hx)
    · exact ⟨hown, fun b' hb' => hout b' (mem_filter.1 hb').1⟩
    · refine ⟨h.own b hb hx, fun b' hb' => ?_⟩
      obtain ⟨hb', hptr⟩ := mem_filter.1 hb'
      have hne : b ≠ b' := by
        rintro rfl
        simp at hptr
      exact h.apart b hb b' hb' hne x hx

/-- `CmiIsomallocFree` of a block. -/
theorem Pe.Accounted.free : ∃ pe', cmiIsomallocFree r pe b.ptr = some pe' ∧ pe'.Accounted r := by
  have hown := h.own b hb
  have hn := h.nonempty b hb
  have hlegal : (SlotOp.free b.slot b.nslots).Legal r.own (r.unused pe.live) :=
    ⟨by omega, fun x hx => ⟨hown hx, fun hx' => hx'.2 b hb hx⟩⟩
  obtain ⟨⟨ss', hfree, hlink, hhold⟩, -⟩ :=
    exec_spec Ranges.start_nonneg Ranges.numslots_le h.linked
    h.holding (Ranges.unused_subset _) hlegal
  have hcalls : runOps pe.myss ((allSlotOP r.numslots r.myPe .freeOP b.slot b.nslots
      ⟨fun _ => [], []⟩).calls r.myPe) = some ss' := by
    rw [allSlotOP_own hn hown, Machine.calls_call_self, nil_append, runOps, foldlM_cons]
    exact bind_eq_some_iff.2 ⟨ss', hfree, rfl⟩
  rw [cmiIsomallocFree, if_neg (h.ptr_bounds hb).2.2, h.freedRange hb, bind_some]
  dsimp only
  rw [hcalls, map_some]
  have hsub : ∀ b' ∈ pe.live.filter (fun b' => b'.ptr ≠ b.ptr), b' ∈ pe.live :=
    fun b' hb' => (mem_filter.1 hb').1
  refine ⟨_, rfl, hlink, ?_, fun b' hb' => h.nonempty b' (hsub b' hb'),
    fun b' hb' => h.own b' (hsub b' hb'), fun b' hb' b'' hb'' =>
      h.apart b' (hsub b' hb') b'' (hsub b'' hb''), fun b' hb' => ?_⟩
  · rw [h.unused_free hb]
    exact hhold
  · obtain ⟨hb', hptr⟩ := mem_filter.1 hb'
    have hne : b ≠ b' := by
      rintro rfl
      simp at hptr
    have hsides := Ranges.addr_apart hn (h.nonempty b' hb') hown (h.own b' hb')
      (h.apart b hb b' hb' hne)
    refine (h.headed b' hb').congr fun x hlo hhi => Mem.clear_apart ?_
    rw [slot2addr_eq hn hown, mapped_eq hn hown]
    omega

end Free

end Free

/-! ## Runs -/

/-- The calls of the users. -/
inductive IsoCall where
  | plain (size : Int32)
  | aligned (useralign usersize blocklistsize : UInt64)
  | free (ptr : Nat)

/-- The call in the code. -/
def IsoCall.exec (r : Ranges) (pe : Pe) : IsoCall → Option Pe
  | plain size => cmiIsomallocPlain r pe size
  | aligned useralign usersize blocklistsize =>
    allocAligned r pe useralign usersize blocklistsize
  | free ptr => cmiIsomallocFree r pe ptr

/-- Only pointers of blocks are freed, or `NULL`. -/
def IsoCall.Legal (pe : Pe) : IsoCall → Prop
  | free ptr => ptr = 0 ∨ ∃ b ∈ pe.live, b.ptr = ptr
  | _ => True

/-- A call that returns. -/
def IsoStep (r : Ranges) (pe : Pe) (c : IsoCall) (pe' : Pe) : Prop :=
  c.Legal pe ∧ c.exec r pe = some pe'

/-- The size of an allocation leaves room in its last slot. -/
def IsoCall.Fits (r : Ranges) : IsoCall → Prop
  | plain size => r.Fits (word size.toInt) 0
  | aligned useralign usersize blocklistsize =>
    ∀ align, validateAlign useralign.toNat = some align →
      r.Fits ((usersize.toNat + blocklistsize.toNat) % 2 ^ 64) align
  | free _ => True

/-- The processor after `init_ranges`. -/
def initialPe (r : Ranges) : Option Pe :=
  (newSlotset (pe2slot r.numslots r.myPe) r.numslots).map fun myss =>
    ⟨myss, fun _ => none, [], []⟩

section Runs

variable {r : Ranges} {pe pe₀ : Pe} {cs : List IsoCall}

theorem initialPe_spec (r : Ranges) : ∃ pe, initialPe r = some pe ∧ pe.Accounted r := by
  have hpos := r.numslots_pos
  obtain ⟨ss, hnew, hlink, hhold⟩ :
      Leaves (newSlotset (pe2slot r.numslots r.myPe) r.numslots) r.own :=
    newSlotset_spec r.numslots_le (by omega)
  refine ⟨⟨ss, fun _ => none, [], []⟩, by rw [initialPe, hnew]; rfl, ⟨hlink, ?_, ?_, ?_, ?_, ?_⟩⟩
  · have hall : r.unused [] = r.own := by simp [Ranges.unused]
    rw [hall]
    exact hhold
  all_goals simp

/-- One call. -/
theorem IsoStep.accounted {c : IsoCall} (hstep : IsoStep r pe c pe') (hfits : c.Fits r)
    (h : pe.Accounted r) : pe'.Accounted r := by
  obtain ⟨hlegal, heq⟩ := hstep
  cases c with
  | plain size => exact h.plain heq hfits
  | aligned useralign usersize blocklistsize => exact h.aligned heq hfits
  | free ptr =>
    rcases hlegal with rfl | ⟨b, hb, rfl⟩
    · cases heq
      exact h
    · obtain ⟨pe'', hfree, h'⟩ := h.free hb
      cases hfree.symm.trans heq
      exact h'

/-- All calls of a run. -/
theorem accounted_of_run (h0 : initialPe r = some pe₀) (hrun : Run (IsoStep r) pe₀ cs pe)
    (hfits : ∀ c ∈ cs, c.Fits r) : pe.Accounted r := by
  induction hrun with
  | nil =>
    obtain ⟨pe, heq, h⟩ := initialPe_spec r
    cases heq.symm.trans h0
    exact h
  | snoc hrun hstep ih =>
    have hprefix := ih fun c hc => hfits c (mem_append_left _ hc)
    exact hstep.accounted (hfits _ (mem_append_right _ (mem_singleton_self _))) hprefix

/-- A list of blocks that is one range. -/
theorem Holding.single {bs : List SlotBlock} {n : Int} (h : Holding bs (slots s n)) (hn : 1 ≤ n)
    (hnd : bs.Nodup) : ∃ b, bs = [b] ∧ b.startslot = s ∧ b.nslots = n := by
  obtain ⟨b, hb, hs⟩ := (h.cover s).1 ⟨by omega, by omega⟩
  have hle := h.range_le hb hs fun x h1 h2 => ⟨h1, h2⟩
  have hpos := h.pos b hb
  have hlo : s ≤ b.startslot := ((h.cover _).2 ⟨b, hb, ⟨by omega, by omega⟩⟩).1
  have hhi : b.startslot + b.nslots - 1 < s + n :=
    ((h.cover _).2 ⟨b, hb, ⟨by omega, by omega⟩⟩).2
  have hlo' := hs.1
  refine ⟨b, ?_, by omega, by omega⟩
  have hall : ∀ b' ∈ bs, b' = b := by
    intro b' hb'
    have hpos' := h.pos b' hb'
    obtain ⟨h1, h2⟩ := (h.cover b'.startslot).2 ⟨b', hb', ⟨by omega, by omega⟩⟩
    exact h.unique hb' hb ⟨le_rfl, by omega⟩ ⟨by omega, by omega⟩
  have hrep : bs = replicate bs.length b := eq_replicate_of_mem hall
  have hlen : bs.length = 1 := by
    rw [hrep, nodup_replicate] at hnd
    have := length_pos_of_mem hb
    omega
  rwa [hlen] at hrep

/-- In every run in which each allocation leaves room in its last slot, the range that a free gives
back is the one that was grabbed for the block. When all blocks are freed, all slots are one free
block. -/
theorem slot_accounting (r : Ranges) (h₀ : initialPe r = some pe₀)
    (hrun : Run (IsoStep r) pe₀ cs pe)
    (hfits : ∀ c ∈ cs, c.Fits r) : (∀ b ∈ pe.live, freedRange r pe b.ptr = some (b.slot, b.nslots) ∧
      ∃ pe', cmiIsomallocFree r pe b.ptr = some pe') ∧
    (pe.live = [] → pe.myss.Valid r.own ∧ ∃ b, pe.myss.btreeRoot.elems = [b] ∧
      b.startslot = pe2slot r.numslots r.myPe ∧ b.nslots = r.numslots) := by
  have h := accounted_of_run h₀ hrun hfits
  constructor
  · intro b hb
    obtain ⟨pe', hfree, -⟩ := h.free hb
    exact ⟨h.freedRange hb, pe', hfree⟩
  · intro hlive
    have hhold : Holding pe.myss.btreeRoot.elems r.own := by
      have hall : r.unused pe.live = r.own := by simp [hlive, Ranges.unused]
      exact hall ▸ h.holding
    have hpos := r.numslots_pos
    exact ⟨h.linked.valid hhold, hhold.single (by omega) (Nodup.of_map _ h.linked.ok.nodup)⟩

/-- In every such run each pointer is in the addresses of its block, behind the header, those of
different blocks do not overlap, and the free slots are those of no block. -/
theorem blocks_disjoint (h₀ : initialPe r = some pe₀) (hrun : Run (IsoStep r) pe₀ cs pe)
    (hfits : ∀ c ∈ cs, c.Fits r) :
    (∀ b ∈ pe.live, r.addr b.slot + sizeofBlock ≤ b.ptr ∧
      b.ptr < r.addr b.slot + r.slotsize * b.nslots) ∧
    (∀ b ∈ pe.live, ∀ b' ∈ pe.live, b ≠ b' →
      r.addr b.slot + r.slotsize * b.nslots ≤ r.addr b'.slot ∨
        r.addr b'.slot + r.slotsize * b'.nslots ≤ r.addr b.slot) ∧
    ∀ x, (∃ b ∈ pe.myss.btreeRoot.elems, x ∈ slots b.startslot b.nslots) ↔
      x ∈ r.own ∧ ∀ b ∈ pe.live, x ∉ slots b.slot b.nslots := by
  have h := accounted_of_run h₀ hrun hfits
  refine ⟨fun b hb => ⟨(h.headed b hb).lo, (h.headed b hb).hi⟩, fun b hb b' hb' hne => ?_,
    fun x => ?_⟩
  · exact Ranges.addr_apart (h.nonempty b hb) (h.nonempty b' hb') (h.own b hb) (h.own b' hb')
      (h.apart b hb b' hb' hne)
  · exact (h.holding.cover x).symm

end Runs

/-- Four slots of 16 KiB. -/
def smallRanges : Ranges where
  slotsize := 2 ^ 14
  isomallocStart := 2 ^ 40
  numslots := 4
  myPe := 0
  slotsize_pow := ⟨14, by decide, by decide, rfl⟩
  start_pos := by decide
  numslots_pos := by decide
  region := by decide

/-- The blocks after calls on a new processor, with the range that a free gives back. -/
def blocksAfter (cs : List IsoCall) : Option (List (Int × Nat × Option (Int × Nat))) :=
  (initialPe smallRanges).bind fun pe₀ => (cs.foldlM (IsoCall.exec smallRanges) pe₀).map fun pe =>
    pe.live.map fun b => (b.slot, b.nslots, freedRange smallRanges pe b.ptr)

theorem exists_run {cs : List IsoCall} {bs : List (Int × Nat × Option (Int × Nat))}
    (hlegal : ∀ c ∈ cs, ∀ pe, c.Legal pe) (h : blocksAfter cs = some bs) :
    ∃ pe₀ pe, initialPe smallRanges = some pe₀ ∧ Run (IsoStep smallRanges) pe₀ cs pe ∧
      pe.live.map (fun b => (b.slot, b.nslots, freedRange smallRanges pe b.ptr)) = bs := by
  obtain ⟨pe₀, h₀, hcalls⟩ := bind_eq_some_iff.1 h
  obtain ⟨pe, hfold, hlive⟩ := map_eq_some_iff.1 hcalls
  exact ⟨pe₀, pe, h₀, (Run.of_foldlM hfold).mono_mem fun a c _ hc hexec => ⟨hlegal c hc a, hexec⟩,
    hlive⟩

theorem exists_plain {size : Int32} {slot : Int} {nslots : Nat} {freed : Option (Int × Nat)}
    (h : blocksAfter [.plain size] = some [(slot, nslots, freed)]) :
    ∃ pe₀ pe b, initialPe smallRanges = some pe₀ ∧
      Run (IsoStep smallRanges) pe₀ [.plain size] pe ∧ pe.live = [b] ∧
      (b.slot, b.nslots, freedRange smallRanges pe b.ptr) = (slot, nslots, freed) := by
  obtain ⟨pe₀, pe, h₀, hrun, hlive⟩ := exists_run (by simp [IsoCall.Legal]) h
  obtain ⟨b, hb, hblock⟩ := map_eq_singleton_iff.1 hlive
  exact ⟨pe₀, pe, b, h₀, hrun, hb, hblock⟩

theorem fits_hundred_bytes : IsoCall.Fits smallRanges (.plain 100) :=
  show (32 + 100 - 1) % 2 ^ 14 + (32 + 0) < 2 ^ 14 by decide

/-- A block of 100 bytes leaves room in its slot. -/
theorem slot_accounting_hundred_bytes : ∃ pe₀ pe, initialPe smallRanges = some pe₀ ∧
    Run (IsoStep smallRanges) pe₀ [.plain 100] pe ∧ pe.live ≠ [] ∧
    ∀ b ∈ pe.live, freedRange smallRanges pe b.ptr = some (b.slot, b.nslots) := by
  obtain ⟨pe₀, pe, b, h₀, hrun, hlive, -⟩ :=
    exists_plain (show blocksAfter [.plain 100] = some [(0, 1, some (0, 1))] by decide +kernel)
  have hfits := forall_mem_singleton.2 fits_hundred_bytes
  exact ⟨pe₀, pe, h₀, hrun, by simp [hlive],
    fun b hb => ((slot_accounting smallRanges h₀ hrun hfits).1 b hb).1⟩

/-- Two blocks, the second one aligned to 64 bytes, in two of the four slots. -/
theorem blocks_disjoint_two_blocks : ∃ pe₀ pe b b', initialPe smallRanges = some pe₀ ∧
    Run (IsoStep smallRanges) pe₀ [.plain 100, .aligned 64 200 0] pe ∧ pe.live = [b', b] ∧
    b ≠ b' ∧
    (smallRanges.addr b.slot + smallRanges.slotsize * b.nslots ≤ smallRanges.addr b'.slot ∨
      smallRanges.addr b'.slot + smallRanges.slotsize * b'.nslots ≤ smallRanges.addr b.slot) ∧
    b'.ptr < smallRanges.addr b'.slot + smallRanges.slotsize * b'.nslots ∧
    ∃ c ∈ pe.myss.btreeRoot.elems, 2 ∈ slots c.startslot c.nslots := by
  obtain ⟨pe₀, pe, h₀, hrun, hlive⟩ := exists_run (by simp [IsoCall.Legal])
    (show blocksAfter [.plain 100, .aligned 64 200 0] =
      some [(1, 1, some (1, 1)), (0, 1, some (0, 1))] by decide +kernel)
  obtain ⟨b', rest, hpe, hb', hrest⟩ := map_eq_cons_iff.1 hlive
  obtain ⟨b, rfl, hb⟩ := map_eq_singleton_iff.1 hrest
  simp only [Prod.mk.injEq] at hb hb'
  have hfits : ∀ c ∈ [IsoCall.plain 100, .aligned 64 200 0], c.Fits smallRanges := by
    refine forall_mem_cons.2 ⟨fits_hundred_bytes, forall_mem_singleton.2 fun align halign => ?_⟩
    obtain rfl : 64 = align := some.inj ((by decide : validateAlign 64 = some 64).symm.trans halign)
    show (32 + 200 - 1) % 2 ^ 14 + (32 + 64) < 2 ^ 14
    decide
  obtain ⟨hptr, hapart, hfree⟩ := blocks_disjoint h₀ hrun hfits
  have hne : b ≠ b' := by
    rintro rfl
    omega
  have hmem : b ∈ pe.live := by simp [hpe]
  have hmem' : b' ∈ pe.live := by simp [hpe]
  refine ⟨pe₀, pe, b, b', h₀, hrun, hpe, hne, hapart b hmem b' hmem' hne, (hptr b' hmem').2, ?_⟩
  refine (hfree 2).2 ⟨⟨by decide, by decide⟩, fun c hc hslot => ?_⟩
  -- the blocks have the slots 0 and 1
  have h1 := hslot.1
  have h2 := hslot.2
  rw [hpe] at hc
  simp only [mem_cons, not_mem_nil, or_false] at hc
  rcases hc with rfl | rfl <;> omega

/-- A block of 16321 bytes is given two slots, of which one is given back. -/
theorem plain_keeps_a_slot : ∃ pe₀ pe b, initialPe smallRanges = some pe₀ ∧
    Run (IsoStep smallRanges) pe₀ [.plain 16321] pe ∧ pe.live = [b] ∧ b.nslots = 2 ∧
    freedRange smallRanges pe b.ptr = some (b.slot, 1) := by
  obtain ⟨pe₀, pe, b, h₀, hrun, hlive, hb⟩ :=
    exists_plain (show blocksAfter [.plain 16321] = some [(0, 2, some (0, 1))] by decide +kernel)
  simp only [Prod.mk.injEq] at hb
  obtain ⟨hslot, hn, hfreed⟩ := hb
  exact ⟨pe₀, pe, b, h₀, hrun, hlive, hn, hslot ▸ hfreed⟩

end CharmRuntime.Isomalloc
