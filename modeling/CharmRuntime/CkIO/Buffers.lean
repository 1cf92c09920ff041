import CharmRuntime.CkIO.Session
import Mathlib.Tactic.Abel

/-!
# The buffers of a `WriteSession` element

The bytes that an element has received are in its buffers or in the file (`Rep`). A piece of data
that lies in one write stripe comes to the buffer of the stripe, and the buffer is written as soon
as it is full, unless it has `2 ^ 31` bytes or more: `bytes_filled_so_far` is an `int` then and
never agrees with the size. This is `forwardStripe_spec` for one stripe and `forwardData_spec` for a
message.
-/

set_option autoImplicit false

namespace CharmRuntime.CkIO

open Lib Words List Option
open Multiset (mem_coe coe_card card_add)
open Multiset (map_add zero_le mem_add mem_filter coe_add)
open WriteSession (stripeOffset expectedBufferSize flushBuffer forwardData)

/-- A byte and its offset in the file. -/
abbrev Cell := UInt8 × Nat

/-- The bytes of a write. -/
def cells (w : Write) : Multiset Cell := ↑(w.2.zipIdx w.1)

/-- The bytes of several writes. -/
def allCells (ws : List Write) : Multiset Cell := (ws.map cells).sum

/-- The offsets of bytes. -/
def offsets (c : Multiset Cell) : Multiset Nat := c.map Prod.snd

theorem offsets_add (c d : Multiset Cell) : offsets (c + d) = offsets c + offsets d := map_add _ _ _

theorem offsets_cells (w : Write) : offsets (cells w) = ↑(range' w.1 w.2.length) := by
  rw [offsets, cells, Multiset.map_coe, zipIdx_map_snd]

theorem mem_offsets_of_mem {c : Cell} {d : Multiset Cell} (h : c ∈ d) : c.2 ∈ offsets d :=
  Multiset.mem_map_of_mem _ h

theorem mem_cells_bounds {w : Write} {c : Cell} (h : c ∈ cells w) :
    w.1 ≤ c.2 ∧ c.2 < w.1 + w.2.length := by
  have hc := mem_offsets_of_mem h
  rw [offsets_cells, mem_coe, mem_range'_1] at hc
  exact hc

theorem card_cells (w : Write) : (cells w).card = w.2.length := by
  rw [cells, coe_card, length_zipIdx]

theorem cells_ne_zero {w : Write} (h : w.2 ≠ []) : cells w ≠ 0 := by
  rwa [← Multiset.card_pos, card_cells, length_pos_iff]

theorem nodup_offsets_add {c d : Multiset Cell} : (offsets (c + d)).Nodup ↔
    (offsets c).Nodup ∧ (offsets d).Nodup ∧ Disjoint (offsets c) (offsets d) := by
  rw [offsets_add, Multiset.nodup_add]

/-! ## Stripes -/

section Stripe

variable {W : Nat} {e : WriteSession} {p q : Nat}

/-- The offsets of an element. -/
def WriteSession.Mine (e : WriteSession) (p : Nat) : Prop :=
  e.myOffset ≤ p ∧ p < e.myOffset + e.myBytes

theorem stripeOffset_congr (h : q / W = p / W) : e.stripeOffset W q = e.stripeOffset W p := by
  rw [stripeOffset, stripeOffset, h]

theorem expectedBufferSize_congr (h : q / W = p / W) :
    e.expectedBufferSize W q = e.expectedBufferSize W p := by
  rw [expectedBufferSize, expectedBufferSize, stripeOffset_congr h, h]

theorem div_mul_bounds (hW : 0 < W) (p : Nat) : p / W * W ≤ p ∧ p < p / W * W + W := by
  have hdiv := Nat.div_add_mod p W
  have hmod := Nat.mod_lt p hW
  rw [mul_comm] at hdiv
  omega

/-- The buffer of an offset is for the part of its stripe that belongs to the element. -/
theorem mem_stripe_iff (hW : 0 < W) (hp : e.Mine p) :
    (e.stripeOffset W p ≤ q ∧ q < e.stripeOffset W p + e.expectedBufferSize W p) ↔
    e.Mine q ∧ q / W = p / W := by
  obtain ⟨hp, hp'⟩ := hp
  rw [WriteSession.Mine, Nat.div_eq_iff hW, expectedBufferSize, stripeOffset]
  omega

theorem stripeOffset_ne (hW : 0 < W) (hp : e.Mine p) (hq : e.Mine q) (hne : q / W ≠ p / W) :
    e.stripeOffset W q ≠ e.stripeOffset W p := by
  intro heq
  have hself := (mem_stripe_iff hW hp).2 ⟨hp, rfl⟩
  have hself' := (mem_stripe_iff hW hq).2 ⟨hq, rfl⟩
  -- The first offset of a buffer is in its own stripe.
  have h1 := ((mem_stripe_iff hW hp).1 ⟨le_rfl, by omega⟩).2
  have h2 := ((mem_stripe_iff hW hq).1 ⟨le_rfl, by omega⟩).2
  exact hne (h2.symm.trans (heq ▸ h1))

end Stripe

/-! ## What an element holds -/

/-- The bytes of a stripe. -/
def inStripe (W : Nat) (held : Multiset Cell) (p : Nat) : Multiset Cell :=
  held.filter fun c => c.2 / W = p / W

/-- A buffer of a size, for a position in the file, with some bytes in it. It is not full, or is too
large ever to be found full. -/
structure Buffer.Holds (buf : Buffer) (offset size : Nat) (held : Multiset Cell) : Prop where
  length : buf.array.length = size
  le : held ≤ ↑(buf.array.zipIdx offset)
  filled : buf.bytesFilledSoFar = toInt32 held.card
  room : held.card < size ∨ 2 ^ 31 ≤ size

/-- The bytes that an element has received: those in its buffers, and those that it has written. -/
structure Rep (W : Nat) (e : WriteSession) (held written : Multiset Cell) : Prop where
  count : e.myBytesWritten = written.card
  mine : ∀ c ∈ held + written, e.Mine c.2
  nodup : (offsets (held + written)).Nodup
  whole : ∀ c ∈ written, e.expectedBufferSize W c.2 < 2 ^ 31 ∧
    ∀ p, e.Mine p → p / W = c.2 / W → p ∈ offsets written
  buffers : ∀ p, e.Mine p →
    (e.currentBuffer W p).Holds (e.stripeOffset W p) (e.expectedBufferSize W p) (inStripe W held p)
  keys : ∀ k ∈ e.bufferMap, ∃ c ∈ held, k = e.stripeOffset W c.2
  present : ∀ c ∈ held, e.stripeOffset W c.2 ∈ e.bufferMap

section Buffers

variable {W : Nat} {e : WriteSession} {held written : Multiset Cell}

variable {buf : Buffer} {size q : Nat}

theorem expect_of_length (h : buf.array.length = size) : buf.expect size = buf := by
  rw [Buffer.expect, ← h, take_length, Nat.sub_self, replicate_zero, append_nil]

theorem holds_empty {offset : Nat} (hsize : 0 < size) :
    (Buffer.empty.expect size).Holds offset size 0 where
  length := by simp [Buffer.empty, Buffer.expect]
  le := zero_le _
  filled := rfl
  room := .inl hsize

/-- A buffer is found full when it is, if it has less than `2 ^ 31` bytes, and never otherwise. -/
theorem isFull_iff {n : Nat} (hlen : buf.array.length = size)
    (hfilled : buf.bytesFilledSoFar = toInt32 n) (hn : n ≤ size) (hsize : size < 2 ^ 63) :
    buf.isFull ↔ n = size ∧ size < 2 ^ 31 := by
  rw [Buffer.isFull, decide_eq_true_iff, hfilled, hlen]
  have hbounds := toInt32_bounds n
  by_cases hsmall : size < 2 ^ 31
  · rw [toInt32_natCast (by omega)]
    omega
  · omega

theorem inStripe_congr {p : Nat} (h : q / W = p / W) : inStripe W held q = inStripe W held p := by
  rw [inStripe, inStripe, h]

theorem inStripe_add (c d : Multiset Cell) (p : Nat) :
    inStripe W (c + d) p = inStripe W c p + inStripe W d p :=
  Multiset.filter_add _ _ _

variable {w : Write}

/-- The data of a piece comes to its buffer. -/
theorem Buffer.Holds.insertData {base : Nat} (h : buf.Holds base size held) (hbase : base ≤ w.1)
    (hend : w.1 + w.2.length ≤ base + size) (hnew : Disjoint (offsets held) (offsets (cells w))) :
    ∃ buf', buf.insertData w.2 (w.1 - base) = some buf' ∧ buf'.array.length = size ∧
      held + cells w ≤ ↑(buf'.array.zipIdx base) ∧ buf'.bytesFilledSoFar = toInt32
      ((held + cells w).card : Nat) ∧ (held + cells w).card ≤ size := by
  have hlen := h.length
  have hbound : w.1 - base + w.2.length ≤ buf.array.length := by omega
  have hpos : base + (w.1 - base) = w.1 := by omega
  have hle : held + cells w ≤ ↑((Stripes.splice buf.array (w.1 - base) w.2).zipIdx base) := by
    have hsplice := Stripes.le_splice h.le hbound fun c hc => ?_
    · rwa [hpos] at hsplice
    · by_contra hin
      refine Multiset.disjoint_left.1 hnew (mem_offsets_of_mem hc) ?_
      rw [offsets_cells, mem_coe, mem_range'_1]
      omega
  have hlen' := @Stripes.length_splice _ buf.array w.2 _ hbound
  refine ⟨_, if_pos hbound, hlen'.trans hlen, hle, ?_, ?_⟩
  · rw [h.filled, toInt32_add, card_add, card_cells, Int.natCast_add]
  · have hcard := Multiset.card_le_card hle
    rwa [coe_card, length_zipIdx, hlen', hlen] at hcard

section Piece

variable {p : Nat} {new : Multiset Cell}

theorem inStripe_of_forall (hnew : ∀ c ∈ new, c.2 / W = p / W) : inStripe W new p = new :=
  Multiset.filter_eq_self.2 hnew

theorem inStripe_of_ne (hnew : ∀ c ∈ new, c.2 / W = p / W) (hq : q / W ≠ p / W) :
    inStripe W new q = 0 :=
  Multiset.filter_eq_nil.2 fun c hc heq => hq (heq.symm.trans (hnew c hc))

theorem currentBuffer_eq (n : Nat) (map : AList fun _ : Nat => Buffer) (q : Nat) :
    WriteSession.currentBuffer ⟨e.myOffset, e.myBytes, n, map⟩ W q =
      ((map.lookup (e.stripeOffset W q)).getD .empty).expect (e.expectedBufferSize W q) := rfl

/-- New bytes of a stripe are put in its buffer, which stays. -/
theorem Rep.store (hW : 0 < W) (hrep : Rep W e held written) (hp : e.Mine p)
    (hnew : ∀ c ∈ new, e.Mine c.2 ∧ c.2 / W = p / W) (hne : new ≠ 0)
    (hnodup : (offsets (held + written + new)).Nodup)
    (hbuf : buf.Holds (e.stripeOffset W p) (e.expectedBufferSize W p) (inStripe W held p + new)) :
    Rep W { e with bufferMap := e.bufferMap.insert (e.stripeOffset W p) buf }
    (held + new) written where
  count := hrep.count
  mine c hc := by
    rw [add_right_comm] at hc
    rcases mem_add.1 hc with hc | hc
    · exact hrep.mine c hc
    · exact (hnew c hc).1
  nodup := by rwa [add_right_comm]
  whole := hrep.whole
  buffers q hq := by
    rw [inStripe_add, currentBuffer_eq]
    change Buffer.Holds _ (e.stripeOffset W q) (e.expectedBufferSize W q) _
    by_cases heq : q / W = p / W
    · rw [inStripe_congr heq, inStripe_congr heq, inStripe_of_forall fun c hc => (hnew c hc).2,
        stripeOffset_congr heq,
        expectedBufferSize_congr heq, AList.lookup_insert, getD_some, expect_of_length hbuf.length]
      exact hbuf
    · rw [inStripe_of_ne (fun c hc => (hnew c hc).2) heq, add_zero,
        AList.lookup_insert_ne (stripeOffset_ne hW hp hq heq)]
      exact hrep.buffers q hq
  keys k hk := by
    rcases (AList.mem_insert _).1 hk with rfl | hk
    · obtain ⟨c, hc⟩ := Multiset.exists_mem_of_ne_zero hne
      exact ⟨c, mem_add.2 (.inr hc), (stripeOffset_congr (hnew c hc).2).symm⟩
    · obtain ⟨c, hc, hk⟩ := hrep.keys k hk
      exact ⟨c, mem_add.2 (.inl hc), hk⟩
  present c hc := by
    rcases mem_add.1 hc with hc | hc
    · exact (AList.mem_insert _).2 (.inr (hrep.present c hc))
    · exact (AList.mem_insert _).2 (.inl (stripeOffset_congr (hnew c hc).2))

/-- The bytes of a stripe come from those held to those written. -/
theorem filter_not_add {stripe : Multiset Cell} (hfull : inStripe W held p + new = stripe) :
    (held.filter fun c => ¬c.2 / W = p / W) + (written + stripe) = held + written + new := by
  conv_rhs => rw [← Multiset.filter_add_not (fun c : Cell => c.2 / W = p / W) held]
  rw [← hfull, inStripe]
  abel

/-- New bytes of a stripe make its buffer full, and the stripe is written. -/
theorem Rep.flush {array : List UInt8} (hW : 0 < W) (hrep : Rep W e held written) (hp : e.Mine p)
    (hnodup : (offsets (held + written + new)).Nodup)
    (hlen : array.length = e.expectedBufferSize W p) (hsize : array.length < 2 ^ 31)
    (hfull : inStripe W held p + new = cells (e.stripeOffset W p, array)) : Rep W { e with
        myBytesWritten := e.myBytesWritten + array.length
        bufferMap := e.bufferMap.erase (e.stripeOffset W p) }
      (held.filter fun c => ¬c.2 / W = p / W) (written + cells (e.stripeOffset W p, array)) := by
  have hstripe : ∀ c ∈ cells (e.stripeOffset W p, array), e.Mine c.2 ∧ c.2 / W = p / W :=
    fun c hc => by
    have hbounds := mem_cells_bounds hc
    rw [hlen] at hbounds
    exact (mem_stripe_iff hW hp).1 hbounds
  exact {
    count := by
      rw [card_add, card_cells, ← hrep.count]
    mine := fun c hc => by
      rcases mem_add.1 hc with hc | hc
      · exact hrep.mine c (mem_add.2 (.inl (Multiset.mem_of_mem_filter hc)))
      · rcases mem_add.1 hc with hc | hc
        · exact hrep.mine c (mem_add.2 (.inr hc))
        · exact (hstripe c hc).1
    nodup := by rwa [filter_not_add hfull]
    whole := fun c hc => by
      rw [offsets_add]
      rcases mem_add.1 hc with hc | hc
      · obtain ⟨hsmall, hin⟩ := hrep.whole c hc
        exact ⟨hsmall, fun q hq heq => mem_add.2 (.inl (hin q hq heq))⟩
      · have hc := (hstripe c hc).2
        refine ⟨?_, fun q hq heq => mem_add.2 (.inr ?_)⟩
        · change e.expectedBufferSize W c.2 < _
          rwa [expectedBufferSize_congr hc, ← hlen]
        · rw [offsets_cells, mem_coe, mem_range'_1, hlen]
          exact (mem_stripe_iff hW hp).2 ⟨hq, heq.trans hc⟩
    buffers := fun q hq => by
      rw [currentBuffer_eq]
      by_cases heq : q / W = p / W
      · -- Nothing is left in the stripe.
        have hnone : inStripe W (held.filter fun c => ¬c.2 / W = p / W) q = 0 := by
          rw [inStripe_congr heq, inStripe, Multiset.filter_filter, Multiset.filter_eq_nil]
          exact fun c _ h => h.2 h.1
        have hself := (mem_stripe_iff (e := e) hW hq).2 ⟨hq, rfl⟩
        rw [hnone, stripeOffset_congr heq, AList.lookup_erase, getD_none]
        exact holds_empty (by omega)
      · have hsame : inStripe W (held.filter fun c => ¬c.2 / W = p / W) q = inStripe W held q := by
          rw [inStripe, inStripe, Multiset.filter_filter]
          exact Multiset.filter_congr fun c _ =>
            ⟨And.left, fun h => ⟨h, fun h' => heq (h.symm.trans h')⟩⟩
        rw [hsame, AList.lookup_erase_ne (stripeOffset_ne hW hp hq heq)]
        exact hrep.buffers q hq
    keys := fun k hk => by
      obtain ⟨hne, hk⟩ := AList.mem_erase.1 hk
      obtain ⟨c, hc, rfl⟩ := hrep.keys k hk
      exact ⟨c, mem_filter.2 ⟨hc, fun heq => hne (stripeOffset_congr heq)⟩, rfl⟩
    present := fun c hc => by
      obtain ⟨hc, hne⟩ := mem_filter.1 hc
      have hmine := hrep.mine c (mem_add.2 (.inl hc))
      exact AList.mem_erase.2 ⟨stripeOffset_ne hW hp hmine hne, hrep.present c hc⟩ }

end Piece

/-- What a call for new bytes leaves of an element: it holds the bytes or has written them. -/
structure After (W : Nat) (e : WriteSession) (held written new : Multiset Cell)
    (o : Outcome) : Prop where
  myOffset : o.element.myOffset = e.myOffset
  myBytes : o.element.myBytes = e.myBytes
  rep : ∃ held', held' + (written + allCells o.written) = held + written + new ∧
    Rep W o.element held' (written + allCells o.written)

theorem allCells_nil : allCells [] = 0 := rfl

theorem allCells_cons (ws : List Write) : allCells (w :: ws) = cells w + allCells ws := by
  rw [allCells, map_cons, sum_cons, allCells]

theorem allCells_append (ws ws' : List Write) :
    allCells (ws ++ ws') = allCells ws + allCells ws' := by
  rw [allCells, map_append, sum_append]
  rfl

/-- One stripe of data. -/
theorem forwardStripe_spec (hW : 0 < W) (hfile : e.myOffset + e.myBytes < 2 ^ 63)
    (hrep : Rep W e held written) (hne : w.2 ≠ [])
    (hmine : e.myOffset ≤ w.1 ∧ w.1 + w.2.length ≤ e.myOffset + e.myBytes)
    (hstripe : w.1 % W + w.2.length ≤ W) (hnodup : (offsets (held + written + cells w)).Nodup) :
    ∃ o, e.forwardStripe W w.1 w.2 = some o ∧ After W e held written (cells w) o := by
  have hlen := length_pos_iff.2 hne
  have hin : ∀ q, w.1 ≤ q → q < w.1 + w.2.length → e.Mine q ∧ q / W = w.1 / W := fun q hq hq' => by
    refine ⟨⟨by omega, by omega⟩, ?_⟩
    obtain ⟨d, rfl⟩ : ∃ d, q = w.1 + d := ⟨q - w.1, by omega⟩
    exact (div_add_eq_iff hW w.1 d).2 (by omega)
  have hp : e.Mine w.1 := (hin w.1 le_rfl (by omega)).1
  have hnew : ∀ c ∈ cells w, e.Mine c.2 ∧ c.2 / W = w.1 / W := fun c hc =>
    hin c.2 (mem_cells_bounds hc).1 (mem_cells_bounds hc).2
  have hfirst := (mem_stripe_iff hW hp).2 ⟨hp, rfl⟩
  have hlast := (mem_stripe_iff hW hp).2 (hin (w.1 + w.2.length - 1) (by omega) (by omega))
  have hdisj : Disjoint (offsets (inStripe W held w.1)) (offsets (cells w)) := by
    refine (nodup_offsets_add.1 hnodup).2.2.mono_left (Multiset.map_le_map ?_)
    exact (Multiset.filter_le _ _).trans (Multiset.le_add_right _ _)
  obtain ⟨buf, hbuf, hbufLen, hbufLe, hfilled, hcard⟩ :=
    (hrep.buffers w.1 hp).insertData hfirst.1 (by omega) hdisj
  have hsize : e.expectedBufferSize W w.1 < 2 ^ 63 := by
    rw [expectedBufferSize]
    omega
  have hiff := isFull_iff hbufLen hfilled hcard hsize
  rw [WriteSession.forwardStripe, hbuf, map_some]
  by_cases hfull : buf.isFull
  · obtain ⟨heq, hsmall⟩ := hiff.1 hfull
    have hall : inStripe W held w.1 + cells w = cells (e.stripeOffset W w.1, buf.array) :=
      Stripes.eq_of_card hbufLe (by rw [hbufLen, heq])
    have hl : buf.bytesFilledSoFar.toNat = buf.array.length := by
      rw [hfilled, heq, toInt32_natCast hsmall, hbufLen, Int.toNat_natCast]
    rw [if_pos hfull]
    refine ⟨_, rfl, rfl, rfl, held.filter fun c => ¬c.2 / W = w.1 / W, ?_⟩
    dsimp only [flushBuffer]
    rw [hl, take_length, allCells_cons, allCells_nil, add_zero]
    exact ⟨filter_not_add hall, hrep.flush hW hp hnodup hbufLen (hbufLen.symm ▸ hsmall) hall⟩
  · rw [if_neg hfull]
    refine ⟨_, rfl, rfl, rfl, held + cells w, ?_⟩
    rw [allCells_nil, add_zero]
    have hroom : (inStripe W held w.1 + cells w).card < e.expectedBufferSize W w.1 ∨
        2 ^ 31 ≤ e.expectedBufferSize W w.1 := by
      by_contra hno
      exact hfull (hiff.2 (by omega))
    refine ⟨add_right_comm _ _ _, hrep.store hW hp hnew (cells_ne_zero hne) hnodup ?_⟩
    exact ⟨hbufLen, hbufLe, hfilled, hroom⟩

theorem After.of_nil (hrep : Rep W e held written) (h : w.2 = []) :
    After W e held written (cells w) ⟨e, []⟩ := by
  refine ⟨rfl, rfl, held, ?_⟩
  rw [cells, h, allCells_nil, add_zero]
  exact ⟨(add_zero _).symm, hrep⟩

section Forward

variable (hW : 0 < W) (hfile : e.myOffset + e.myBytes < 2 ^ 63) (hrep : Rep W e held written)
  (hmine : e.myOffset ≤ w.1 ∧ w.1 + w.2.length ≤ e.myOffset + e.myBytes)
  (hnodup : (offsets (held + written + cells w)).Nodup)

include hW hfile hrep hmine hnodup

/-- The loop: the data is cut at the write stripes. -/
theorem forwardLoop_spec {fuel : Nat} (hfuel : w.2.length ≤ fuel) :
    ∃ o, forwardLoop W fuel w.1 w.2 e = some o ∧ After W e held written (cells w) o := by
  induction fuel generalizing e held written w with
  | zero => exact ⟨_, rfl, .of_nil hrep (length_eq_zero_iff.1 (Nat.le_zero.1 hfuel))⟩
  | succ fuel ih =>
    rw [forwardLoop]
    split
    case isTrue h => exact ⟨_, rfl, .of_nil hrep h⟩
    case isFalse hne =>
      have hbase := div_mul_bounds hW w.1
      have hmod := Nat.div_add_mod w.1 W
      rw [mul_comm] at hmod
      have hlen := length_pos_iff.2 hne
      dsimp only
      generalize hn : min (w.1 / W * W + W - w.1) w.2.length = n
      have htake : (w.2.take n).length = n := by rw [length_take]; omega
      have hsplit : cells w = cells (w.1, w.2.take n) + cells (w.1 + n, w.2.drop n) := by
        rw [cells, cells, cells, coe_add]
        conv_lhs => rw [← take_append_drop n w.2, zipIdx_append, htake]
      rw [hsplit, ← add_assoc] at hnodup
      obtain ⟨o, ho, hoff, hbytes, held', hall, hrep'⟩ :=
        @forwardStripe_spec W e held written (w.1, w.2.take n) hW hfile hrep
          (length_pos_iff.1 (by rw [htake]; omega)) (by dsimp only; rw [htake]; omega)
          (by dsimp only; rw [htake]; omega) (nodup_offsets_add.1 hnodup).1
      obtain ⟨o', ho', hoff', hbytes', held'', hall', hrep''⟩ :=
        @ih o.element held' (written + allCells o.written) (w.1 + n, w.2.drop n)
          (by rw [hoff, hbytes]; exact hfile)
          hrep' (by dsimp only; rw [length_drop, hoff, hbytes]; omega) (by rw [hall]; exact hnodup)
          (by dsimp only; rw [length_drop]; omega)
      rw [ho, bind_some, ho']
      refine ⟨_, rfl, hoff'.trans hoff, hbytes'.trans hbytes, held'', ?_⟩
      rw [allCells_append, ← add_assoc written, hsplit, ← add_assoc (held + written), ← hall]
      exact ⟨hall', hrep''⟩

/-- A message for an element. -/
theorem forwardData_spec : ∃ o, e.forwardData W w.2 w.1 = some o ∧
    After W e held written (cells w) o := by
  rw [forwardData, if_pos hmine]
  exact forwardLoop_spec hW hfile hrep hmine hnodup le_rfl

end Forward

end Buffers

end CharmRuntime.CkIO
