import Mathlib.Algebra.Order.Group.Multiset

/-!
# Blocks of bytes cut into stripes, and blocks put together again

A block is a position and the list of its bytes; its cells are the bytes with their own positions
(`List.zipIdx`). A loop that always goes up to the next multiple of a stripe size cuts a block into
pieces. No cell is lost or repeated (`flatMap_cut`), and each piece lies in one stripe (`mem_cut`).

In the other direction a block is put together in an array. The cells that have been put there are
among the cells of the array (`le_splice`), so that they are all of them as soon as there are enough
(`eq_of_card`).
-/

set_option autoImplicit false

namespace CharmRuntime.Lib.Stripes

open List
open Multiset (mem_coe mem_add)

universe u

variable {β : Type u}

/-! ## Cutting -/

/-- The pieces of a block, up to the next multiple of `stripe` each time. The first argument bounds
the number of pieces. -/
def cut (stripe : Nat) : Nat → Nat → List β → List (Nat × List β)
  | 0, _, _ => []
  | fuel + 1, offset, data =>
    if data = [] then []
    else
      let n := min data.length (stripe - offset % stripe)
      (offset, data.take n) :: cut stripe fuel (offset + n) (data.drop n)

section Cut

variable {stripe fuel offset : Nat} {data : List β}

variable (hstripe : 0 < stripe)

include hstripe

/-- A piece has at least one byte. -/
theorem piece_pos (hdata : data ≠ []) : 0 < min data.length (stripe - offset % stripe) :=
  lt_min (length_pos_iff.2 hdata) (Nat.sub_pos_of_lt (Nat.mod_lt _ hstripe))

/-- The cells of the pieces are those of the block. -/
theorem flatMap_cut (hfuel : data.length ≤ fuel) :
    (cut stripe fuel offset data).flatMap (fun piece => piece.2.zipIdx piece.1) =
      data.zipIdx offset := by
  induction fuel generalizing offset data with
  | zero =>
    obtain rfl : data = [] := length_eq_zero_iff.1 (Nat.le_zero.1 hfuel)
    rfl
  | succ fuel ih =>
    rw [cut]
    split
    case isTrue h => rw [h, zipIdx_nil, flatMap_nil]
    case isFalse h =>
      have hpos := @piece_pos β stripe offset data hstripe h
      rw [flatMap_cons, ih (by rw [length_drop]; omega)]
      conv_rhs => rw [← take_append_drop (min data.length (stripe - offset % stripe)) data]
      rw [zipIdx_append, length_take, min_eq_left (min_le_left _ _)]

/-- Each piece is a part of the block that lies in one stripe. -/
theorem mem_cut {piece : Nat × List β} (hmem : piece ∈ cut stripe fuel offset data) :
    piece.2 ≠ [] ∧ offset ≤ piece.1 ∧ piece.1 + piece.2.length ≤ offset + data.length ∧
      piece.1 % stripe + piece.2.length ≤ stripe := by
  induction fuel generalizing offset data with
  | zero => exact absurd hmem not_mem_nil
  | succ fuel ih =>
    rw [cut] at hmem
    split at hmem
    case isTrue h => exact absurd hmem not_mem_nil
    case isFalse h =>
      have hpos := @piece_pos β stripe offset data hstripe h
      rcases mem_cons.1 hmem with rfl | hmem
      · have hlen : (data.take (min data.length (stripe - offset % stripe))).length =
            min data.length (stripe - offset % stripe) := by
          rw [length_take, min_eq_left (min_le_left _ _)]
        dsimp only
        refine ⟨length_pos_iff.1 (hlen.symm ▸ hpos), le_rfl, ?_, ?_⟩ <;> omega
      · obtain ⟨hne, hle, hend, hin⟩ := ih hmem
        rw [length_drop] at hend
        exact ⟨hne, by omega, by omega, hin⟩

end Cut

/-! ## Putting together -/

/-- The bytes of `data` replace those of the array from a position on. -/
def splice (array : List β) (pos : Nat) (data : List β) : List β :=
  array.take pos ++ data ++ array.drop (pos + data.length)

section Splice

variable {array data : List β} {pos k i : Nat} {cells : Multiset (β × Nat)}

theorem length_splice (hpos : pos + data.length ≤ array.length) :
    (splice array pos data).length = array.length := by
  rw [splice, length_append, length_append, length_take, length_drop]
  omega

section

variable (hpos : pos ≤ array.length)

include hpos

theorem getElem?_splice_of_lt (hi : i < pos) :
    (splice array pos data)[i]? = array[i]? := by
  rw [splice, append_assoc, getElem?_append_left (by rw [length_take]; omega),
    getElem?_take_of_lt hi]

theorem getElem?_splice_of_mem (hi : i < data.length) :
    (splice array pos data)[pos + i]? = data[i]? := by
  have hlen : (array.take pos).length = pos := by rw [length_take, min_eq_left hpos]
  rw [splice, append_assoc, getElem?_append_right (by omega), hlen, Nat.add_sub_cancel_left,
    getElem?_append_left hi]

theorem getElem?_splice_of_ge (hi : pos + data.length ≤ i) :
    (splice array pos data)[i]? = array[i]? := by
  have hlen : (array.take pos ++ data).length = pos + data.length := by
    rw [length_append, length_take, min_eq_left hpos]
  rw [splice, getElem?_append_right (by omega), hlen, getElem?_drop, Nat.add_sub_cancel' hi]

end

theorem nodup_zipIdx (l : List β) (k : Nat) : (l.zipIdx k).Nodup := by
  refine Nodup.of_map Prod.snd ?_
  rw [zipIdx_map_snd]
  exact nodup_range'

variable (hcells : cells ≤ ↑(array.zipIdx k))

include hcells

/-- Cells that have been put in the array stay there, and new ones come to it. -/
theorem le_splice (hpos : pos + data.length ≤ array.length)
    (hnew : ∀ c ∈ cells, c.2 < k + pos ∨ k + pos + data.length ≤ c.2) :
    cells + ↑(data.zipIdx (k + pos)) ≤ ↑((splice array pos data).zipIdx k) := by
  have hold : cells.Nodup := Multiset.nodup_of_le hcells (nodup_zipIdx array k)
  have hdisj : Disjoint cells ↑(data.zipIdx (k + pos)) := by
    rw [Multiset.disjoint_left]
    intro c hc hdata
    obtain ⟨hge, hget⟩ := mk_mem_zipIdx_iff_le_and_getElem?_sub.1 (mem_coe.1 hdata)
    have hlt := (List.getElem?_eq_some_iff.1 hget).1
    rcases hnew c hc with h | h <;> omega
  have hdata : Multiset.Nodup (↑(data.zipIdx (k + pos)) : Multiset (β × Nat)) :=
    nodup_zipIdx data (k + pos)
  rw [Multiset.le_iff_subset (Multiset.nodup_add.2 ⟨hold, hdata, hdisj⟩)]
  rintro ⟨b, p⟩ hc
  rw [mem_coe, mk_mem_zipIdx_iff_le_and_getElem?_sub]
  rcases mem_add.1 hc with hc | hc
  · obtain ⟨hge, hget⟩ := mk_mem_zipIdx_iff_le_and_getElem?_sub.1
      (mem_coe.1 (Multiset.mem_of_le hcells hc))
    refine ⟨hge, ?_⟩
    rcases hnew _ hc with h | h <;> dsimp only at h
    · rw [getElem?_splice_of_lt (by omega) (by omega), hget]
    · rw [getElem?_splice_of_ge (by omega) (by omega), hget]
  · obtain ⟨hge, hget⟩ := mk_mem_zipIdx_iff_le_and_getElem?_sub.1 (mem_coe.1 hc)
    have hlt := (List.getElem?_eq_some_iff.1 hget).1
    refine ⟨by omega, ?_⟩
    obtain ⟨i, rfl⟩ : ∃ i, p = k + pos + i := ⟨p - (k + pos), by omega⟩
    rw [Nat.add_sub_cancel_left] at hget hlt
    rw [add_assoc, Nat.add_sub_cancel_left, getElem?_splice_of_mem (by omega) hlt, hget]

/-- An array with as many cells as it has room for consists of these cells. -/
theorem eq_of_card (hcard : array.length ≤ cells.card) :
    cells = ↑(array.zipIdx k) := by
  refine Multiset.eq_of_le_of_card_le hcells ?_
  rw [Multiset.coe_card, length_zipIdx]
  exact hcard

end Splice

end CharmRuntime.Lib.Stripes
