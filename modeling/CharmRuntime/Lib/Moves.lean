import Mathlib.Algebra.Order.Ring.Int

/-!
# Gathering and scattering bytes

A move is a pair of addresses, one in the memory of a user and one in a buffer. A list of moves is
carried out in order, from the user's memory into the buffer (`pack`) or back (`unpack`). The moves
for data at given displacements, which is consecutive in the buffer, are `pairs`. They are the only
consecutive moves with their effect on the buffer (`eq_pairs_of_pack`).
-/

set_option autoImplicit false

namespace CharmRuntime.Lib.Moves

open List Function

universe u

variable {β : Type u}

/-- An address of the user and an address in the buffer. -/
abbrev Move : Type := Int × Int

/-- Bytes are moved into the buffer. -/
def pack (moves : List Move) (user buffer : Int → β) : Int → β :=
  moves.foldl (fun b mv => update b mv.2 (user mv.1)) buffer

/-- Bytes are moved out of the buffer. -/
def unpack (moves : List Move) (user buffer : Int → β) : Int → β :=
  moves.foldl (fun u mv => update u mv.1 (buffer mv.2)) user

/-- The moves for bytes at displacements from `user`, which are consecutive in the buffer. -/
def pairs : List Int → Int → Int → List Move
  | [], _, _ => []
  | d :: ds, user, buffer => (user + d, buffer) :: pairs ds user (buffer + 1)

variable {ds ds' : List Int} {user buffer : Int}

theorem pairs_append : pairs (ds ++ ds') user buffer =
    pairs ds user buffer ++ pairs ds' user (buffer + ds.length) := by
  induction ds generalizing buffer with
  | nil => simp [pairs]
  | cons d ds ih =>
    rw [cons_append, pairs, pairs, ih, cons_append, length_cons, Nat.cast_succ,
      add_assoc, add_comm 1]

theorem pairs_map_add (d : Int) : pairs (ds.map (d + ·)) user buffer =
    pairs ds (user + d) buffer := by
  induction ds generalizing buffer with
  | nil => rfl
  | cons x ds ih => rw [map_cons, pairs, pairs, ih, add_assoc]

@[simp]
theorem length_pairs : (pairs ds user buffer).length = ds.length := by
  induction ds generalizing buffer with
  | nil => rfl
  | cons d ds ih => rw [pairs, length_cons, ih, length_cons]

theorem pairs_injective (h : pairs ds user buffer = pairs ds' user buffer) : ds = ds' := by
  induction ds generalizing ds' buffer with
  | nil =>
    cases ds' with
    | nil => rfl
    | cons d' ds' => simp [pairs] at h
  | cons d ds ih =>
    cases ds' with
    | nil => simp [pairs] at h
    | cons d' ds' =>
      rw [pairs, pairs, List.cons.injEq, Prod.mk.injEq] at h
      rw [ih h.2, Int.add_left_cancel h.1.1]

/-- The buffer addresses of moves are `n` consecutive ones. -/
def Consecutive (moves : List Move) (buffer : Int) (n : Nat) : Prop :=
  moves.map Prod.snd = (List.range n).map fun (i : Nat) => buffer + i

variable {moves moves' : List Move} {n : Nat} {mv : Move}

theorem Consecutive.length_eq (h : Consecutive moves buffer n) : moves.length = n := by
  simpa using congrArg List.length h

theorem Consecutive.append {n' : Nat} (h : Consecutive moves buffer n)
    (h' : Consecutive moves' (buffer + n) n') : Consecutive (moves ++ moves') buffer (n + n') := by
  rw [Consecutive, map_append, h, h', List.range_add, map_append, map_map]
  congr 1
  refine map_congr_left fun i _ => ?_
  simp only [comp_apply, Nat.cast_add]
  omega

theorem Consecutive.of_append
    (h : Consecutive (moves ++ moves') buffer n) : Consecutive moves buffer moves.length ∧
      Consecutive moves' (buffer + moves.length) moves'.length := by
  obtain rfl := h.length_eq
  rw [Consecutive, map_append, length_append, List.range_add, map_append, map_map] at h
  obtain ⟨hleft, hright⟩ := append_inj h (by simp)
  refine ⟨hleft, ?_⟩
  rw [Consecutive, hright]
  refine map_congr_left fun i _ => ?_
  simp only [comp_apply, Nat.cast_add]
  omega

theorem Consecutive.head (h : Consecutive (mv :: moves) buffer n) : mv.2 = buffer := by
  obtain rfl := h.length_eq
  rw [Consecutive, length_cons, range_succ_eq_map, map_cons, map_cons] at h
  simpa using (List.cons.inj h).1

theorem Consecutive.bounds (h : Consecutive moves buffer n)
    (hmv : mv ∈ moves) : buffer ≤ mv.2 ∧ mv.2 < buffer + n := by
  have hmem := mem_map_of_mem (f := Prod.snd) hmv
  rw [h] at hmem
  obtain ⟨i, hi, heq⟩ := mem_map.1 hmem
  have := mem_range.1 hi
  omega

theorem consecutive_pairs : Consecutive (pairs ds user buffer) buffer ds.length := by
  induction ds generalizing buffer with
  | nil => rfl
  | cons d ds ih =>
    have hhead : Consecutive [(user + d, buffer)] buffer 1 := by simp [Consecutive]
    have happend := hhead.append ih
    rwa [Nat.add_comm, ← length_cons] at happend

/-- A block of consecutive bytes. -/
theorem pairs_range (n : Nat) : pairs ((List.range n).map Int.ofNat) user buffer =
    (List.range n).map fun (i : Nat) => (user + i, buffer + i) := by
  induction n with
  | zero => rfl
  | succ n ih =>
    rw [range_succ, map_append, pairs_append, ih, map_append]
    simp [pairs]

/-! ## Whole elements -/

/-- Elements of the given sizes follow each other. The number of bytes of those that end within
`limit`. -/
def whole : List Nat → Nat → Nat
  | [], _ => 0
  | size :: sizes, limit => if size ≤ limit then size + whole sizes (limit - size) else 0

section Whole

variable {sizes sizes' : List Nat} {limit n size : Nat}

theorem whole_le : whole sizes limit ≤ limit := by
  induction sizes generalizing limit with
  | nil => exact Nat.zero_le limit
  | cons size sizes ih =>
    rw [whole]
    split
    · have := @ih (limit - size)
      omega
    · exact Nat.zero_le limit

theorem whole_append_of_le (h : sizes.sum ≤ limit) :
    whole (sizes ++ sizes') limit = sizes.sum + whole sizes' (limit - sizes.sum) := by
  induction sizes generalizing limit with
  | nil => simp
  | cons size sizes ih =>
    rw [sum_cons] at h ⊢
    rw [cons_append, whole, if_pos (by omega), ih (by omega), Nat.sub_sub, add_assoc]

theorem whole_append_of_lt (h : limit < sizes.sum) :
    whole (sizes ++ sizes') limit = whole sizes limit := by
  induction sizes generalizing limit with
  | nil => exact absurd h (Nat.not_lt_zero limit)
  | cons size sizes ih =>
    rw [sum_cons] at h
    rw [cons_append, whole, whole]
    split
    · rw [ih (by omega)]
    · rfl

section Take

variable {α : Type u} {l l' : List α}

theorem take_whole_append_of_le (hl : l.length = sizes.sum) (h : sizes.sum ≤ limit) :
    (l ++ l').take (whole (sizes ++ sizes') limit) =
      l ++ l'.take (whole sizes' (limit - sizes.sum)) := by
  rw [whole_append_of_le h, ← hl, take_length_add_append]

theorem take_whole_append_of_lt (hl : l.length = sizes.sum) (h : limit < sizes.sum) :
    (l ++ l').take (whole (sizes ++ sizes') limit) = l.take (whole sizes limit) := by
  rw [whole_append_of_lt h]
  refine take_append_of_le_length ?_
  have := @whole_le sizes limit
  omega

end Take

theorem whole_of_sum_le (h : sizes.sum ≤ limit) : whole sizes limit = sizes.sum := by
  have happend := @whole_append_of_le sizes [] limit h
  rwa [append_nil, whole, add_zero] at happend

theorem whole_le_sum : whole sizes limit ≤ sizes.sum := by
  rcases lt_or_ge limit sizes.sum with hlt | hge
  · exact whole_le.trans hlt.le
  · exact (whole_of_sum_le hge).le

theorem whole_append_of_eq (h : whole sizes limit = limit) :
    whole (sizes ++ sizes') limit = limit := by
  rcases lt_or_ge limit sizes.sum with hlt | hge
  · rw [whole_append_of_lt hlt, h]
  · rw [whole_of_sum_le hge] at h
    have := @whole_le sizes' (limit - sizes.sum)
    rw [whole_append_of_le hge]
    omega

theorem dvd_whole_replicate : size ∣ whole (replicate n size) limit := by
  induction n generalizing limit with
  | zero => exact Nat.dvd_zero size
  | succ n ih =>
    rw [replicate_succ, whole]
    split
    · exact (Nat.dvd_add_self_left).2 ih
    · exact Nat.dvd_zero size

theorem whole_replicate_of_dvd (hle : limit ≤ n * size) (h : size ∣ limit) :
    whole (replicate n size) limit = limit := by
  obtain ⟨k, rfl⟩ := h
  induction n generalizing k with
  | zero =>
    rw [zero_mul] at hle
    rw [Nat.le_zero.1 hle]
    rfl
  | succ n ih =>
    rw [replicate_succ, whole]
    cases k with
    | zero =>
      split
      case isTrue hsize =>
        obtain rfl : size = 0 := by simpa using hsize
        rw [zero_add]
        exact Nat.le_zero.1 whole_le
      case isFalse => rfl
    | succ k =>
      rw [Nat.succ_mul] at hle
      rw [Nat.mul_succ] at hle ⊢
      rw [if_pos (by omega), Nat.add_sub_cancel, ih k (by omega), add_comm]

end Whole

/-! ## Effects -/

section Effects

variable {mem buf : Int → β}

theorem pack_pairs_of_lt {a : Int} (h : a < buffer) :
    pack (pairs ds user buffer) mem buf a = buf a := by
  induction ds generalizing buffer buf with
  | nil => rfl
  | cons d ds ih =>
    rw [pairs, pack, foldl_cons, ← pack, ih (by omega), update_of_ne h.ne]

/-- What is in the buffer after packing. -/
theorem pack_pairs (k : Nat) : pack (pairs ds user buffer) mem buf (buffer + k) =
      (ds[k]?).elim (buf (buffer + k)) fun d => mem (user + d) := by
  induction ds generalizing buffer buf k with
  | nil => rfl
  | cons d ds ih =>
    rw [pairs, pack, foldl_cons, ← pack]
    cases k with
    | zero =>
      rw [Nat.cast_zero, add_zero, pack_pairs_of_lt (by omega), update_self]
      rfl
    | succ k =>
      have hk : buffer + (k + 1 : Nat) = buffer + 1 + k := by omega
      rw [hk, ih, getElem?_cons_succ, update_of_ne (by omega)]

theorem unpack_pairs_of_notMem {a : Int} (h : ∀ d ∈ ds, a ≠ user + d) :
    unpack (pairs ds user buffer) mem buf a = mem a := by
  induction ds generalizing mem buffer with
  | nil => rfl
  | cons d ds ih =>
    rw [forall_mem_cons] at h
    exact (ih h.2).trans (update_of_ne h.1 ..)

/-- What is in the memory after unpacking to different places. -/
theorem unpack_pairs (hnd : ds.Nodup) {k : Nat} {d : Int} (hd : ds[k]? = some d) :
    unpack (pairs ds user buffer) mem buf (user + d) = buf (buffer + k) := by
  induction ds generalizing mem buffer k with
  | nil => cases hd
  | cons e ds ih =>
    rw [nodup_cons] at hnd
    rw [pairs, unpack, foldl_cons, ← unpack]
    cases k with
    | zero =>
      cases hd
      have hne : ∀ x ∈ ds, user + d ≠ user + x :=
        fun x hx heq => hnd.1 (Int.add_left_cancel heq ▸ hx)
      rw [unpack_pairs_of_notMem hne, update_self, Nat.cast_zero, add_zero]
    | succ k => rw [ih hnd.2 hd, Nat.cast_succ, add_assoc, add_comm 1]

/-- Consecutive moves are determined by what they do to the buffer. -/
theorem displacements_eq_of_pack [Nontrivial β]
    (h : ∀ mem buf : Int → β, pack (pairs ds user buffer) mem buf =
      pack (pairs ds' user buffer) mem buf) :
    ds = ds' := by
  obtain ⟨x, y, hxy⟩ := exists_pair_ne β
  refine ext_getElem? fun k => ?_
  have hk : ∀ mem buf : Int → β,
      (ds[k]?).elim (buf (buffer + k)) (fun d => mem (user + d)) =
        (ds'[k]?).elim (buf (buffer + k)) fun d => mem (user + d) := fun mem buf => by
    rw [← pack_pairs, ← pack_pairs, h]
  cases hd : ds[k]? with
  | none =>
    cases hd' : ds'[k]? with
    | none => rfl
    | some d' =>
      have hyx : y = x := by simpa [hd, hd'] using hk (fun _ => x) fun _ => y
      exact absurd hyx.symm hxy
  | some d =>
    cases hd' : ds'[k]? with
    | none =>
      have hxy' : x = y := by simpa [hd, hd'] using hk (fun _ => x) fun _ => y
      exact absurd hxy' hxy
    | some d' =>
      -- The memory that has `x` at the one address only tells the two apart.
      have hmem := hk (update (fun _ => y) (user + d) x) fun _ => y
      simp only [hd, hd', Option.elim_some, update_self] at hmem
      by_cases hdd : user + d' = user + d
      · congr 1
        omega
      · rw [update_of_ne hdd] at hmem
        exact absurd hmem hxy

theorem Consecutive.eq_pairs (user : Int) (h : Consecutive moves buffer n) :
    moves = pairs (moves.map fun mv => mv.1 - user) user buffer := by
  induction moves generalizing buffer n with
  | nil => rfl
  | cons mv moves ih =>
    cases n with
    | zero => simp [Consecutive] at h
    | succ n =>
      rw [Consecutive, range_succ_eq_map, map_cons, map_cons, List.cons.injEq, map_map] at h
      obtain ⟨hhead, htail⟩ := h
      have hrest : Consecutive moves (buffer + 1) n := by
        rw [Consecutive, htail]
        refine map_congr_left fun i _ => ?_
        simp only [comp_apply, Nat.cast_succ]
        omega
      rw [map_cons, pairs, ← ih hrest]
      congr 1
      ext
      · simp
      · simpa using hhead

/-- The moves of `pairs` are the only consecutive ones with their effect on the buffer. -/
theorem eq_pairs_of_pack [Nontrivial β] (hmoves : Consecutive moves buffer n)
    (h : ∀ mem buf : Int → β, pack moves mem buf = pack (pairs ds user buffer) mem buf) :
    moves = pairs ds user buffer := by
  rw [hmoves.eq_pairs user] at h ⊢
  rw [displacements_eq_of_pack h]

end Effects

end CharmRuntime.Lib.Moves
