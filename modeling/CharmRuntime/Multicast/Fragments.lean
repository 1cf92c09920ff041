import Mathlib.Algebra.Order.Ring.Int

/-!
# Fragments of a contribution to a section

`CkMulticastMgr::contribute` cuts the contributed data into fragments, and the root of the section
puts the reduced fragments together again in `combineFrags`. The number of fragments is kept in an
`int8_t` before it is compared with `MAXFRAGS`. For the true number `n` of fragments the data
arrives whole, or the call is rejected because `n` is too large, exactly if `n` is at most 100 or
its last byte is one of 101 to 127 (`contribute_delivers_iff`): with 200 fragments the count is -56,
and nothing is sent.
-/

set_option autoImplicit false

namespace CharmRuntime.Multicast

open List

variable {α : Type}

/-- The fields of a `CkReductionMsg` that fragments use. -/
structure CkReductionMsg (α : Type) where
  data : List α
  nFrags : Int
  fragNo : Int

/-- The macro `MAXFRAGS`. -/
def maxFrags : Int := 100

/-- What remains of an integer in an `int8_t`. -/
def toInt8 (x : Int) : Int := (x + 2 ^ 7) % 2 ^ 8 - 2 ^ 7

/-- The number of fragments as `contribute` stores it. -/
def nFrags (dataSize fragSize : Nat) : Int :=
  if dataSize % fragSize ≠ 0 then toInt8 (toInt8 (dataSize / fragSize : Nat) + 1)
  else toInt8 (dataSize / fragSize : Nat)

/-- The variable `fSize` in the round `i` of the loop. -/
def fSize (dataSize fragSize : Nat) (nFrags i : Int) : Nat :=
  if i ≠ 0 ∧ nFrags - 1 = i ∧ dataSize % fragSize ≠ 0 then dataSize % fragSize else fragSize

/-- The loop of `contribute` from the round `i`, where `data` is what its pointer has not passed. -/
def sendFrags (dataSize fragSize : Nat) (nFrags i : Int) (data : List α) :
    List (CkReductionMsg α) :=
  if i < nFrags then
    ⟨data.take (fSize dataSize fragSize nFrags i), nFrags, i⟩ ::
      sendFrags dataSize fragSize nFrags (i + 1) (data.drop (fSize dataSize fragSize nFrags i))
  else []
termination_by (nFrags - i).toNat

/-- `CkMulticastMgr::contribute`: the messages it sends, or `none` if it aborts. -/
def contribute (data : List α) (fragSize : Int) : Option (List (CkReductionMsg α)) :=
  if fragSize = -1 then some (sendFrags data.length data.length 1 0 data)
  else if data.length < fragSize then none
  else if maxFrags < nFrags data.length fragSize.toNat then none
  else some (sendFrags data.length fragSize.toNat (nFrags data.length fragSize.toNat) 0 data)

/-- `combineFrags` on the reduced fragments `redInfo.msgs[i][0]`; `none` if one of them is
missing. -/
def combineFrags (msgs : List (CkReductionMsg α)) : Option (List α) :=
  match msgs with
  | [] => none
  | msg :: _ =>
    if msg.nFrags = 1 then some msg.data
    else if msgs.length < msg.nFrags.toNat then none
    else some ((msgs.take msg.nFrags.toNat).flatMap (·.data))

/-- The number of fragments that the data needs. -/
def fragments (dataSize fragSize : Nat) : Nat := (dataSize + fragSize - 1) / fragSize

/-- What a reduced fragment has in common with each fragment that went into it: the count and the
size. -/
def shape (msg : CkReductionMsg α) : Int × Nat := (msg.nFrags, msg.data.length)

/-- The fragments sent are numbered, carry their number and make up the data, and the root gets data
of the same length back. -/
structure Delivers (data : List α) (fragSize : Nat) (frags : List (CkReductionMsg α)) : Prop where
  numbers : frags.map (·.fragNo) = (range (fragments data.length fragSize)).map Nat.cast
  count : ∀ msg ∈ frags, msg.nFrags = fragments data.length fragSize
  whole : frags.flatMap (·.data) = data
  combined : ∀ msgs : List (CkReductionMsg α), msgs.map shape = frags.map shape →
    ∃ result, combineFrags msgs = some result ∧ result.length = data.length

section Fragments

variable {total size : Nat} (hpos : 1 ≤ size)

/-! ## The count -/

include hpos in
theorem fragments_eq : fragments total size =
    if total % size ≠ 0 then total / size + 1 else total / size := by
  have hdiv := Nat.div_add_mod' total size
  have hlt := Nat.mod_lt total hpos
  split
  · apply Nat.div_eq_of_lt_le
    · rw [Nat.succ_mul]
      omega
    · rw [Nat.succ_mul, Nat.succ_mul]
      omega
  · apply Nat.div_eq_of_lt_le
    · omega
    · rw [Nat.succ_mul]
      omega

include hpos in
/-- The count in the `int8_t` is what remains there of the true number. -/
theorem nFrags_eq : nFrags total size = toInt8 (fragments total size) := by
  rw [nFrags, fragments_eq hpos]
  split
  · simp only [toInt8]
    omega
  · rfl

include hpos in
theorem le_fragments_mul (total : Nat) : total ≤ fragments total size * size := by
  have hlt := Nat.lt_div_mul_add (a := total + size - 1) hpos
  rw [fragments]
  omega

/-! ## The loop -/

theorem length_sendFrags (n i : Int) (data : List α) :
    (sendFrags total size n i data).length = (n - i).toNat := by
  fun_induction sendFrags total size n i data with
  | case1 i data hi ih =>
    rw [length_cons, ih]
    omega
  | case2 i data hi =>
    rw [length_nil]
    omega

theorem nFrags_of_mem_sendFrags {n i : Int} {data : List α} :
    ∀ msg ∈ sendFrags total size n i data, msg.nFrags = n := by
  fun_induction sendFrags total size n i data with
  | case1 i data hi ih => exact forall_mem_cons.2 ⟨rfl, ih⟩
  | case2 i data hi => exact forall_mem_nil _

include hpos in
/-- The last fragment takes what is left of the data, every other one a whole fragment. -/
theorem sub_fSize {i k : Nat} (hn : i + (k + 1) = fragments total size) :
    total - i * size - fSize total size ((i + (k + 1) : Nat) : Int) i = total - (i + 1) * size := by
  have hdiv := Nat.div_add_mod' total size
  have hlt := Nat.mod_lt total hpos
  rw [fragments_eq hpos] at hn
  rw [Nat.succ_mul, fSize]
  split
  case isFalse => omega
  case isTrue hlast =>
    rw [if_pos hlast.2.2] at hn
    have hi : i = total / size := by omega
    rw [hi]
    omega

include hpos in
/-- From the round `i` on, the loop numbers its fragments from `i` and sends the rest of the data.
The induction is on the number of rounds left and carries the length of that rest. -/
theorem sendFrags_covers (k : Nat) : ∀ (i : Nat) (data : List α), i + k = fragments total size →
    data.length = total - i * size →
    (sendFrags total size ((i + k : Nat) : Int) i data).map (·.fragNo) = (range' i k).map Nat.cast ∧
      (sendFrags total size ((i + k : Nat) : Int) i data).flatMap (·.data) = data := by
  induction k with
  | zero =>
    intro i data hn hlen
    have hall := le_fragments_mul hpos total
    rw [← hn, add_zero] at hall
    rw [sendFrags, if_neg (by omega)]
    exact ⟨rfl, (length_eq_zero_iff.1 (by omega)).symm⟩
  | succ k ih =>
    intro i data hn hlen
    obtain ⟨hnums, hdata⟩ := ih (i + 1) (data.drop (fSize total size (i + (k + 1) : Nat) i))
      (by omega) (by rw [length_drop, hlen, sub_fSize hpos hn])
    rw [add_assoc, add_comm 1 k] at hnums hdata
    rw [sendFrags, if_pos (by omega), range'_succ]
    constructor
    · exact congrArg (Int.ofNat i :: ·) hnums
    · rw [flatMap_cons]
      exact (congrArg _ hdata).trans (take_append_drop _ _)

end Fragments

/-! ## The root -/

theorem length_flatMap_data {msgs sent : List (CkReductionMsg α)}
    (h : msgs.map shape = sent.map shape) :
    (msgs.flatMap (·.data)).length = (sent.flatMap (·.data)).length := by
  have hsizes := congrArg (map Prod.snd) h
  rw [map_map, map_map] at hsizes
  rw [length_flatMap, length_flatMap]
  exact congrArg sum hsizes

/-- `combineFrags` joins the reduced fragments if they carry their own number. -/
theorem combineFrags_eq {msgs : List (CkReductionMsg α)} (hne : msgs ≠ [])
    (hcount : ∀ msg ∈ msgs, msg.nFrags = msgs.length) :
    combineFrags msgs = some (msgs.flatMap (·.data)) := by
  cases msgs with
  | nil => exact absurd rfl hne
  | cons msg rest =>
    have hmsg : msg.nFrags = (rest.length + 1 : Nat) := hcount msg mem_cons_self
    rw [combineFrags]
    split
    case isTrue hone =>
      have hrest : rest = [] := length_eq_zero_iff.1 (by omega)
      rw [hrest, flatMap_singleton]
    case isFalse =>
      rw [hmsg, Int.toNat_natCast, ← length_cons (a := msg), if_neg (lt_irrefl _), take_length]

/-! ## The contribution -/

section Contribution

variable {data : List α} {size n : Nat} (hpos : 1 ≤ size) (hle : size ≤ data.length)
  (hn : fragments data.length size = n)

include hpos hle hn

theorem contribute_eq : contribute data size =
    if maxFrags < toInt8 n then none else some (sendFrags data.length size (toInt8 n) 0 data) := by
  rw [contribute, if_neg (by omega), if_neg (by omega), Int.toNat_natCast, nFrags_eq hpos, hn]

theorem delivers_sendFrags : Delivers data size (sendFrags data.length size n 0 data) := by
  obtain ⟨hnums, hdata⟩ := sendFrags_covers hpos n 0 data ((zero_add n).trans hn.symm) (by omega)
  rw [zero_add] at hnums hdata
  refine ⟨by rw [hn, range_eq_range']; exact hnums, hn ▸ nFrags_of_mem_sendFrags, hdata, ?_⟩
  intro msgs hred
  have hmsgs : msgs.length = n := by
    have hsame := congrArg length hred
    rw [length_map, length_map, length_sendFrags] at hsame
    omega
  have hfrag : 0 < n := hn ▸ Nat.div_pos (by omega) hpos
  have hcount : ∀ msg ∈ msgs, msg.nFrags = msgs.length := by
    intro msg hmsg
    obtain ⟨sent, hsent, hshape⟩ := mem_map.1 (hred ▸ mem_map_of_mem hmsg)
    rw [hmsgs, ← nFrags_of_mem_sendFrags sent hsent]
    exact congrArg Prod.fst hshape.symm
  refine ⟨_, combineFrags_eq (length_pos_iff.1 (by omega)) hcount, ?_⟩
  exact (length_flatMap_data hred).trans (congrArg length hdata)

end Contribution

/-- The contribution is rejected because it needs too many fragments or arrives whole, exactly if
the number of fragments is at most `MAXFRAGS` or still larger than that after the cut to an
`int8_t`. -/
theorem contribute_delivers_iff (data : List α) (fragSize : Nat) (hpos : 1 ≤ fragSize)
    (hle : fragSize ≤ data.length) :
    (contribute data fragSize = none ∧ maxFrags < fragments data.length fragSize) ∨
        (∃ frags, contribute data fragSize = some frags ∧ Delivers data fragSize frags) ↔
      fragments data.length fragSize ≤ 100 ∨
        101 ≤ fragments data.length fragSize % 256 ∧
        fragments data.length fragSize % 256 ≤ 127 := by
  obtain ⟨n, hn⟩ : ∃ n, fragments data.length fragSize = n := ⟨_, rfl⟩
  rw [contribute_eq hpos hle hn, hn, maxFrags]
  constructor
  · rintro (⟨hnone, -⟩ | ⟨frags, hsome, hdel⟩)
    · split at hnone
      case isTrue hmax =>
        rw [toInt8] at hmax
        omega
      case isFalse => cases hnone
    · split at hsome
      case isTrue => cases hsome
      case isFalse hmax =>
        -- the loop sends as many messages as the `int8_t` says
        have hlen := congrArg length hdel.numbers
        rw [← Option.some.inj hsome, length_map, length_sendFrags, length_map, length_range] at hlen
        omega
  · intro hcond
    by_cases hsmall : n ≤ 100
    · have hint : toInt8 n = n := by
        rw [toInt8]
        omega
      rw [hint, if_neg (by omega)]
      exact Or.inr ⟨_, rfl, delivers_sendFrags hpos hle hn⟩
    · refine Or.inl ⟨if_pos ?_, by omega⟩
      rw [toInt8]
      omega

/-- A contribution in 200 fragments: the count wraps to -56, and no message is sent. -/
theorem contribute_sends_nothing : contribute (replicate 200 (0 : UInt8)) 1 = some [] := by
  have hcount : nFrags 200 1 = -56 := by decide
  rw [contribute, length_replicate, if_neg (by decide), if_neg (by decide), Int.toNat_one, hcount,
    if_neg (by decide), sendFrags, if_neg (by decide)]

theorem contribute_delivers_pair :
    (∃ frags, contribute [1, 2, 3] (2 : Nat) = some frags ∧ Delivers [1, 2, 3] 2 frags) := by
  rcases (contribute_delivers_iff [1, 2, 3] 2 (by decide) (by decide)).2 (by decide) with h | h
  · exact absurd h.2 (by decide)
  · exact h

end CharmRuntime.Multicast
